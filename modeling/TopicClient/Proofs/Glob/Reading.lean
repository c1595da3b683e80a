import Mathlib.Tactic.SplitIfs
import TopicClient.Proofs.Glob.Piece

/-!
# How the client reads a key in pieces

The client takes each piece for the token it spells, except for a double star that stands alone
between slashes: it is a tree. `exists_readTokens` follows the reader from piece to piece.
-/

namespace TopicClient.Glob

theorem Piece.text_ne_nil (p : Piece) : p.text ≠ [] := by
  cases p with
  | loose l => cases l <;> exact List.cons_ne_nil _ _
  | anchor a => cases a <;> exact List.cons_ne_nil _ _
  | misread | opening | closing => exact List.cons_ne_nil _ _

def Piece.last : Piece → Char
  | .loose .one => '?'
  | .loose .run => '*'
  | .loose (.except _ _ _) => ']'
  | .anchor (.char c _) => c
  | .anchor (.escaped c) => c
  | .anchor (.among _ _ _) => ']'
  | .misread _ _ => ']'
  | .opening => '\x7b'
  | .closing => '\x7d'

def endsSegment : List Piece → Bool
  | [] => true
  | .anchor (.char c _) :: _ => c = '/'
  | _ => false

/-- A double star comes first, and ends where a slash or the end of the key follows. -/
def beginsTree : List Piece → Bool
  | .loose .run :: .loose .run :: ps => endsSegment ps
  | _ => false

/-- A double star stands alone between two slashes or ends of the key. The flag says that the
pieces begin at such a place. -/
def hasTree : Bool → List Piece → Bool
  | _, [] => false
  | start, p :: ps => (start && beginsTree (p :: ps)) || hasTree (p.last = '/') ps

theorem readTokens_listing (l : Listing) (fuel : ℕ) (before : Option Char) (frame : Frame)
    (outer : List Frame) (cs : List Char) :
    readTokens (fuel + 1) before frame outer (l.spelled ++ cs) =
      readTokens fuel (some ']') (frame.push l.token) outer cs := by
  rw [l.spelled_append, readTokens, l.negation_text]
  simp only [l.readSet_text]
  rfl

theorem readTokens_text {p : Piece} (hp : p ≠ .loose .run) (hbrace : p.isBrace = false)
    {outer : List Frame} (hcomma : p.text = [','] → outer = []) (fuel : ℕ)
    (before : Option Char) (frame : Frame) (cs : List Char) :
    readTokens (fuel + 1) before frame outer (p.text ++ cs) =
      readTokens fuel (some p.last) (frame.push p.token) outer cs := by
  cases p with
  | loose l =>
    cases l with
    | one => rfl
    | run => exact absurd rfl hp
    | except l => exact readTokens_listing l fuel before frame outer cs
  | anchor a =>
    cases a with
    | char c hc =>
      by_cases hc' : c = ','
      · subst hc'
        rw [hcomma rfl]
        rfl
      · simp only [List.mem_cons, List.not_mem_nil, or_false, not_or] at hc
        simp [Piece.text, Anchor.text, readTokens, hc, Piece.last, Piece.token, Anchor.token]
    | escaped c => rfl
    | among l => exact readTokens_listing l fuel before frame outer cs
  | misread l => exact readTokens_listing l fuel before frame outer cs
  | opening | closing => cases hbrace

theorem spell_ne_star {ps : List Piece} (h : ∀ qs, ps ≠ .loose .run :: qs) (cs : List Char) :
    spell ps ≠ '*' :: cs := by
  cases ps with
  | nil => exact nofun
  | cons p ps =>
    intro hstar
    cases p with
    | loose l =>
      cases l with
      | run => exact h ps rfl
      | one | except => cases hstar
    | anchor a =>
      cases a with
      | char c hc =>
        obtain ⟨rfl, _⟩ := List.cons_eq_cons.1 hstar
        exact hc (by decide)
      | escaped | among => cases hstar
    | misread | opening | closing => cases hstar

theorem readTokens_run {ps : List Piece} (h : ∀ qs, ps ≠ .loose .run :: qs) (fuel : ℕ)
    (before : Option Char) (frame : Frame) (outer : List Frame) :
    readTokens (fuel + 1) before frame outer (spell (.loose .run :: ps)) =
      readTokens fuel (some '*') (frame.push .run) outer (spell ps) :=
  readTokens.eq_5 _ _ _ _ _ fun cs hcs => spell_ne_star h cs hcs

theorem readTokens_run_run (ps : List Piece) (fuel : ℕ) (before : Option Char) (frame : Frame)
    (outer : List Frame) {cur : List Token} {rest : List Char}
    (h : applyDoubleStar (doubleStar before frame.current.isEmpty (!outer.isEmpty) (spell ps))
      frame.current (spell ps) = (cur, rest)) :
    readTokens (fuel + 1) before frame outer (spell (.loose .run :: .loose .run :: ps)) =
      readTokens fuel (some (if rest.length < (spell ps).length then '/' else '*'))
        { frame with current := cur } outer rest := by
  change readTokens (fuel + 1) before frame outer ('*' :: '*' :: spell ps) = _
  rw [readTokens.eq_4]
  simp only [h]

def Grown (cur : List Token) : Prop :=
  cur.getLast? = some .leadingTree ∨ .innerTree ∈ cur ∨ .trailingTree ∈ cur

theorem Grown.cons {cur : List Token} (h : Grown cur) (t : Token) : Grown (t :: cur) := by
  rcases h with h | h | h
  · cases cur with
    | nil => cases h
    | cons t' cur => exact .inl (by rw [List.getLast?_cons_cons, h])
  · exact .inr (.inl (List.mem_cons_of_mem t h))
  · exact .inr (.inr (List.mem_cons_of_mem t h))

structure Flat (cur : List Token) : Prop where
  depth_le : ∀ t ∈ cur, t.depth ≤ 4
  grown : .leadingTree ∈ cur → Grown cur

theorem Piece.depth_token_le (p : Piece) : p.token.depth ≤ 4 := by
  have hset : ∀ l : Listing, l.token.depth ≤ 4 := by
    intro l
    rw [Listing.token, Token.depth]
    split_ifs
    · exact (by decide : 1 ≤ 4)
    · exact (by decide : 2 ≤ 4)
  cases p with
  | loose l =>
    cases l with
    | one | run => decide
    | except l => exact hset l
  | anchor a =>
    cases a with
    | char | escaped => exact Nat.zero_le 4
    | among l => exact hset l
  | misread l => exact hset l
  | opening | closing => exact Nat.zero_le 4

theorem Piece.token_ne_leadingTree (p : Piece) : p.token ≠ .leadingTree := by
  cases p with
  | loose l => cases l <;> exact nofun
  | anchor a => cases a <;> exact nofun
  | misread | opening | closing => exact nofun

theorem Flat.cons {cur : List Token} (h : Flat cur) (p : Piece) : Flat (p.token :: cur) where
  depth_le := List.forall_mem_cons.2 ⟨p.depth_token_le, h.depth_le⟩
  grown := by
    intro hmem
    rcases List.mem_cons.1 hmem with heq | hmem
    · exact absurd heq.symm p.token_ne_leadingTree
    · exact (h.grown hmem).cons p.token

theorem Flat.replaceLatest {cur : List Token} (h : Flat cur) {tree : Token}
    (htree : tree = .innerTree ∨ tree = .trailingTree) :
    Flat (replaceLatest tree cur) ∧ Grown (replaceLatest tree cur) := by
  have hgrown : Grown (Glob.replaceLatest tree cur) := by
    unfold Glob.replaceLatest
    split
    · exact h.grown List.mem_cons_self
    · exact .inr (.inr List.mem_cons_self)
    · rcases htree with rfl | rfl
      · exact .inr (.inl List.mem_cons_self)
      · exact .inr (.inr List.mem_cons_self)
    · rcases htree with rfl | rfl
      · exact .inr (.inl List.mem_cons_self)
      · exact .inr (.inr List.mem_cons_self)
  refine ⟨⟨?_, fun _ => hgrown⟩, hgrown⟩
  have hdepth : tree.depth ≤ 4 := by rcases htree with rfl | rfl <;> decide
  have hcur := h.depth_le
  unfold Glob.replaceLatest
  split
  · exact hcur
  · exact hcur
  · exact List.forall_mem_cons.2 ⟨hdepth, (List.forall_mem_cons.1 hcur).2⟩
  · exact List.forall_mem_cons.2 ⟨hdepth, nofun⟩

theorem endsSegment_of_spell {ps : List Piece}
    (h : spell ps = [] ∨ ∃ cs, spell ps = '/' :: cs) : endsSegment ps = true := by
  cases ps with
  | nil => rfl
  | cons p ps =>
    cases p with
    | loose l => cases l <;> simp [Piece.text, Loose.text, Listing.spelled] at h
    | anchor a =>
      cases a with
      | char c hc =>
        rcases h with h | ⟨cs, h⟩
        · cases h
        · exact decide_eq_true (List.cons_eq_cons.1 h).1
      | escaped | among => simp [Piece.text, Anchor.text, Listing.spelled] at h
    | misread | opening | closing => simp [Piece.text, Listing.spelled] at h

theorem doubleStar_eq_plain {before : Option Char} {atStart : Bool} {ps : List Piece}
    (h : ((atStart || before == some '/') && endsSegment ps) = false) :
    doubleStar before atStart false (spell ps) = .plain := by
  have hends : endsSegment ps = false → spell ps ≠ [] ∧ ∀ cs, spell ps ≠ '/' :: cs := by
    intro hfalse
    refine ⟨fun hnil => ?_, fun cs hslash => ?_⟩
    · exact Bool.noConfusion (hfalse.symm.trans (endsSegment_of_spell (.inl hnil)))
    · exact Bool.noConfusion (hfalse.symm.trans (endsSegment_of_spell (.inr ⟨cs, hslash⟩)))
  cases atStart with
  | true =>
    obtain ⟨hnil, hslash⟩ := hends (by simpa using h)
    unfold doubleStar
    rw [if_pos rfl]
    split
    · exact absurd ‹_› hnil
    · exact absurd ‹_› (hslash _)
    · rfl
  | false =>
    unfold doubleStar
    simp only [Bool.false_eq_true, if_false, false_and, or_false]
    by_cases hbefore : before = some '/'
    · obtain ⟨hnil, hslash⟩ := hends (by simpa [hbefore] using h)
      rw [if_pos hbefore]
      split
      · exact absurd ‹_› hnil
      · exact absurd ‹_› (hslash _)
      · rfl
      · rfl
      · rfl
    · rw [if_neg hbefore]

theorem eq_nil_or_slash_of_endsSegment {ps : List Piece} (h : endsSegment ps = true) :
    ps = [] ∨ ∃ p qs, ps = p :: qs ∧ p.text = ['/'] := by
  cases ps with
  | nil => exact .inl rfl
  | cons p qs =>
    cases p with
    | loose | misread | opening | closing => cases h
    | anchor a =>
      cases a with
      | char c hc =>
        obtain rfl : c = '/' := of_decide_eq_true h
        exact .inr ⟨_, qs, rfl, rfl⟩
      | escaped | among => cases h

theorem exists_applyDoubleStar {before : Option Char} {cur : List Token} {ps : List Piece}
    (hstart : (cur.isEmpty || before == some '/') = true) (hends : endsSegment ps = true)
    (hcur : Flat cur) :
    ∃ cur' qs, applyDoubleStar (doubleStar before cur.isEmpty false (spell ps)) cur (spell ps) =
        (cur', spell qs) ∧ Flat cur' ∧ Grown cur' ∧ qs <:+ ps := by
  have hleading : Flat [Token.leadingTree] ∧ Grown [Token.leadingTree] :=
    ⟨⟨by decide, fun _ => .inl rfl⟩, .inl rfl⟩
  have hslash : ∀ {p : Piece} {qs}, p.text = ['/'] → spell (p :: qs) = '/' :: spell qs := by
    intro p qs hp
    rw [spell_cons, hp]
    rfl
  cases cur with
  | nil =>
    rcases eq_nil_or_slash_of_endsSegment hends with rfl | ⟨p, qs, rfl, hp⟩
    · exact ⟨_, [], rfl, hleading.1, hleading.2, List.suffix_rfl⟩
    · exact ⟨_, qs, by rw [hslash hp]; rfl, hleading.1, hleading.2, List.suffix_cons p qs⟩
  | cons t cur =>
    obtain rfl : before = some '/' := by simpa using hstart
    rcases eq_nil_or_slash_of_endsSegment hends with rfl | ⟨p, qs, rfl, hp⟩
    · obtain ⟨hflat, hgrown⟩ := hcur.replaceLatest (.inr rfl)
      exact ⟨_, [], rfl, hflat, hgrown, List.suffix_rfl⟩
    · obtain ⟨hflat, hgrown⟩ := hcur.replaceLatest (.inl rfl)
      exact ⟨_, qs, by rw [hslash hp]; rfl, hflat, hgrown, List.suffix_cons p qs⟩

theorem length_spell_le {ps qs : List Piece} (h : qs <:+ ps) :
    (spell qs).length ≤ (spell ps).length := by
  obtain ⟨rs, rfl⟩ := h
  rw [spell, spell, List.flatMap_append, List.length_append]
  omega

/-- What the tokens are when pieces are read after those of `cur`: the tokens of the pieces if
there is no tree, and else some with a tree among them. -/
structure ReadsAs (cur : List Token) (start : Bool) (ps : List Piece) (ts : List Token) :
    Prop where
  flat : Flat ts
  reverse_eq : hasTree start ps = false → ts.reverse = cur.reverse ++ ps.map Piece.token
  grown : Grown cur ∨ hasTree start ps = true → Grown ts

theorem ReadsAs.cons {cur : List Token} {start : Bool} {p : Piece} {ps : List Piece}
    {ts : List Token} (h : ReadsAs (p.token :: cur) (p.last = '/') ps ts)
    (hno : (start && beginsTree (p :: ps)) = false) : ReadsAs cur start (p :: ps) ts where
  flat := h.flat
  reverse_eq := by
    intro hfalse
    rw [hasTree, hno, Bool.false_or] at hfalse
    rw [h.reverse_eq hfalse, List.reverse_cons, List.append_assoc]
    rfl
  grown := by
    intro hgrown
    rw [hasTree, hno, Bool.false_or] at hgrown
    exact h.grown (hgrown.imp (fun h => h.cons p.token) id)

/-- The client reads every key of pieces without braces. -/
theorem exists_readTokens (fuel : ℕ) (ps : List Piece) (before : Option Char) (cur : List Token)
    (hbrace : ∀ p ∈ ps, p.isBrace = false) (hfuel : (spell ps).length < fuel) (hcur : Flat cur) :
    ∃ ts, readTokens fuel before ⟨[], cur⟩ [] (spell ps) = .ok ts.reverse ∧
      ReadsAs cur (cur.isEmpty || before == some '/') ps ts := by
  induction fuel generalizing ps before cur with
  | zero => exact absurd hfuel (Nat.not_lt_zero _)
  | succ fuel ih =>
    have hstep : ∀ (p : Piece) (qs : List Piece), (∀ p ∈ qs, p.isBrace = false) →
        (spell qs).length < fuel →
        ∃ ts, readTokens fuel (some p.last) ⟨[], p.token :: cur⟩ [] (spell qs) = .ok ts.reverse ∧
          ReadsAs (p.token :: cur) (p.last = '/') qs ts := by
      intro p qs hqs hlength
      obtain ⟨ts, hread, hts⟩ := ih qs (some p.last) (p.token :: cur) hqs hlength (hcur.cons p)
      have hstart : ((p.token :: cur).isEmpty || some p.last == some '/') =
          decide (p.last = '/') := rfl
      rw [hstart] at hts
      exact ⟨ts, hread, hts⟩
    cases ps with
    | nil =>
      refine ⟨cur, rfl, hcur, fun _ => ?_, ?_⟩
      · rw [List.map_nil, List.append_nil]
      · rintro (h | h)
        · exact h
        · cases h
    | cons p ps =>
      obtain ⟨hp', hps⟩ := List.forall_mem_cons.1 hbrace
      by_cases hp : p = .loose .run
      · subst hp
        have hsingle : (∀ qs, ps ≠ .loose .run :: qs) →
            ∃ ts, readTokens (fuel + 1) before ⟨[], cur⟩ [] (spell (.loose .run :: ps)) =
                .ok ts.reverse ∧
              ReadsAs cur (cur.isEmpty || before == some '/') (.loose .run :: ps) ts := by
          intro hne
          obtain ⟨ts, hread, hts⟩ := hstep (.loose .run) ps hps (Nat.lt_of_succ_lt_succ hfuel)
          refine ⟨ts, ?_, hts.cons ?_⟩
          · rw [← hread]
            exact readTokens_run hne fuel before ⟨[], cur⟩ []
          · have hno : beginsTree (.loose .run :: ps) = false := by
              unfold beginsTree
              split
              · rename_i h
                exact absurd (List.cons_eq_cons.1 h).2 (hne _)
              · rfl
            rw [hno, Bool.and_false]
        cases ps with
        | nil => exact hsingle nofun
        | cons q qs =>
          by_cases hq : q = .loose .run
          · subst hq
            have hqs := (List.forall_mem_cons.1 hps).2
            have hlength : (spell qs).length < fuel := by
              simp only [spell_cons, Piece.text, Loose.text, List.length_append, List.length_cons,
                List.length_nil] at hfuel
              omega
            by_cases htree : ((cur.isEmpty || before == some '/') && endsSegment qs) = true
            · obtain ⟨hstart, hends⟩ := Bool.and_eq_true_iff.1 htree
              obtain ⟨cur', qs', happly, hflat, hgrown, hsuffix⟩ :=
                exists_applyDoubleStar hstart hends hcur
              obtain ⟨ts, hread, hts⟩ := ih qs' (some (if (spell qs').length < (spell qs).length
                then '/' else '*')) cur' (fun p hp => hqs p (hsuffix.mem hp))
                (Nat.lt_of_le_of_lt (length_spell_le hsuffix) hlength) hflat
              refine ⟨ts, ?_, hts.flat, fun hfalse => ?_, fun _ => hts.grown (.inl hgrown)⟩
              · rw [← hread]
                exact readTokens_run_run qs fuel before ⟨[], cur⟩ [] happly
              · rw [hasTree, beginsTree, htree, Bool.true_or] at hfalse
                cases hfalse
            · have hplain := doubleStar_eq_plain (Bool.not_eq_true _ ▸ htree)
              obtain ⟨ts, hread, hts⟩ := ih qs (some '*') (.run :: .run :: cur) hqs hlength
                ((hcur.cons (.loose .run)).cons (.loose .run))
              have hinner : ReadsAs (.run :: cur) false (.loose .run :: qs) ts := by
                refine ReadsAs.cons hts (Bool.false_and _)
              refine ⟨ts, ?_, ReadsAs.cons hinner (Bool.not_eq_true _ ▸ htree)⟩
              have happly : applyDoubleStar (doubleStar before cur.isEmpty false (spell qs)) cur
                  (spell qs) = (.run :: .run :: cur, spell qs) := by
                rw [hplain]
                rfl
              rw [← hread, readTokens_run_run qs fuel before ⟨[], cur⟩ [] happly,
                if_neg (Nat.lt_irrefl _)]
          · exact hsingle fun qs' h => hq (List.cons_eq_cons.1 h).1
      · have hlength : (spell ps).length < fuel := by
          have hpos := List.length_pos_iff.2 p.text_ne_nil
          rw [spell_cons, List.length_append] at hfuel
          omega
        obtain ⟨ts, hread, hts⟩ := hstep p ps hps hlength
        refine ⟨ts, ?_, hts.cons ?_⟩
        · rw [← hread]
          exact readTokens_text hp hp' (fun _ => rfl) fuel before ⟨[], cur⟩ (spell ps)
        · have hno : beginsTree (p :: ps) = false := by
            unfold beginsTree
            split
            · rename_i h
              exact absurd (List.cons_eq_cons.1 h).1 hp
            · rfl
          rw [hno, Bool.and_false]

theorem patternDepth_le {ts : List Token} (h : ∀ t ∈ ts, t.depth ≤ 4) :
    patternDepth ts ≤ depthLimit := by
  have htokens : tokensDepth ts ≤ 4 := by
    induction ts with
    | nil => exact Nat.zero_le 4
    | cons t ts ih =>
      obtain ⟨ht, hts⟩ := List.forall_mem_cons.1 h
      rw [tokensDepth]
      exact Nat.max_le.2 ⟨ht, ih hts⟩
  unfold patternDepth depthLimit
  split
  · decide
  · omega

theorem exists_parse_spell {ps : List Piece} (hbrace : ∀ p ∈ ps, p.isBrace = false) :
    ∃ ts, parse (spell ps) = .ok ts.reverse ∧ ReadsAs [] true ps ts :=
  exists_readTokens ((spell ps).length + 1) ps none [] hbrace (Nat.lt_succ_self _) ⟨nofun, nofun⟩

theorem exists_compile_keyOf {ps : List Piece} (hbrace : ∀ p ∈ ps, p.isBrace = false)
    (h : isGlob (keyOf ps) = true) : ∃ pattern, compile (keyOf ps) = .glob pattern := by
  obtain ⟨ts, hparse, hts⟩ := exists_parse_spell hbrace
  have hdepth := patternDepth_le fun t ht => hts.flat.depth_le t (List.mem_reverse.1 ht)
  refine ⟨⟨ts.reverse, regexOf ts.reverse⟩, ?_⟩
  rw [compile, if_pos h, keyOf, String.toList_ofList, hparse]
  exact if_pos hdepth

end TopicClient.Glob
