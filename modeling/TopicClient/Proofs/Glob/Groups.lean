import TopicClient.Proofs.Glob.Language
import TopicClient.Proofs.Glob.Reading
import TopicClient.Proofs.Glob.Trees

/-!
# Groups take no braces

A brace takes itself for the server, so every topic of the server has a character for it. For the
client it opens or closes a group, and takes nothing. While the client reads a key, each open group
keeps a text that its tokens match and that has a character for each piece but braces and runs:
`hasShort_of_parse`.
-/

namespace TopicClient.Glob

open Regex

def Piece.sample : Piece → Char
  | .loose (.except l _ _) => l.sample
  | .loose _ => 'a'
  | .anchor a => a.sample
  | .misread l _ => l.sample
  | .opening => '\x7b'
  | .closing => '\x7d'

/-- The tokens, latest first, match one after the other texts of so many characters together. -/
def Short : ℕ → List Token → Prop
  | _, [] => True
  | n, t :: ts => ∃ w m, Matches (concat t.parts) (encode w) ∧ w.length + m ≤ n ∧ Short m ts

def HasShort (n : ℕ) (ts : List Token) : Prop :=
  ∃ w, Words ts (encode w) ∧ w.length ≤ n

theorem Short.hasShort {n : ℕ} {ts : List Token} (h : Short n ts) : HasShort n ts.reverse := by
  induction ts generalizing n with
  | nil => exact ⟨[], words_nil_iff.2 rfl, Nat.zero_le n⟩
  | cons t ts ih =>
    obtain ⟨w, m, hw, hle, hts⟩ := h
    obtain ⟨v, hv, hvm⟩ := ih hts
    refine ⟨v ++ w, ?_, ?_⟩
    · rw [List.reverse_cons, encode_append]
      have ht : Words [t] (encode w) :=
        words_cons_iff.2 ⟨encode w, [], (List.append_nil _).symm, hw, words_nil_iff.2 rfl⟩
      exact words_append_iff.2 ⟨encode v, encode w, rfl, hv, ht⟩
    · rw [List.length_append]
      omega

theorem Short.push {n : ℕ} {t : Token} {ts : List Token} (h : Short n ts) {w : List Char}
    (hw : Matches (concat t.parts) (encode w)) : Short (n + w.length) (t :: ts) :=
  ⟨w, n, hw, by omega, h⟩

theorem Piece.matches_sample {p : Piece} (hrepeats : p.repeats = false)
    (hbrace : p.isBrace = false) : Matches (concat p.token.parts) (encode [p.sample]) := by
  have hlist : ∀ l : Listing, Matches (concat l.token.parts) (encode [l.sample]) := by
    intro l
    refine (matches_listing_iff l _).2 ⟨UInt8.ofNat l.sample.toNat, ?_, ?_⟩
    · rw [toNat_byte l.sample_ascii]
      exact l.has_sample
    · rw [encode_cons, bytes_of_ascii l.sample_ascii]
      rfl
  cases p with
  | loose l =>
    cases l with
    | one =>
      refine (matches_loose_iff .one _).2 ?_
      exact .take rfl (by decide : ('a'.toNat ≠ 47)) .done
    | run => cases hrepeats
    | except l => exact hlist l
  | anchor a =>
    refine (matches_anchor_iff a _).2 ⟨a.sample, a.takes_sample, ?_⟩
    exact List.append_nil _
  | misread l => exact hlist l
  | opening | closing => cases hbrace

theorem matches_run_nil : Matches (concat Token.run.parts) (encode []) :=
  (matches_loose_iff .run []).2 (.skip rfl .done)

/-- What the token matches has a character, or the reader leaves the token when it puts a tree
after it. -/
def Solid (t : Token) : Prop :=
  t = .leadingTree ∨ t = .trailingTree ∨ ¬ Matches (concat t.parts) []

def LatestSolid (before : Option Char) (cur : List Token) : Prop :=
  before = some '/' ∨ before = some ',' ∨ before = some '\x7b' → ∀ t ∈ cur.head?, Solid t

theorem solid_literal (c : Char) : Solid (.literal c) := by
  refine .inr (.inr fun h => ?_)
  have hbytes : [] = bytes c := matches_concat_singles_iff.1 h
  exact bytes_ne_nil c hbytes.symm

theorem Short.replaceLatest {n : ℕ} {cur : List Token} (h : Short n cur) (hne : cur ≠ [])
    (hsolid : ∀ t ∈ cur.head?, Solid t) {tree : Token}
    (htree : tree = .innerTree ∨ tree = .trailingTree) :
    Short n (replaceLatest tree cur) ∧ ∀ t ∈ (replaceLatest tree cur).head?, Solid t := by
  obtain ⟨t, ts, rfl⟩ := List.exists_cons_of_ne_nil hne
  have ht : Solid t := hsolid t rfl
  have hslash : Matches (concat tree.parts) (encode ['/']) := by
    rcases htree with rfl | rfl
    · exact matches_innerTree_iff.2 (.inl rfl)
    · exact matches_trailingTree_iff.2 ⟨[], rfl⟩
  have hsolid' : Solid tree := by
    rcases htree with rfl | rfl
    · refine .inr (.inr fun hnil => ?_)
      rcases matches_innerTree_iff.1 hnil with h | ⟨u, h⟩ <;> cases h
    · exact .inr (.inl rfl)
  obtain ⟨w, m, hw, hle, hts⟩ := h
  unfold Glob.replaceLatest
  split
  · rename_i heq
    obtain ⟨rfl, rfl⟩ := List.cons_eq_cons.1 heq
    refine ⟨⟨w, m, hw, hle, hts⟩, fun t' ht' => ?_⟩
    rw [← Option.mem_some.1 ht']
    exact ht
  · rename_i heq
    obtain ⟨rfl, rfl⟩ := List.cons_eq_cons.1 heq
    refine ⟨⟨w, m, hw, hle, hts⟩, fun t' ht' => ?_⟩
    rw [← Option.mem_some.1 ht']
    exact ht
  · rename_i hleading htrailing heq
    obtain ⟨rfl, rfl⟩ := List.cons_eq_cons.1 heq
    have hpos : 0 < w.length := by
      rcases ht with rfl | rfl | hnil
      · exact (hleading rfl).elim
      · exact (htrailing rfl).elim
      · refine List.length_pos_iff.2 fun hw' => hnil ?_
        rw [hw'] at hw
        exact hw
    refine ⟨⟨['/'], m, hslash, ?_, hts⟩, fun t' ht' => ?_⟩
    · rw [List.length_singleton]
      omega
    · rw [← Option.mem_some.1 ht']
      exact hsolid'
  · rename_i heq
    cases heq

/-- A tree at the start takes nothing or a slash after it. Elsewhere a tree comes after a slash or
at the start of a branch, and an inner tree takes the slash after it. -/
theorem doubleStar_cases (before : Option Char) (atStart inGroup : Bool) (after : List Char) :
    doubleStar before atStart inGroup after = .plain ∨
      (doubleStar before atStart inGroup after = .leading ∧ atStart = true ∧
        (after = [] ∨ ∃ cs, after = '/' :: cs)) ∨
      (before = some '/' ∨ before = some ',' ∨ before = some '\x7b') ∧ atStart = false ∧
        (doubleStar before atStart inGroup after = .trailing ∨
          doubleStar before atStart inGroup after = .inner ∧ ∃ cs, after = '/' :: cs) := by
  unfold doubleStar
  split_ifs with hstart hbefore hgroup
  · split
    · exact .inr (.inl ⟨rfl, hstart, .inl rfl⟩)
    · exact .inr (.inl ⟨rfl, hstart, .inr ⟨_, rfl⟩⟩)
    · exact .inl rfl
  · have hplace := hbefore.imp_right And.right
    have hstart := Bool.eq_false_iff.2 hstart
    split
    · exact .inr (.inr ⟨hplace, hstart, .inl rfl⟩)
    · exact .inr (.inr ⟨hplace, hstart, .inr ⟨rfl, _, rfl⟩⟩)
    · exact .inr (.inr ⟨hplace, hstart, .inl rfl⟩)
    · exact .inr (.inr ⟨hplace, hstart, .inl rfl⟩)
    · exact .inl rfl
  · have hplace := hbefore.imp_right And.right
    have hstart := Bool.eq_false_iff.2 hstart
    split
    · exact .inr (.inr ⟨hplace, hstart, .inl rfl⟩)
    · exact .inr (.inr ⟨hplace, hstart, .inr ⟨rfl, _, rfl⟩⟩)
    · exact .inl rfl
    · exact .inl rfl
    · exact .inl rfl
  · exact .inl rfl

theorem latestSolid_star (cur : List Token) : LatestSolid (some '*') cur := by
  rintro (h | h | h) <;> cases h

theorem exists_spell_eq_of_slash {ps : List Piece} {cs : List Char} (h : spell ps = '/' :: cs) :
    ∃ qs, cs = spell qs ∧ qs <:+ ps := by
  have hends : endsSegment ps = true := endsSegment_of_spell (.inr ⟨cs, h⟩)
  rcases eq_nil_or_slash_of_endsSegment hends with rfl | ⟨p, qs, rfl, hp⟩
  · cases h
  · rw [spell_cons, hp] at h
    exact ⟨qs, (List.cons_eq_cons.1 h).2.symm, List.suffix_cons p qs⟩

theorem exists_short_applyDoubleStar {n : ℕ} {cur : List Token} (h : Short n cur)
    {before : Option Char} (hsolid : LatestSolid before cur) (inGroup : Bool) (ps : List Piece) :
    ∃ cur' qs, applyDoubleStar (doubleStar before cur.isEmpty inGroup (spell ps)) cur (spell ps) =
        (cur', spell qs) ∧ qs <:+ ps ∧ Short n cur' ∧
      LatestSolid (some (if (spell qs).length < (spell ps).length then '/' else '*')) cur' := by
  have hstar : LatestSolid (some (if (spell ps).length < (spell ps).length then '/' else '*')) =
      LatestSolid (some '*') := by
    rw [if_neg (Nat.lt_irrefl _)]
  rcases doubleStar_cases before cur.isEmpty inGroup (spell ps) with
    hkind | ⟨hkind, hempty, hafter⟩ | ⟨hbefore, hempty, hkind⟩
  · refine ⟨.run :: .run :: cur, ps, by rw [hkind]; rfl, List.suffix_rfl, ?_, ?_⟩
    · exact (h.push matches_run_nil).push matches_run_nil
    · rw [hstar]
      exact latestSolid_star _
  · have hleading : Short n (.leadingTree :: cur) :=
      h.push (w := []) (matches_leadingTree_iff.2 (.inl rfl))
    have hlatest : ∀ last, LatestSolid last (.leadingTree :: cur) := by
      intro last _ t ht
      exact .inl (Option.mem_some.1 ht).symm
    rcases hafter with hnil | ⟨cs, hslash⟩
    · exact ⟨_, ps, by rw [hkind, hnil]; rfl, List.suffix_rfl, hleading, hlatest _⟩
    · obtain ⟨qs, rfl, hqs⟩ := exists_spell_eq_of_slash hslash
      exact ⟨_, qs, by rw [hkind, hslash]; rfl, hqs, hleading, hlatest _⟩
  · have hne : cur ≠ [] := by
      rintro rfl
      cases hempty
    rcases hkind with hkind | ⟨hkind, cs, hslash⟩
    · refine ⟨_, ps, by rw [hkind]; rfl, List.suffix_rfl, ?_, ?_⟩
      · exact (h.replaceLatest hne (hsolid hbefore) (.inr rfl)).1
      · rw [hstar]
        exact latestSolid_star _
    · obtain ⟨hshort, hlatest⟩ := h.replaceLatest hne (hsolid hbefore) (.inl rfl)
      obtain ⟨qs, rfl, hqs⟩ := exists_spell_eq_of_slash hslash
      exact ⟨_, qs, by rw [hkind, hslash]; rfl, hqs, hshort, fun _ => hlatest⟩

structure FrameShort (n : ℕ) (f : Frame) : Prop where
  finished : ∀ b ∈ f.finished, HasShort n b
  current : Short n f.current

theorem HasShort.mono {n m : ℕ} {ts : List Token} (h : HasShort n ts) (hle : n ≤ m) :
    HasShort m ts := by
  obtain ⟨w, hw, hn⟩ := h
  exact ⟨w, hw, by omega⟩

theorem FrameShort.push {n : ℕ} {f : Frame} (h : FrameShort n f) {t : Token} {w : List Char}
    (hw : Matches (concat t.parts) (encode w)) : FrameShort (n + w.length) (f.push t) where
  finished := fun b hb => (h.finished b hb).mono (Nat.le_add_right n _)
  current := h.current.push hw

theorem FrameShort.next {n : ℕ} {f : Frame} (h : FrameShort n f) : FrameShort n f.next where
  finished := List.forall_mem_cons.2 ⟨h.current.hasShort, h.finished⟩
  current := trivial

theorem filledBranches_cases (bs : List (List Token)) :
    filledBranches bs = [] ∨
      ∃ b ∈ bs, ∃ rs, filledBranches bs = concat (sequenceParts b) :: rs := by
  induction bs with
  | nil => exact .inl rfl
  | cons b bs ih =>
    rw [filledBranches]
    split
    · rcases ih with h | ⟨b', hb', rs, h⟩
      · exact .inl h
      · exact .inr ⟨b', List.mem_cons_of_mem b hb', rs, h⟩
    · exact .inr ⟨b, List.mem_cons_self, _, rfl⟩

/-- A group matches what its first branch with any content matches. -/
theorem FrameShort.close {n : ℕ} {f : Frame} (h : FrameShort n f) :
    ∃ w, Matches (concat f.close.parts) (encode w) ∧ w.length ≤ n := by
  rw [Frame.close, Token.parts]
  rcases filledBranches_cases f.next.finished.reverse with hnil | ⟨b, hb, rs, hcons⟩
  · rw [hnil]
    exact ⟨[], .empty, Nat.zero_le n⟩
  · obtain ⟨w, hw, hle⟩ := h.next.finished b (List.mem_reverse.1 hb)
    rw [hcons]
    refine ⟨w, ?_, hle⟩
    cases rs with
    | nil => exact hw
    | cons r rs => exact .left hw

def StackShort : ℕ → List Frame → Prop
  | _, [] => True
  | n, f :: fs => ∃ k m, FrameShort k f ∧ StackShort m fs ∧ k + m ≤ n

def takers (ps : List Piece) : ℕ := ps.countP fun p => !p.repeats && !p.isBrace

theorem takers_cons_of_taker {p : Piece} (hrepeats : p.repeats = false)
    (hbrace : p.isBrace = false) (ps : List Piece) : takers (p :: ps) = takers ps + 1 := by
  rw [takers, List.countP_cons_of_pos (by simp [hrepeats, hbrace]), takers]

theorem takers_le_cons (p : Piece) (ps : List Piece) : takers ps ≤ takers (p :: ps) := by
  rw [takers, takers, List.countP_cons]
  omega

theorem takers_le_of_suffix {ps qs : List Piece} (h : qs <:+ ps) : takers qs ≤ takers ps :=
  h.sublist.countP_le

theorem latestSolid_token {p : Piece} (hbrace : p.isBrace = false) (cur : List Token) :
    LatestSolid (some p.last) (p.token :: cur) := by
  intro hlast t ht
  obtain rfl : p.token = t := Option.mem_some.1 ht
  cases p with
  | loose l => cases l <;> simp [Piece.last] at hlast
  | anchor a =>
    cases a with
    | char c | escaped c => exact solid_literal c
    | among => simp [Piece.last] at hlast
  | misread => simp [Piece.last] at hlast
  | opening | closing => cases hbrace

/-- Each step of the reader keeps short texts for all groups that are open. -/
theorem hasShort_of_readTokens {fuel : ℕ} {ps : List Piece} {before : Option Char} {frame : Frame}
    {outer : List Frame} {ts : List Token} {n m : ℕ}
    (h : readTokens fuel before frame outer (spell ps) = .ok ts) (hframe : FrameShort n frame)
    (houter : StackShort m outer) (hsolid : LatestSolid before frame.current) :
    HasShort (n + m + takers ps) ts := by
  induction fuel generalizing ps before frame outer n m with
  | zero => cases h
  | succ fuel ih =>
    cases ps with
    | nil =>
      cases outer with
      | nil =>
        obtain rfl : frame.current.reverse = ts := Except.ok.inj h
        exact hframe.current.hasShort.mono (by omega)
      | cons f fs => cases h
    | cons p ps =>
      have hle := takers_le_cons p ps
      by_cases hrun : p = .loose .run
      · subst hrun
        by_cases hdouble : ∃ qs, ps = .loose .run :: qs
        · obtain ⟨qs, rfl⟩ := hdouble
          have hle' := takers_le_cons (.loose .run) qs
          obtain ⟨cur, rs, happly, hrs, hshort, hlatest⟩ :=
            exists_short_applyDoubleStar hframe.current hsolid (!outer.isEmpty) qs
          rw [readTokens_run_run qs fuel before frame outer happly] at h
          have htakers := takers_le_of_suffix hrs
          exact (ih h ⟨hframe.finished, hshort⟩ houter hlatest).mono (by omega)
        · rw [readTokens_run (fun qs hqs => hdouble ⟨qs, hqs⟩)] at h
          have hpush : FrameShort n (frame.push .run) := hframe.push matches_run_nil
          exact (ih h hpush houter (latestSolid_star _)).mono (by omega)
      · by_cases hbrace : p.isBrace = true
        · cases p with
          | loose | anchor | misread => cases hbrace
          | opening =>
            have hstack : StackShort (n + m) (frame :: outer) :=
              ⟨n, m, hframe, houter, Nat.le_refl _⟩
            have hstart : FrameShort 0 .start := ⟨nofun, trivial⟩
            have hread : readTokens fuel (some '\x7b') .start (frame :: outer) (spell ps) =
                .ok ts := h
            exact (ih hread hstart hstack fun _ => nofun).mono (by omega)
          | closing =>
            cases outer with
            | nil => cases h
            | cons f fs =>
              obtain ⟨k, k', hf, hfs, hk⟩ := houter
              obtain ⟨w, hw, hwn⟩ := hframe.close
              have hlatest : LatestSolid (some '\x7d') (f.push frame.close).current := by
                rintro (h | h | h) <;> cases h
              have hread : readTokens fuel (some '\x7d') (f.push frame.close) fs (spell ps) =
                  .ok ts := h
              exact (ih hread (hf.push hw) hfs hlatest).mono (by omega)
        · have hbrace' : p.isBrace = false := Bool.eq_false_iff.2 hbrace
          have hrepeats : p.repeats = false := by
            cases p with
            | loose l =>
              cases l with
              | run => exact absurd rfl hrun
              | one | except => rfl
            | anchor | misread | opening | closing => rfl
          have htakers := takers_cons_of_taker hrepeats hbrace' ps
          by_cases hcomma : p.text = [','] ∧ outer ≠ []
          · obtain ⟨htext, houter'⟩ := hcomma
            obtain ⟨f, fs, rfl⟩ := List.exists_cons_of_ne_nil houter'
            rw [spell_cons, htext] at h
            have hread : readTokens fuel (some ',') frame.next (f :: fs) (spell ps) = .ok ts := h
            exact (ih hread hframe.next houter fun _ => nofun).mono (by omega)
          · have hcomma' : p.text = [','] → outer = [] := fun htext =>
              Decidable.not_not.1 fun houter' => hcomma ⟨htext, houter'⟩
            rw [spell_cons, readTokens_text hrun hbrace' hcomma'] at h
            have hpush := hframe.push (Piece.matches_sample hrepeats hbrace')
            exact (ih h hpush houter (latestSolid_token hbrace' _)).mono (by
              rw [List.length_singleton]
              omega)

theorem hasShort_of_parse {ps : List Piece} {ts : List Token} (h : parse (spell ps) = .ok ts) :
    HasShort (takers ps) ts := by
  have hstart : FrameShort 0 .start := ⟨nofun, trivial⟩
  exact (hasShort_of_readTokens (m := 0) h hstart trivial fun _ => nofun).mono (by omega)

def singlePieces (ps : List Piece) : ℕ := Spans.singles Piece.repeats ps

theorem singlePieces_append_cons {p : Piece} (hp : p.repeats = false) (qs rs : List Piece) :
    singlePieces (qs ++ p :: rs) = singlePieces qs + (singlePieces rs + 1) := by
  rw [singlePieces, Spans.singles_append, Spans.singles_cons_of_single hp]
  rfl

theorem singlePieces_cons_le (p : Piece) (ps : List Piece) :
    singlePieces (p :: ps) ≤ singlePieces ps + 1 := by
  cases hp : p.repeats with
  | true =>
    rw [singlePieces, Spans.singles_cons_of_repeats hp]
    exact Nat.le_succ _
  | false =>
    rw [singlePieces, Spans.singles_cons_of_single hp]
    exact Nat.le_refl _

theorem takers_le_singlePieces (ps : List Piece) : takers ps ≤ singlePieces ps := by
  refine List.countP_mono_left fun p _ hp => ?_
  exact (Bool.and_eq_true_iff.1 hp).1

theorem takers_lt_singlePieces {ps : List Piece} {p : Piece} (hp : p ∈ ps)
    (hbrace : p.isBrace = true) : takers ps < singlePieces ps := by
  obtain ⟨qs, rs, rfl⟩ := List.append_of_mem hp
  have hrepeats : p.repeats = false := by
    cases p with
    | opening | closing => rfl
    | loose | anchor | misread => cases hbrace
  have hqs := takers_le_singlePieces qs
  have hrs := takers_le_singlePieces rs
  have htakers : takers (qs ++ p :: rs) = takers qs + takers rs := by
    rw [takers, List.countP_append, List.countP_cons_of_neg (by simp [hbrace])]
    rfl
  rw [singlePieces_append_cons hrepeats, htakers]
  omega

theorem singlePieces_le_length (ps : List Piece) : singlePieces ps ≤ (spell ps).length := by
  induction ps with
  | nil => exact Nat.le_refl 0
  | cons p ps ih =>
    have hpos := List.length_pos_iff.2 p.text_ne_nil
    have hle := singlePieces_cons_le p ps
    rw [spell_cons, List.length_append]
    omega

theorem singlePieces_lt_length {ps : List Piece} {l : Listing} {h : l.Misread}
    (hl : .misread l h ∈ ps) : singlePieces ps < (spell ps).length := by
  obtain ⟨qs, rs, rfl⟩ := List.append_of_mem hl
  have hqs := singlePieces_le_length qs
  have hrs := singlePieces_le_length rs
  have hspell : spell (qs ++ .misread l h :: rs) = spell qs ++ (l.spelled ++ spell rs) :=
    List.flatMap_append
  have hspelled : l.spelled.length = l.text.length + 2 := by simp [Listing.spelled]
  rw [singlePieces_append_cons rfl, hspell, List.length_append, List.length_append, hspelled]
  omega

theorem singles_map_term {ps : List Piece} (h : ∀ p ∈ ps, p.IsRead) :
    Spans.singles ServerRule.Term.repeats (ps.map Piece.term) = singlePieces ps := by
  rw [Spans.singles, singlePieces, Spans.singles, List.countP_map]
  refine List.countP_congr fun p hp => ?_
  rw [Function.comp_apply, Piece.repeats_term (h p hp)]

theorem singlePieces_le_of_matches {ps : List Piece} (h : ∀ p ∈ ps, p.IsRead) {cs : List Char}
    (hcs : ServerRule.Matches (ps.map Piece.term) cs) : singlePieces ps ≤ cs.length := by
  rw [← singles_map_term h]
  exact Spans.singles_le_length hcs

theorem matches_regexOf_of_words {ts : List Token} {w : List UInt8} (h : Words ts w) :
    Matches (regexOf ts) w := by
  by_cases hleading : ts = [.leadingTree]
  · rw [hleading]
    exact matches_anything w
  · rw [regexOf_of_ne hleading]
    exact h

/-- The client matches a text in which the braces are missing. -/
theorem exists_matches_of_brace {ps : List Piece} {ts : List Token}
    (hparse : parse (spell ps) = .ok ts) {p : Piece} (hp : p ∈ ps) (hbrace : p.isBrace = true) :
    ∃ cs, cs ≠ spell ps ∧ Matches (regexOf ts) (encode cs) ∧ ¬ Serves ps cs := by
  obtain ⟨cs, hcs, hle⟩ := hasShort_of_parse hparse
  have hlt := takers_lt_singlePieces hp hbrace
  have hlength := singlePieces_le_length ps
  refine ⟨cs, ?_, matches_regexOf_of_words hcs, ?_⟩
  · rintro rfl
    omega
  · rintro ⟨hread, hmatches⟩
    have := singlePieces_le_of_matches hread hmatches
    omega

/-- The client matches a text although the server cannot read the key. -/
theorem exists_matches_of_not_isRead {ps : List Piece} {ts : List Token}
    (hparse : parse (spell ps) = .ok ts) {p : Piece} (hp : p ∈ ps) (hread : ¬ p.IsRead) :
    ∃ cs, cs ≠ spell ps ∧ Matches (regexOf ts) (encode cs) ∧ ¬ Serves ps cs := by
  obtain ⟨cs, hcs, hle⟩ := hasShort_of_parse hparse
  have htakers := takers_le_singlePieces ps
  have hlength : singlePieces ps < (spell ps).length := by
    cases p with
    | misread l h => exact singlePieces_lt_length hp
    | loose | anchor | opening | closing => exact absurd trivial hread
  refine ⟨cs, ?_, matches_regexOf_of_words hcs, fun hserves => hread (hserves.1 p hp)⟩
  rintro rfl
  omega

end TopicClient.Glob
