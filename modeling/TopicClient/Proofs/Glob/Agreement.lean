import TopicClient.Proofs.Glob.Filling
import TopicClient.Proofs.Glob.Misreadings
import TopicClient.Proofs.Registry.Order

/-!
# Where the client delivers by the rule of the server

The client is to deliver what the server queues for a key: the events of the key itself and of the
topics that the server counts as ones of the key, and everything for the key `*`.

A key that the client does not take for a pattern, or cannot read as one, is delivered for itself
alone, which is right when the server has no other topic for it. A pattern of pieces is delivered
right when it has no group and no list that the server reads otherwise or not at all, no double
star of it stands alone between slashes, and all its blocks of wildcards are elastic. In all other
cases there are topics that the server queues and the client drops, or that the client delivers
although the server would not queue them: `delivers_as_expected_iff`.
-/

namespace TopicClient.Glob

open Regex

/-- What the client is to deliver to a handler of the key. -/
def Expected (key topic : String) : Prop :=
  key = Registry.wildcard ∨ topic = key ∨ ServerRule.Accepts key topic

def NoPattern (key : String) : Prop := ∀ pattern, compile key ≠ .glob pattern

/-- The client and the server match the same topics against the pieces of a pattern: they read all
of them alike, no double star is a tree, and the wildcards take bytes as they take characters. -/
structure AlikeInPieces (ps : List Piece) : Prop where
  shared : ∀ p ∈ ps, p.isShared = true
  no_tree : hasTree true ps = false
  elastic : ∀ b ∈ blocks ps, Elastic b

/-- The client delivers for the key what the server would. -/
def Alike (key : String) : Prop :=
  NoPattern key ∧ ServerRule.OwnOnly key ∨
    isGlob key = true ∧ ∃ ps, key = keyOf ps ∧ AlikeInPieces ps

variable {ps : List Piece}

theorem eq_keyOf_iff {topic : String} : topic = keyOf ps ↔ topic.toList = spell ps := by
  rw [keyOf, ← String.toList_inj, String.toList_ofList]

theorem mem_of_mem_blocks {b : List Loose} (hb : b ∈ blocks ps) {l : Loose} (hl : l ∈ b) :
    .loose l ∈ ps := by
  induction ps generalizing b with
  | nil =>
    obtain rfl := List.mem_singleton.1 hb
    cases hl
  | cons p ps ih =>
    cases p with
    | misread | opening | closing => exact List.mem_cons_of_mem _ (ih hb hl)
    | loose l' =>
      rcases List.mem_cons.1 hb with rfl | hb
      · rcases List.mem_cons.1 hl with rfl | hl
        · exact List.mem_cons_self
        · exact List.mem_cons_of_mem _ (ih List.mem_cons_self hl)
      · exact List.mem_cons_of_mem _ (ih (List.mem_cons_of_mem _ hb) hl)
    | anchor a =>
      rcases List.mem_cons.1 hb with rfl | hb
      · cases hl
      · exact List.mem_cons_of_mem _ (ih hb hl)

theorem divides_congr {takes takes' : List Loose → List Char → Prop} {b : List Loose}
    {r : List (Anchor × List Loose)} {cs : List Char}
    (h : ∀ b' ∈ b :: r.map Prod.snd, ∀ cs, takes b' cs ↔ takes' b' cs) :
    Divides takes b r cs ↔ Divides takes' b r cs := by
  induction r generalizing b cs with
  | nil => exact h b List.mem_cons_self cs
  | cons e r ih =>
    obtain ⟨a, b'⟩ := e
    obtain ⟨hb, hr⟩ := List.forall_mem_cons.1 h
    simp only [Divides, hb, ih hr]

/-- With elastic blocks, characters and bytes come to the same. -/
theorem AlikeInPieces.words_iff_matches (h : AlikeInPieces ps) (cs : List Char) :
    Words (ps.map Piece.token) (encode cs) ↔ ServerRule.Matches (ps.map Piece.term) cs := by
  rw [words_iff_divides h.shared, matches_iff_divides h.shared]
  exact divides_congr fun b hb => (h.elastic b hb).spansBytes_iff

theorem regexOf_eq_of_no_tree {ts : List Token} (hts : ReadsAs [] true ps ts)
    (htree : hasTree true ps = false) (w : List UInt8) :
    Matches (regexOf ts.reverse) w ↔ Words (ps.map Piece.token) w := by
  have heq : ts.reverse = ps.map Piece.token := hts.reverse_eq htree
  rw [heq, regexOf_of_ne ?_, Words]
  intro hleading
  have hmem : Token.leadingTree ∈ ps.map Piece.token := by
    rw [hleading]
    exact List.mem_singleton_self _
  obtain ⟨p, _, hp⟩ := List.mem_map.1 hmem
  exact p.token_ne_leadingTree hp

theorem exists_parse_of_compile {key : String} {pattern : Glob}
    (h : compile key = .glob pattern) :
    isGlob key = true ∧ ∃ ts, parse key.toList = .ok ts ∧ pattern = ⟨ts, regexOf ts⟩ := by
  unfold compile at h
  split at h
  · rename_i hglob
    refine ⟨hglob, ?_⟩
    split at h
    · cases h
    · rename_i ts hparse
      split_ifs at h
      exact ⟨ts, hparse, (Compiled.glob.inj h).symm⟩
  · cases h

section

variable {ts : List Token} (hparse : parse (spell ps) = .ok ts)
  (hagree : ∀ cs, cs ≠ spell ps → (Matches (regexOf ts) (encode cs) ↔ Serves ps cs))

include hparse hagree

theorem isBrace_eq_false_of_agree : ∀ p ∈ ps, p.isBrace = false := by
  intro p hp
  refine Bool.eq_false_iff.2 fun hbrace => ?_
  obtain ⟨cs, hne, hclient, hserver⟩ := exists_matches_of_brace hparse hp hbrace
  exact hserver ((hagree cs hne).1 hclient)

theorem isRead_of_agree : ∀ p ∈ ps, p.IsRead := by
  intro p hp
  by_contra hread
  obtain ⟨cs, hne, hclient, hserver⟩ := exists_matches_of_not_isRead hparse hp hread
  exact hserver ((hagree cs hne).1 hclient)

end

/-- A tree takes more slashes than the server allows. -/
theorem hasTree_eq_false_of_agree {ts : List Token} (hparse : parse (spell ps) = .ok ts.reverse)
    (hts : ReadsAs [] true ps ts) (hagree : ∀ cs, cs ≠ spell ps →
      (Matches (regexOf ts.reverse) (encode cs) ↔ Serves ps cs)) : hasTree true ps = false := by
  refine Bool.eq_false_iff.2 fun htree => ?_
  obtain ⟨cs, hcs, _⟩ := hasShort_of_parse hparse
  obtain ⟨ds, hds, hcount⟩ := exists_stretched (hts.grown (.inr htree))
    (matches_regexOf_of_words hcs) (ps.length + (spell ps).length + 1)
  have hlength := List.countP_le_length (p := (· = '/')) (l := ds)
  have hserver := (hagree ds (by rintro rfl; omega)).1 hds
  have := countP_slash_le hserver.2
  rw [List.length_map] at this
  omega

theorem alikeInPieces_of_agree {ts : List Token} (hparse : parse (spell ps) = .ok ts)
    (hagree : ∀ cs, cs ≠ spell ps → (Matches (regexOf ts) (encode cs) ↔ Serves ps cs)) :
    AlikeInPieces ps := by
  have hbrace := isBrace_eq_false_of_agree hparse hagree
  have hread := isRead_of_agree hparse hagree
  obtain ⟨ts, hparse', hts⟩ := exists_parse_spell hbrace
  obtain rfl := Except.ok.inj (hparse.symm.trans hparse')
  have htree := hasTree_eq_false_of_agree hparse hts hagree
  have hwords : ∀ cs, cs ≠ spell ps → (Words (ps.map Piece.token) (encode cs) ↔
      ServerRule.Matches (ps.map Piece.term) cs) := by
    intro cs hne
    rw [← regexOf_eq_of_no_tree hts htree, hagree cs hne]
    exact and_iff_right hread
  have hshared : ∀ p ∈ ps, p.isShared = true := by
    intro p hp
    cases p with
    | loose | anchor => rfl
    | misread l hl =>
      obtain ⟨cs, hne, hdiffer⟩ := exists_differ_of_misread hbrace hread hp
      exact absurd (hwords cs hne) hdiffer
    | opening | closing => cases hbrace _ hp
  refine ⟨hshared, htree, fun b hb => ?_⟩
  by_contra helastic
  obtain ⟨f, hf, hdiffer⟩ := exists_topicOf_of_not_elastic hshared hb helastic
  cases b with
  | nil => exact helastic (.inl rfl)
  | cons l b =>
    have hne := topicOf_ne_spell hf (mem_of_mem_blocks hb List.mem_cons_self)
    rw [hwords _ hne] at hdiffer
    exact iff_not_self hdiffer

/-- Pieces that are alike to both are matched alike. -/
theorem AlikeInPieces.agree (h : AlikeInPieces ps) {ts : List Token}
    (hparse : parse (spell ps) = .ok ts) (cs : List Char) :
    Matches (regexOf ts) (encode cs) ↔ Serves ps cs := by
  have hbrace : ∀ p ∈ ps, p.isBrace = false := fun p hp => Piece.isBrace_of_isShared (h.shared p hp)
  obtain ⟨ts, hparse', hts⟩ := exists_parse_spell hbrace
  obtain rfl := Except.ok.inj (hparse.symm.trans hparse')
  have hread : ∀ p ∈ ps, p.IsRead := fun p hp => Piece.isRead_of_isShared (h.shared p hp)
  rw [regexOf_eq_of_no_tree hts h.no_tree, h.words_iff_matches, Serves, and_iff_right hread]

theorem eq_run_of_keyOf_eq (h : keyOf ps = Registry.wildcard) : ps = [.loose .run] := by
  have hspell : ['*'] = spell ps := eq_keyOf_iff.1 h.symm
  cases ps with
  | nil => cases hspell
  | cons p ps =>
    cases p with
    | loose l =>
      cases l with
      | run =>
        cases ps with
        | nil => rfl
        | cons q ps =>
          have htext : [] = q.text ++ spell ps := (List.cons_eq_cons.1 hspell).2
          exact absurd (List.append_eq_nil_iff.1 htext.symm).1 q.text_ne_nil
      | one | except => cases hspell
    | anchor a =>
      cases a with
      | char c hc =>
        obtain ⟨rfl, _⟩ := List.cons_eq_cons.1 hspell
        exact absurd List.mem_cons_self hc
      | escaped | among => cases hspell
    | misread | opening | closing => cases hspell

/-- A key that is a pattern is delivered to the topics that its expression matches. -/
theorem receives_iff_of_compile {key topic : String} {pattern : Glob}
    (hcompile : compile key = .glob pattern) (hstar : key ≠ Registry.wildcard) :
    Receives key topic ↔ Matches pattern.regex (encode topic.toList) := by
  rw [Receives, hcompile, toList_toUTF8]
  constructor
  · rintro (h | ⟨pattern', hpattern, h⟩)
    · exact absurd h hstar
    · obtain rfl := Compiled.glob.inj hpattern
      exact h
  · intro h
    exact .inr ⟨pattern, rfl, h⟩

theorem expected_keyOf_iff (hstar : keyOf ps ≠ Registry.wildcard) {topic : String} :
    Expected (keyOf ps) topic ↔ topic.toList = spell ps ∨ Serves ps topic.toList := by
  rw [Expected, accepts_keyOf_iff, eq_keyOf_iff, or_iff_right hstar]

theorem agree_iff_of_compile {pattern : Glob} (hcompile : compile (keyOf ps) = .glob pattern)
    (hstar : keyOf ps ≠ Registry.wildcard) :
    (∀ topic, keyOf ps = topic ∨ Receives (keyOf ps) topic ↔ Expected (keyOf ps) topic) ↔
      AlikeInPieces ps := by
  obtain ⟨_, ts, hparse, rfl⟩ := exists_parse_of_compile hcompile
  rw [keyOf, String.toList_ofList] at hparse
  simp only [expected_keyOf_iff hstar, receives_iff_of_compile hcompile hstar,
    eq_comm (a := keyOf ps), eq_keyOf_iff]
  constructor
  · intro h
    refine alikeInPieces_of_agree hparse fun cs hcs => ?_
    have h := h (String.ofList cs)
    rw [String.toList_ofList, or_iff_right hcs, or_iff_right hcs] at h
    exact h
  · intro h topic
    rw [h.agree hparse]

theorem agree_keyOf_iff {pattern : Glob} (hcompile : compile (keyOf ps) = .glob pattern) :
    (∀ topic, keyOf ps = topic ∨ Receives (keyOf ps) topic ↔ Expected (keyOf ps) topic) ↔
      AlikeInPieces ps := by
  by_cases hstar : keyOf ps = Registry.wildcard
  · have halike : AlikeInPieces ps := by
      rw [eq_run_of_keyOf_eq hstar]
      exact ⟨by decide, by decide, by decide⟩
    exact ⟨fun _ => halike, fun _ topic => ⟨fun _ => .inl hstar, fun _ => .inr (.inl hstar)⟩⟩
  · exact agree_iff_of_compile hcompile hstar

theorem agree_iff_of_noPattern {key : String} (hkey : NoPattern key) :
    (∀ topic, key = topic ∨ Receives key topic ↔ Expected key topic) ↔
      ServerRule.OwnOnly key := by
  have hstar : key ≠ Registry.wildcard := by
    rintro rfl
    exact hkey _ rfl
  have hreceives : ∀ topic, ¬ Receives key topic := by
    rintro topic (h | ⟨pattern, h, _⟩)
    · exact hstar h
    · exact hkey pattern h
  rw [ServerRule.ownOnly_iff]
  refine forall_congr' fun topic => ?_
  rw [Expected, or_iff_left (hreceives topic), or_iff_right hstar, eq_comm]
  constructor
  · intro h haccepts
    exact h.2 (.inr haccepts)
  · intro h
    exact ⟨.inl, fun h' => h'.elim id h⟩

theorem agree_iff_alike {key : String} (hkey : NoPattern key ∨ ∃ ps, key = keyOf ps) :
    (∀ topic, key = topic ∨ Receives key topic ↔ Expected key topic) ↔ Alike key := by
  by_cases hno : NoPattern key
  · rw [agree_iff_of_noPattern hno, Alike]
    constructor
    · intro h
      exact .inl ⟨hno, h⟩
    · rintro (⟨_, h⟩ | ⟨hglob, ps, rfl, h⟩)
      · exact h
      · obtain ⟨pattern, hcompile⟩ :=
          exists_compile_keyOf (fun p hp => Piece.isBrace_of_isShared (h.shared p hp)) hglob
        exact absurd hcompile (hno pattern)
  · obtain ⟨ps, rfl⟩ := hkey.resolve_left hno
    simp only [NoPattern, not_forall, not_not] at hno
    obtain ⟨pattern, hcompile⟩ := hno
    constructor
    · intro h
      exact .inr ⟨(exists_parse_of_compile hcompile).1, ps, rfl, (agree_keyOf_iff hcompile).1 h⟩
    · rintro (⟨hno, _⟩ | ⟨_, qs, hqs, h⟩)
      · exact absurd hcompile (hno pattern)
      · rw [hqs] at hcompile ⊢
        exact (agree_keyOf_iff hcompile).2 h

/-- A registry delivers to a handler, of all topics, exactly those that the server queues for the
handler's key, if and only if the key is alike to both. -/
theorem delivers_as_expected_iff {H : Type} {l : Ledger H} {r : Registry H}
    (hb : Registry.Built l r) {key : String} {h : H} (hmem : (key, h) ∈ l)
    (honly : ∀ e ∈ l, e.2 = h → e.1 = key)
    (hkey : NoPattern key ∨ ∃ ps, key = keyOf ps) :
    (∀ topic, h ∈ r.order topic ↔ Expected key topic) ↔ Alike key := by
  rw [← agree_iff_alike hkey]
  refine forall_congr' fun topic => ?_
  rw [hb.mem_order_iff hmem honly]

def allButAToC : Listing where
  text := ['^', 'a', '-', 'c']
  ranges := [('a', 'c')]
  term := .set true [('a', 'c')]
  sample := 'd'
  reads := rfl
  ascii := by decide
  sample_ascii := by decide
  has_sample := by decide

theorem readAlike_allButAToC : allButAToC.ReadAlike where
  serves := .unlisted (.range (.plain (by decide)) (.plain (by decide)) .close)
    (List.cons_ne_nil _ _)
  takes_iff := by
    intro c
    change ¬ Has [('a', 'c')] c.toNat ↔ (Has [('a', 'c')] c.toNat ↔ true = false)
    simp

theorem delivers_as_expected_list_run :
    ∃ r : Registry ℕ, Registry.Built [("b[^a-c]*", 0)] r ∧
      ∀ topic, 0 ∈ r.order topic ↔ Expected "b[^a-c]*" topic := by
  obtain ⟨r, _, hb⟩ := Registry.Built.empty.exists_registered "b[^a-c]*" (.inr nofun) 0
  let ps : List Piece := [.anchor (.char 'b' (by decide)),
    .loose (.except allButAToC rfl readAlike_allButAToC), .loose .run]
  have hkey : "b[^a-c]*" = keyOf ps := by decide +kernel
  have hglob : isGlob "b[^a-c]*" = true := by decide +kernel
  have halike : AlikeInPieces ps := ⟨by decide, by decide, by decide⟩
  refine ⟨r, hb, ?_⟩
  exact (delivers_as_expected_iff hb List.mem_cons_self (by simp) (.inr ⟨ps, hkey⟩)).2
    (.inr ⟨hglob, ps, hkey, halike⟩)

/-- The server queues the topic of a single character for the key `?`, and the client drops it when
the character has two bytes. -/
theorem not_delivered_question_mark :
    ∃ r : Registry ℕ, Registry.Built [("?", 0)] r ∧ Expected "?" "é" ∧ 0 ∉ r.order "é" := by
  obtain ⟨r, _, hb⟩ := Registry.Built.empty.exists_registered "?" (.inr nofun) 0
  refine ⟨r, hb, .inr (.inr ⟨[.one], .one .done, ?_⟩), ?_⟩
  · exact .take rfl (by decide : 'é' ≠ '/') .done
  · rw [hb.order_eq]
    decide +kernel

end TopicClient.Glob
