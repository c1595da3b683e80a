import TopicClient.Proofs.Glob.Reception

/-!
# Keys and topics as hierarchies

A key without brackets, braces, backslashes and double stars consists of characters and wildcards,
and no wildcard takes a slash. So the slashes of a topic stand where those of the key do, and what
stands between them matches segment by segment: `words_iff_segments`. The registry delivers by that
rule: `delivers_by_segment`.
-/

namespace TopicClient.Glob

open Regex

def pieceOf (c : Char) : Piece :=
  if c = '*' then .loose .run
  else if c = '?' then .loose .one
  else if h : c ∉ ['*', '?', '[', '\\', '\x7b', '\x7d'] then .anchor (.char c h)
  else .anchor (.escaped c)

def patternTokens (cs : List Char) : List Token := (cs.map pieceOf).map Piece.token

structure IsPlain (cs : List Char) : Prop where
  not_mem : ∀ c ∈ cs, c ∉ ['[', ']', '\x7b', '\x7d', '\\']
  no_double : ¬ ['*', '*'] <:+: cs

/-- A segment of a key, read as a pattern of its own, matches a segment of a topic. A star is not
the wildcard of a whole key here. -/
def segmentMatches (segment text : List Char) : Bool :=
  match compile (String.ofList segment) with
  | .glob pattern => pattern.accepts (String.ofList text)
  | _ => text = segment

/-! ## Splitting at slashes -/

/-- A text has no slash, or it is a text without slashes, a slash and a rest. -/
theorem segments_induction {motive : List Char → Prop} (single : ∀ x, '/' ∉ x → motive x)
    (step : ∀ x y, '/' ∉ x → motive y → motive (x ++ '/' :: y)) (cs : List Char) :
    motive cs := by
  induction hn : cs.length using Nat.strongRecOn generalizing cs with
  | ind n ih =>
    by_cases hmem : '/' ∈ cs
    · obtain ⟨x, y, rfl, hx⟩ := List.eq_append_cons_of_mem hmem
      refine step x y hx (ih y.length ?_ y rfl)
      rw [List.length_append, List.length_cons] at hn
      omega
    · exact single cs hmem

theorem splitOn_append_slash {x : List Char} (hx : '/' ∉ x) (y : List Char) :
    (x ++ '/' :: y).splitOn '/' = x :: y.splitOn '/' :=
  List.splitOn_append_cons_self_of_not_mem hx y

theorem length_splitOn (cs : List Char) : (cs.splitOn '/').length = cs.count '/' + 1 := by
  induction cs using segments_induction with
  | single x hx => rw [List.splitOn_eq_singleton hx, List.count_eq_zero_of_not_mem hx]; rfl
  | step x y hx ih =>
    have hcount : (x ++ '/' :: y).count '/' = y.count '/' + 1 := by
      simp [List.count_eq_zero_of_not_mem hx]
    rw [splitOn_append_slash hx, List.length_cons, ih, hcount]

theorem isInfix_of_mem_splitOn {cs s : List Char} (h : s ∈ cs.splitOn '/') : s <:+: cs := by
  induction cs using segments_induction with
  | single x hx =>
    rw [List.splitOn_eq_singleton hx] at h
    exact List.mem_singleton.1 h ▸ List.infix_rfl
  | step x y hx ih =>
    rw [splitOn_append_slash hx] at h
    rcases List.mem_cons.1 h with rfl | h
    · exact (List.prefix_append s _).isInfix
    · have hy : y <:+ x ++ '/' :: y := (List.suffix_cons '/' y).trans (List.suffix_append x _)
      exact (ih h).trans hy.isInfix

theorem IsPlain.of_mem_splitOn {cs s : List Char} (h : IsPlain cs) (hs : s ∈ cs.splitOn '/') :
    IsPlain s := by
  have hwithin := isInfix_of_mem_splitOn hs
  exact ⟨fun c hc => h.not_mem c (hwithin.subset hc), fun hd => h.no_double (hd.trans hwithin)⟩

/-! ## What a key of characters and wildcards matches -/

section

variable {c : Char} {cs : List Char} {u w : List UInt8}

theorem token_pieceOf (c : Char) :
    (pieceOf c).token = if c = '*' then .run else if c = '?' then .one else .literal c := by
  unfold pieceOf
  split_ifs <;> rfl

theorem pieceOf_eq_run_iff : pieceOf c = .loose .run ↔ c = '*' := by
  unfold pieceOf
  split_ifs with hstar <;> simp [hstar]

theorem matches_pieceOf_self (c : Char) : Matches (concat (pieceOf c).token.parts) (bytes c) := by
  rw [token_pieceOf]
  split_ifs with hstar hone
  · subst hstar
    exact matches_run_iff.2 (by simp [bytes_of_ascii])
  · subst hone
    exact matches_one_iff.2 ⟨63, by decide, rfl⟩
  · exact matches_literal_iff.2 rfl

theorem ne_slash_of_matches (h : Matches (concat (pieceOf c).token.parts) u) (hc : c ≠ '/') :
    ∀ b ∈ u, b.toNat ≠ 47 := by
  rw [token_pieceOf] at h
  split_ifs at h
  · exact matches_run_iff.1 h
  · obtain ⟨b, hb, rfl⟩ := matches_one_iff.1 h
    exact List.forall_mem_singleton.2 hb
  · rw [matches_literal_iff.1 h, forall_mem_bytes_ne_slash]
    exact fun hslash => hc (toNat_eq_slash_iff.1 hslash)

theorem words_cons (c : Char) (cs : List Char) (w : List UInt8) :
    Words (patternTokens (c :: cs)) w ↔
      ∃ u v, w = u ++ v ∧ Matches (concat (pieceOf c).token.parts) u ∧
        Words (patternTokens cs) v :=
  words_cons_iff

theorem words_self (cs : List Char) : Words (patternTokens cs) (encode cs) := by
  induction cs with
  | nil => exact words_nil_iff.2 rfl
  | cons c cs ih => exact (words_cons c cs _).2 ⟨_, _, encode_cons c cs, matches_pieceOf_self c, ih⟩

theorem not_mem_of_words {ds : List Char} (h : Words (patternTokens cs) (encode ds))
    (hcs : '/' ∉ cs) : '/' ∉ ds := by
  have hbytes : ∀ {cs : List Char} {w : List UInt8}, '/' ∉ cs → Words (patternTokens cs) w →
      ∀ b ∈ w, b.toNat ≠ 47 := by
    intro cs w hcs hw
    induction cs generalizing w with
    | nil =>
      rw [words_nil_iff.1 hw]
      exact nofun
    | cons c cs ih =>
      obtain ⟨hc, hcs⟩ := not_or.1 (fun hmem => hcs (List.mem_cons.2 hmem))
      obtain ⟨u, v, rfl, hu, hv⟩ := (words_cons c cs _).1 hw
      exact List.forall_mem_append.2 ⟨ne_slash_of_matches hu (Ne.symm hc), ih hcs hv⟩
  exact forall_mem_encode_ne_slash_iff.1 (hbytes hcs h)

theorem words_iff_eq (h : ∀ c ∈ cs, c ≠ '*' ∧ c ≠ '?') :
    Words (patternTokens cs) w ↔ w = encode cs := by
  induction cs generalizing w with
  | nil => exact words_nil_iff
  | cons c cs ih =>
    obtain ⟨⟨hstar, hone⟩, hcs⟩ := List.forall_mem_cons.1 h
    have htoken : (pieceOf c).token = .literal c := by
      rw [token_pieceOf, if_neg hstar, if_neg hone]
    simp only [words_cons, htoken, matches_literal_iff, ih hcs]
    constructor
    · rintro ⟨_, _, rfl, rfl, rfl⟩
      rfl
    · intro hw
      exact ⟨_, _, hw, rfl, rfl⟩

theorem words_append_slash_iff {x y : List Char} :
    Words (patternTokens (x ++ '/' :: y)) w ↔
      ∃ u v, w = u ++ (bytes '/' ++ v) ∧ Words (patternTokens x) u ∧
        Words (patternTokens y) v := by
  have hslash : (pieceOf '/').token = .literal '/' := rfl
  rw [patternTokens, List.map_append, List.map_append, words_append_iff]
  constructor
  · rintro ⟨u, _, rfl, hu, hsv⟩
    obtain ⟨s, v, rfl, hs, hv⟩ := (words_cons _ _ _).1 hsv
    rw [hslash, matches_literal_iff] at hs
    subst hs
    exact ⟨u, v, rfl, hu, hv⟩
  · rintro ⟨u, v, rfl, hu, hv⟩
    exact ⟨u, _, rfl, hu, (words_cons _ _ _).2 ⟨_, v, rfl, matches_pieceOf_self '/', hv⟩⟩

/-- A pattern matches a topic if its segments match those of the topic one by one. -/
theorem words_iff_segments (cs ds : List Char) :
    Words (patternTokens cs) (encode ds) ↔
      List.Forall₂ (fun s t => Words (patternTokens s) (encode t)) (cs.splitOn '/')
        (ds.splitOn '/') := by
  induction cs using segments_induction generalizing ds with
  | single x hx =>
    rw [List.splitOn_eq_singleton hx]
    constructor
    · intro h
      rw [List.splitOn_eq_singleton (not_mem_of_words h hx)]
      exact .cons h .nil
    · intro h
      have hlength := h.length_eq
      rw [length_splitOn, List.length_singleton] at hlength
      have hds : '/' ∉ ds := List.count_eq_zero.1 (by omega)
      rw [List.splitOn_eq_singleton hds] at h
      exact (List.forall₂_cons.1 h).1
  | step x y hx ih =>
    rw [splitOn_append_slash hx, words_append_slash_iff]
    constructor
    · rintro ⟨u, v, hds, hu, hv⟩
      obtain ⟨d, e, rfl, rfl, rfl⟩ := exists_split_of_bytes hds
      rw [splitOn_append_slash (not_mem_of_words hu hx)]
      exact .cons hu ((ih e).1 hv)
    · intro h
      have hlength := h.length_eq
      rw [List.length_cons, length_splitOn, length_splitOn] at hlength
      have hds : '/' ∈ ds := List.count_pos_iff.1 (by omega)
      obtain ⟨d, e, rfl, hd⟩ := List.eq_append_cons_of_mem hds
      rw [splitOn_append_slash hd] at h
      obtain ⟨hu, hv⟩ := List.forall₂_cons.1 h
      exact ⟨encode d, encode e, by rw [encode_append, encode_cons], hu, (ih e).2 hv⟩

end

/-! ## Delivery -/

namespace IsPlain

variable {cs : List Char}

theorem spell_eq (h : IsPlain cs) : spell (cs.map pieceOf) = cs := by
  have hmem := h.not_mem
  clear h
  induction cs with
  | nil => rfl
  | cons c cs ih =>
    obtain ⟨hc, hcs⟩ := List.forall_mem_cons.1 hmem
    rw [List.map_cons, spell_cons, ih hcs]
    unfold pieceOf
    split_ifs with hstar hone hspecial
    · rw [hstar]
      rfl
    · rw [hone]
      rfl
    · refine absurd hspecial ?_
      simp only [List.mem_cons, List.not_mem_nil, or_false, not_or] at hc ⊢
      exact ⟨hstar, hone, hc.1, hc.2.2.2.2, hc.2.2.1, hc.2.2.2.1⟩
    · rfl

theorem isChain (h : IsPlain cs) : (cs.map pieceOf).IsChain Apart := by
  rw [List.isChain_map, List.isChain_iff_forall_rel_of_append_cons_cons]
  rintro a b x y rfl ha hb
  rw [pieceOf_eq_run_iff] at ha hb
  subst ha hb
  exact h.no_double ⟨x, y, by simp⟩

theorem isBrace_eq_false : ∀ p ∈ cs.map pieceOf, p.isBrace = false := by
  intro p hp
  obtain ⟨c, _, rfl⟩ := List.mem_map.1 hp
  unfold pieceOf
  split_ifs <;> rfl

/-- The key is a pattern and matches what its characters do, or it has no wildcard. -/
theorem compile_eq (h : IsPlain cs) :
    (∃ pattern, compile (String.ofList cs) = .glob pattern ∧
      ∀ w, Matches pattern.regex w ↔ Words (patternTokens cs) w) ∨
    compile (String.ofList cs) = .literal ∧ ∀ w, Words (patternTokens cs) w ↔ w = encode cs := by
  have hkey : keyOf (cs.map pieceOf) = String.ofList cs := by rw [keyOf, h.spell_eq]
  by_cases hglob : isGlob (String.ofList cs) = true
  · rw [← hkey] at hglob ⊢
    exact .inl (exists_matches_keyOf isBrace_eq_false h.isChain hglob)
  · refine .inr ⟨if_neg hglob, fun w => words_iff_eq fun c hc => ?_⟩
    rw [isGlob, String.toList_ofList, List.any_eq_true] at hglob
    constructor
    · rintro rfl
      exact hglob ⟨'*', hc, rfl⟩
    · rintro rfl
      exact hglob ⟨'?', hc, rfl⟩

theorem compile_ne_tooDeep {key : String} (h : IsPlain key.toList) : compile key ≠ .tooDeep := by
  have hcompile := h.compile_eq
  rw [String.ofList_toList] at hcompile
  rcases hcompile with ⟨pattern, hcompile, _⟩ | ⟨hcompile, _⟩
  · rw [hcompile]
    exact nofun
  · rw [hcompile]
    exact nofun

theorem segmentMatches_iff (h : IsPlain cs) (ds : List Char) :
    segmentMatches cs ds = true ↔ Words (patternTokens cs) (encode ds) := by
  rcases h.compile_eq with ⟨pattern, hcompile, hpattern⟩ | ⟨hcompile, hwords⟩
  · rw [segmentMatches, hcompile, ← hpattern]
    change pattern.accepts (String.ofList ds) = true ↔ _
    rw [accepts, accepts_iff_matches, toList_toUTF8, String.toList_ofList]
  · rw [segmentMatches, hcompile, hwords]
    change decide (ds = cs) = true ↔ _
    rw [decide_eq_true_eq]
    exact ⟨fun heq => heq ▸ rfl, encode_injective⟩

theorem receives_iff {key : String} (h : IsPlain key.toList) (hstar : key ≠ Registry.wildcard)
    (topic : String) :
    key = topic ∨ Receives key topic ↔ Words (patternTokens key.toList) (encode topic.toList) := by
  have hself : key = topic → Words (patternTokens key.toList) (encode topic.toList) := by
    rintro rfl
    exact words_self _
  have hcompile := h.compile_eq
  rw [String.ofList_toList] at hcompile
  rcases hcompile with ⟨pattern, hcompile, hpattern⟩ | ⟨hcompile, hwords⟩
  · rw [receives_iff_of_compile hcompile hstar, hpattern]
    exact or_iff_right_of_imp hself
  · have hnot : ¬ Receives key topic := by
      rintro (hkey | ⟨pattern, hpattern, _⟩)
      · exact hstar hkey
      · rw [hcompile] at hpattern
        cases hpattern
    rw [or_iff_left hnot, hwords]
    constructor
    · rintro rfl
      rfl
    · intro heq
      exact (String.toList_inj.1 (encode_injective heq)).symm

theorem receives_iff_segments {key : String} (h : IsPlain key.toList)
    (hstar : key ≠ Registry.wildcard) (topic : String) :
    key = topic ∨ Receives key topic ↔
      List.Forall₂ (fun s t => segmentMatches s t = true) (key.toList.splitOn '/')
        (topic.toList.splitOn '/') := by
  rw [h.receives_iff hstar, words_iff_segments]
  have hsegments : ∀ s ∈ key.toList.splitOn '/', ∀ t,
      (segmentMatches s t = true ↔ Words (patternTokens s) (encode t)) :=
    fun s hs t => (h.of_mem_splitOn hs).segmentMatches_iff t
  generalize key.toList.splitOn '/' = segments at hsegments
  generalize topic.toList.splitOn '/' = texts
  induction segments generalizing texts with
  | nil => simp only [List.forall₂_nil_left_iff]
  | cons s segments ih =>
    obtain ⟨hs, hsegments⟩ := List.forall_mem_cons.1 hsegments
    simp only [List.forall₂_cons_left_iff, hs, ih hsegments]

end IsPlain

theorem segmentMatches_star_iff (text : List Char) :
    segmentMatches ['*'] text = true ↔ '/' ∉ text := by
  have hstar : IsPlain ['*'] := ⟨by simp, by decide⟩
  rw [hstar.segmentMatches_iff]
  change Matches (concat Token.run.parts) (encode text) ↔ _
  rw [matches_run_iff, forall_mem_encode_ne_slash_iff]

/-- A key without lists, groups, escapes and double stars receives a topic when both have the same
number of segments and each segment of the key, as a pattern of its own, matches that of the topic.
So it receives no topic with more or fewer slashes. -/
theorem delivers_by_segment {H : Type} {l : Ledger H} {r : Registry H}
    (hb : Registry.Built l r) {key : String} {h : H} (hmem : (key, h) ∈ l)
    (honly : ∀ e ∈ l, e.2 = h → e.1 = key) (hstar : key ≠ Registry.wildcard)
    (hplain : ∀ c ∈ key.toList, c ∉ ['[', ']', '\x7b', '\x7d', '\\'])
    (hdouble : ¬ ['*', '*'] <:+: key.toList) (topic : String) :
    (h ∈ r.order topic ↔
      List.Forall₂ (fun s t => segmentMatches s t = true) (key.toList.splitOn '/')
        (topic.toList.splitOn '/')) ∧
    (h ∈ r.order topic → topic.toList.count '/' = key.toList.count '/') ∧
    (∀ text, segmentMatches ['*'] text = true ↔ '/' ∉ text) := by
  have hkey : IsPlain key.toList := ⟨hplain, hdouble⟩
  have hsegments := (hb.mem_order_iff hmem honly topic).trans
    (hkey.receives_iff_segments hstar topic)
  refine ⟨hsegments, fun horder => ?_, segmentMatches_star_iff⟩
  have hlength := (hsegments.1 horder).length_eq
  rw [length_splitOn, length_splitOn] at hlength
  omega

/-- A segment may hold characters outside ASCII, and no wildcard takes a slash. -/
theorem delivers_by_segment_sensors :
    ∃ r : Registry ℕ, Registry.Built [("sensors/*/t?", 0)] r ∧
      0 ∈ r.order "sensors/küche/t1" ∧ 0 ∉ r.order "sensors/a/b/t1" ∧
      0 ∉ r.order "sensors/küche/t12" := by
  have hplain : IsPlain "sensors/*/t?".toList := ⟨by simp, by decide +kernel⟩
  obtain ⟨r, _, hb⟩ := Registry.Built.empty.exists_registered "sensors/*/t?"
    (.inr hplain.compile_ne_tooDeep) 0
  have hdelivers := delivers_by_segment hb List.mem_cons_self (by simp) (by decide)
    hplain.not_mem hplain.no_double
  refine ⟨r, hb, (hdelivers _).1.2 ?_, fun hmem => ?_, fun hmem => ?_⟩
  · rw [← List.all₂_eq_true]
    decide +kernel
  · exact absurd ((hdelivers _).2.1 hmem) (by decide +kernel)
  · have hmatches := (List.all₂_eq_true _ _).2 ((hdelivers _).1.1 hmem)
    revert hmatches
    decide +kernel

end TopicClient.Glob
