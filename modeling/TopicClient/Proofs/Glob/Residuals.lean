import TopicClient.Glob.Regex

/-!
# Residuals decide the language of an expression

`Regex.accepts` follows residual expressions through the bytes of its input. A residual of `r` by
`b` matches exactly what may follow `b` in a word of `r`, so the run accepts the words of the
language and no others: `accepts_iff_matches`.
-/

namespace TopicClient.Regex

theorem matches_empty_iff {w : List UInt8} : Matches .empty w ↔ w = [] := by
  constructor
  · intro h
    cases h
    rfl
  · rintro rfl
    exact .empty

theorem matches_byte_iff {set : ByteSet} {w : List UInt8} :
    Matches (.byte set) w ↔ ∃ b, set.contains b = true ∧ w = [b] := by
  constructor
  · intro h
    cases h with
    | byte hb => exact ⟨_, hb, rfl⟩
  · rintro ⟨b, hb, rfl⟩
    exact .byte hb

theorem matches_seq_iff {r s : Regex} {w : List UInt8} :
    Matches (.seq r s) w ↔ ∃ u v, w = u ++ v ∧ Matches r u ∧ Matches s v := by
  constructor
  · intro h
    cases h with
    | seq hu hv => exact ⟨_, _, rfl, hu, hv⟩
  · rintro ⟨u, v, rfl, hu, hv⟩
    exact .seq hu hv

theorem matches_alt_iff {r s : Regex} {w : List UInt8} :
    Matches (.alt r s) w ↔ Matches r w ∨ Matches s w := by
  constructor
  · intro h
    cases h with
    | left h => exact .inl h
    | right h => exact .inr h
  · rintro (h | h)
    · exact .left h
    · exact .right h

/-- The first round of a star that takes a byte begins with it: rounds that match nothing before
it can be left out. -/
theorem matches_star_cons_iff {r : Regex} {b : UInt8} {w : List UInt8} :
    Matches (.star r) (b :: w) ↔
      ∃ u v, w = u ++ v ∧ Matches r (b :: u) ∧ Matches (.star r) v := by
  constructor
  · intro h
    generalize hs : Regex.star r = s at h
    generalize hw : b :: w = bw at h
    induction h with
    | empty | byte | seq | left | right => cases hs
    | done => cases hw
    | @more r' u v hu hv _ ih =>
      cases hs
      cases u with
      | nil => exact ih rfl hw
      | cons a u =>
        obtain ⟨rfl, rfl⟩ := List.cons_eq_cons.1 hw
        exact ⟨u, v, rfl, hu, hv⟩
  · rintro ⟨u, v, rfl, hu, hv⟩
    exact .more hu hv

theorem nullable_iff {r : Regex} : r.nullable = true ↔ Matches r [] := by
  induction r with
  | empty => exact ⟨fun _ => .empty, fun _ => rfl⟩
  | byte set => simp [nullable, matches_byte_iff]
  | seq r s ihr ihs =>
    simp only [nullable, Bool.and_eq_true, ihr, ihs, matches_seq_iff, List.nil_eq,
      List.append_eq_nil_iff]
    constructor
    · rintro ⟨hr, hs⟩
      exact ⟨[], [], ⟨rfl, rfl⟩, hr, hs⟩
    · rintro ⟨u, v, ⟨rfl, rfl⟩, hr, hs⟩
      exact ⟨hr, hs⟩
  | alt r s ihr ihs => simp only [nullable, Bool.or_eq_true, ihr, ihs, matches_alt_iff]
  | star r _ => exact ⟨fun _ => .done, fun _ => rfl⟩

theorem matches_chain_iff {r k : Regex} {w : List UInt8} :
    Matches (chain r k) w ↔ ∃ u v, w = u ++ v ∧ Matches r u ∧ Matches k v := by
  cases r with
  | empty =>
    constructor
    · intro h
      exact ⟨[], w, rfl, .empty, h⟩
    · rintro ⟨u, v, rfl, hu, hv⟩
      cases hu
      exact hv
  | byte | seq | alt | star => exact matches_seq_iff

/-- Together the residuals by a byte match what may follow it. -/
theorem exists_residual_iff {r : Regex} {b : UInt8} {w : List UInt8} :
    (∃ k ∈ residuals b r, Matches k w) ↔ Matches r (b :: w) := by
  induction r generalizing w with
  | empty => simp [residuals, matches_empty_iff]
  | byte set =>
    by_cases hb : set.contains b = true
    · simp only [residuals, hb, if_true, List.mem_singleton, exists_eq_left, matches_empty_iff,
        matches_byte_iff, List.cons.injEq]
      exact ⟨fun hw => ⟨b, hb, rfl, hw⟩, fun ⟨_, _, _, hw⟩ => hw⟩
    · simp only [residuals, hb, Bool.false_eq_true, if_false, List.not_mem_nil, false_and,
        exists_false, matches_byte_iff, List.cons.injEq, false_iff, not_exists, not_and]
      rintro a ha rfl
      exact absurd ha hb
  | seq r s ihr ihs =>
    have hfirst : (∃ k ∈ (residuals b r).map (chain · s), Matches k w) ↔
        ∃ u v, w = u ++ v ∧ Matches r (b :: u) ∧ Matches s v := by
      constructor
      · rintro ⟨_, hmem, hw⟩
        obtain ⟨k, hk, rfl⟩ := List.mem_map.1 hmem
        obtain ⟨u, v, rfl, hu, hv⟩ := matches_chain_iff.1 hw
        exact ⟨u, v, rfl, ihr.1 ⟨k, hk, hu⟩, hv⟩
      · rintro ⟨u, v, rfl, hu, hv⟩
        obtain ⟨k, hk, hku⟩ := ihr.2 hu
        exact ⟨_, List.mem_map_of_mem hk, matches_chain_iff.2 ⟨u, v, rfl, hku, hv⟩⟩
    have hsecond : (∃ k ∈ if r.nullable then residuals b s else [], Matches k w) ↔
        Matches r [] ∧ Matches s (b :: w) := by
      by_cases hr : r.nullable = true
      · simp only [hr, if_true, ihs, ← nullable_iff, true_and]
      · simp [hr, ← nullable_iff]
    simp only [residuals, List.mem_append, or_and_right, exists_or]
    rw [hfirst, hsecond, matches_seq_iff]
    constructor
    · rintro (⟨u, v, rfl, hu, hv⟩ | ⟨hr, hs⟩)
      · exact ⟨b :: u, v, rfl, hu, hv⟩
      · exact ⟨[], b :: w, rfl, hr, hs⟩
    · rintro ⟨u, v, hw, hu, hv⟩
      cases u with
      | nil => exact .inr ⟨hu, by rw [hw]; exact hv⟩
      | cons a u =>
        obtain ⟨rfl, rfl⟩ := List.cons_eq_cons.1 hw
        exact .inl ⟨u, v, rfl, hu, hv⟩
  | alt r s ihr ihs =>
    simp only [residuals, List.mem_append, or_and_right, exists_or]
    rw [ihr, ihs, matches_alt_iff]
  | star r ih =>
    rw [residuals, matches_star_cons_iff]
    constructor
    · rintro ⟨_, hmem, hw⟩
      obtain ⟨k, hk, rfl⟩ := List.mem_map.1 hmem
      obtain ⟨u, v, rfl, hu, hv⟩ := matches_chain_iff.1 hw
      exact ⟨u, v, rfl, ih.1 ⟨k, hk, hu⟩, hv⟩
    · rintro ⟨u, v, rfl, hu, hv⟩
      obtain ⟨k, hk, hku⟩ := ih.2 hu
      exact ⟨_, List.mem_map_of_mem hk, matches_chain_iff.2 ⟨u, v, rfl, hku, hv⟩⟩

theorem mem_advance_iff {states : List Regex} {b : UInt8} {k : Regex} :
    k ∈ advance states b ↔ ∃ r ∈ states, k ∈ residuals b r := by
  simp [advance, List.mem_eraseDups, List.mem_flatMap]

theorem any_nullable_foldl_iff {states : List Regex} {input : List UInt8} :
    (input.foldl advance states).any nullable = true ↔ ∃ r ∈ states, Matches r input := by
  induction input generalizing states with
  | nil => simp only [List.foldl_nil, List.any_eq_true, nullable_iff]
  | cons b w ih =>
    rw [List.foldl_cons, ih]
    constructor
    · rintro ⟨k, hk, hw⟩
      obtain ⟨r, hr, hkr⟩ := mem_advance_iff.1 hk
      exact ⟨r, hr, exists_residual_iff.1 ⟨k, hkr, hw⟩⟩
    · rintro ⟨r, hr, hw⟩
      obtain ⟨k, hk, hkw⟩ := exists_residual_iff.2 hw
      exact ⟨k, mem_advance_iff.2 ⟨r, hr, hk⟩, hkw⟩

/-- The run over the input accepts exactly the words of the expression. -/
theorem accepts_iff_matches {r : Regex} {input : List UInt8} :
    r.accepts input = true ↔ Matches r input := by
  simp only [accepts, any_nullable_foldl_iff, List.mem_singleton, exists_eq_left]

end TopicClient.Regex
