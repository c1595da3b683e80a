import TopicClient.Proofs.Glob.Elastic
import TopicClient.Proofs.Glob.Reading

/-!
# Trees take any number of slashes

No part of a key takes more than one slash for the server. A double star that the client reads as a
tree takes any number of them, so a topic that has a tree in it can be stretched by slashes.
-/

namespace TopicClient.Glob

open Regex

/-- More slashes may come before what the token matches, and they stand at the start of a
character: the token is the first, or what it matches begins with a slash. -/
structure Stretches (first : Bool) (t : Token) : Prop where
  matches_slashes : ∀ n v, Matches (concat t.parts) v →
    Matches (concat t.parts) (List.replicate n slash ++ v)
  begins : first = true ∨ ∀ v, Matches (concat t.parts) v → ∃ v', v = slash :: v'

theorem matches_anything (w : List UInt8) : Matches anything w :=
  matches_star_byte_iff.2 fun _ _ => rfl

theorem matches_slashRegex_iff {w : List UInt8} : Matches slashRegex w ↔ w = [slash] := by
  simp [slashRegex, matches_byte_iff]

theorem matches_through_iff {w : List UInt8} :
    Matches (.seq anything slashRegex) w ↔ ∃ u, w = u ++ [slash] := by
  simp [matches_seq_iff, matches_slashRegex_iff, matches_anything]

theorem matches_leadingTree_iff {w : List UInt8} :
    Matches (concat Token.leadingTree.parts) w ↔ w = [] ∨ ∃ u, w = u ++ [slash] := by
  change Matches (.alt (.alt .empty slashRegex) (.seq anything slashRegex)) w ↔ _
  rw [matches_alt_iff, matches_alt_iff, matches_empty_iff, matches_slashRegex_iff,
    matches_through_iff]
  constructor
  · rintro ((h | h) | h)
    · exact .inl h
    · exact .inr ⟨[], h⟩
    · exact .inr h
  · rintro (h | h)
    · exact .inl (.inl h)
    · exact .inr h

theorem matches_slash_seq_iff {r : Regex} {w : List UInt8} :
    Matches (.seq slashRegex r) w ↔ ∃ v, w = slash :: v ∧ Matches r v := by
  rw [matches_seq_iff]
  simp only [matches_slashRegex_iff]
  constructor
  · rintro ⟨_, v, rfl, rfl, hv⟩
    exact ⟨v, rfl, hv⟩
  · rintro ⟨v, rfl, hv⟩
    exact ⟨[slash], v, rfl, rfl, hv⟩

theorem matches_trailingTree_iff {w : List UInt8} :
    Matches (concat Token.trailingTree.parts) w ↔ ∃ v, w = slash :: v := by
  change Matches (.seq slashRegex anything) w ↔ _
  simp [matches_slash_seq_iff, matches_anything]

theorem matches_innerTree_iff {w : List UInt8} :
    Matches (concat Token.innerTree.parts) w ↔ w = [slash] ∨ ∃ u, w = slash :: (u ++ [slash]) := by
  change Matches (.alt slashRegex (.seq slashRegex (.seq anything slashRegex))) w ↔ _
  rw [matches_alt_iff, matches_slashRegex_iff, matches_slash_seq_iff]
  simp only [matches_through_iff]
  constructor
  · rintro (h | ⟨_, rfl, u, rfl⟩)
    · exact .inl h
    · exact .inr ⟨u, rfl⟩
  · rintro (h | ⟨u, rfl⟩)
    · exact .inl h
    · exact .inr ⟨_, rfl, u, rfl⟩

theorem stretches_leadingTree : Stretches true .leadingTree where
  begins := .inl rfl
  matches_slashes := by
    intro n v hv
    rw [matches_leadingTree_iff] at hv ⊢
    rcases hv with rfl | ⟨u, rfl⟩
    · cases n with
      | zero => exact .inl rfl
      | succ n => exact .inr ⟨List.replicate n slash, by
          rw [List.append_nil, List.replicate_succ']⟩
    · exact .inr ⟨List.replicate n slash ++ u, (List.append_assoc _ _ _).symm⟩

theorem stretches_trailingTree (first : Bool) : Stretches first .trailingTree := by
  refine ⟨fun n v hv => ?_, .inr fun v hv => matches_trailingTree_iff.1 hv⟩
  rw [matches_trailingTree_iff] at hv ⊢
  obtain ⟨v, rfl⟩ := hv
  cases n with
  | zero => exact ⟨v, rfl⟩
  | succ n => exact ⟨_, rfl⟩

theorem stretches_innerTree (first : Bool) : Stretches first .innerTree := by
  refine ⟨fun n v hv => ?_, .inr fun v hv => ?_⟩
  · cases n with
    | zero => exact hv
    | succ n =>
      rw [matches_innerTree_iff] at hv ⊢
      rcases hv with rfl | ⟨u, rfl⟩
      · exact .inr ⟨List.replicate n slash, rfl⟩
      · exact .inr ⟨List.replicate n slash ++ slash :: u, by simp [List.replicate_succ]⟩
  · rcases matches_innerTree_iff.1 hv with rfl | ⟨u, rfl⟩
    · exact ⟨[], rfl⟩
    · exact ⟨u ++ [slash], rfl⟩

/-- Among the tokens of a tree there is one that can be stretched. -/
theorem exists_stretches_of_grown {ts : List Token} (h : Grown ts) :
    ∃ pre t post, ts.reverse = pre ++ t :: post ∧ Stretches pre.isEmpty t := by
  have hmem : ∀ t, t ∈ ts → (∀ first, Stretches first t) →
      ∃ pre t post, ts.reverse = pre ++ t :: post ∧ Stretches pre.isEmpty t := by
    intro t ht hstretches
    obtain ⟨pre, post, hts⟩ := List.append_of_mem (List.mem_reverse.2 ht)
    exact ⟨pre, t, post, hts, hstretches _⟩
  rcases h with h | h | h
  · obtain ⟨ts, rfl⟩ := List.getLast?_eq_some_iff.1 h
    exact ⟨[], .leadingTree, ts.reverse, List.reverse_concat, stretches_leadingTree⟩
  · exact hmem _ h stretches_innerTree
  · exact hmem _ h stretches_trailingTree

theorem encode_slashes (n : ℕ) : encode (List.replicate n '/') = List.replicate n slash := by
  induction n with
  | zero => rfl
  | succ n ih => rw [List.replicate_succ, List.replicate_succ, encode_cons, ih]; rfl

theorem regexOf_of_ne {ts : List Token} (h : ts ≠ [.leadingTree]) :
    regexOf ts = concat (sequenceParts ts) := by
  unfold regexOf
  split
  · exact absurd rfl h
  · rfl

/-- Slashes can be put into a topic that the tokens of a tree match, as many as one likes. -/
theorem exists_stretched {ts : List Token} (h : Grown ts) {cs : List Char}
    (hcs : Matches (regexOf ts.reverse) (encode cs)) (n : ℕ) :
    ∃ ds, Matches (regexOf ts.reverse) (encode ds) ∧ n ≤ ds.countP (· = '/') := by
  have hcount : ∀ x y : List Char, n ≤ (x ++ (List.replicate n '/' ++ y)).countP (· = '/') := by
    intro x y
    rw [List.countP_append, List.countP_append, List.countP_replicate]
    simp only [decide_true, if_true]
    omega
  by_cases halone : ts.reverse = [.leadingTree]
  · rw [halone]
    exact ⟨[] ++ (List.replicate n '/' ++ cs), matches_anything _, hcount [] cs⟩
  · obtain ⟨pre, t, post, hts, hstretches⟩ := exists_stretches_of_grown h
    rw [regexOf_of_ne halone] at hcs ⊢
    rw [hts] at hcs ⊢
    obtain ⟨u, vw, huvw, hpre, hvw⟩ := words_append_iff.1 hcs
    obtain ⟨v, w, rfl, hv, hw⟩ := words_cons_iff.1 hvw
    -- The slashes come before `v`, where a character of the topic begins.
    obtain ⟨x, y, rfl, hx, hy⟩ : ∃ x y, cs = x ++ y ∧ u = encode x ∧ v ++ w = encode y := by
      rcases hstretches.begins with hfirst | hslash
      · rw [List.isEmpty_iff.1 hfirst] at hpre
        rw [words_nil_iff.1 hpre] at huvw ⊢
        exact ⟨[], cs, rfl, rfl, huvw.symm⟩
      · obtain ⟨v', rfl⟩ := hslash v hv
        obtain ⟨x, y, rfl, hx, hy⟩ := exists_split_of_bytes (c := '/') huvw
        exact ⟨x, '/' :: y, rfl, hx, congrArg (slash :: ·) hy⟩
    refine ⟨x ++ (List.replicate n '/' ++ y), ?_, hcount x y⟩
    rw [encode_append, encode_append, encode_slashes, ← hx, ← hy, ← List.append_assoc _ v w]
    exact words_append_iff.2 ⟨u, _, rfl, hpre,
      words_cons_iff.2 ⟨_, w, rfl, hstretches.matches_slashes n v hv, hw⟩⟩

/-- A part of a key takes one slash for the server at most. -/
theorem countP_slash_le {ts : List ServerRule.Term} {cs : List Char}
    (h : ServerRule.Matches ts cs) : cs.countP (· = '/') ≤ ts.length := by
  induction h with
  | done => exact Nat.le_refl 0
  | take _ _ _ ih =>
    rw [List.countP_cons, List.length_cons]
    split_ifs <;> omega
  | skip _ _ ih =>
    rw [List.length_cons]
    omega
  | @more t ts c cs ht hc _ ih =>
    have hslash : c ≠ '/' := by
      cases t with
      | run => exact hc
      | char | one | set => cases ht
    rw [List.countP_cons_of_neg (by simpa using hslash)]
    exact ih

end TopicClient.Glob
