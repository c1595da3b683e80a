import Mathlib.Data.String.Basic
import TopicClient.Proofs.Json.ValueText

/-!
# Order and nesting of values

In a value the members of an object are sorted by key, and each key occurs once
(`Value.Ordered`). Every value that is spelled by a text is ordered, and it nests no deeper than the
bound under which the text spells it. A text spells the same value under every higher bound.
-/

namespace TopicClient.Json

namespace Value

inductive Ordered : Value → Prop
  | null : Ordered .null
  | bool (b : Bool) : Ordered (.bool b)
  | number (n : Number) : Ordered (.number n)
  | string (s : String) : Ordered (.string s)
  | array {vs : List Value} (hv : ∀ v ∈ vs, Ordered v) : Ordered (.array vs)
  | object {ms : List (String × Value)} (hkeys : ms.Pairwise fun m m' => m.1 < m'.1)
      (hv : ∀ m ∈ ms, Ordered m.2) : Ordered (.object ms)

section Members

variable {k : String} {v : Value} {ms vs : List (String × Value)} {m : String × Value}

theorem mem_insertMember (h : m ∈ insertMember k v ms) : m = (k, v) ∨ m ∈ ms := by
  induction ms with
  | nil => exact .inl (List.mem_singleton.1 h)
  | cons m' ms ih =>
    unfold insertMember at h
    split_ifs at h
    · exact List.mem_cons.1 h
    · rcases List.mem_cons.1 h with h | h
      · exact .inl h
      · exact .inr (List.mem_cons_of_mem _ h)
    · rcases List.mem_cons.1 h with h | h
      · exact .inr (h ▸ List.mem_cons_self)
      · exact (ih h).imp_right (List.mem_cons_of_mem _)

theorem pairwise_insertMember (h : ms.Pairwise fun m m' => m.1 < m'.1) :
    (insertMember k v ms).Pairwise fun m m' => m.1 < m'.1 := by
  induction ms with
  | nil => exact List.pairwise_singleton _ _
  | cons m ms ih =>
    obtain ⟨k', v'⟩ := m
    obtain ⟨hm, hms⟩ := List.pairwise_cons.1 h
    unfold insertMember
    split_ifs with hlt heq
    · refine List.pairwise_cons.2 ⟨List.forall_mem_cons.2 ⟨hlt, fun m' hm' => ?_⟩, h⟩
      exact lt_trans hlt (hm m' hm')
    · refine List.pairwise_cons.2 ⟨fun m' hm' => ?_, hms⟩
      exact heq ▸ hm m' hm'
    · have hgt : k' < k := lt_of_le_of_ne (not_lt.1 hlt) heq
      refine List.pairwise_cons.2 ⟨fun m' hm' => ?_, ih hms⟩
      rcases mem_insertMember hm' with rfl | hm'
      · exact hgt
      · exact hm m' hm'

theorem insertMember_of_forall_lt (h : ∀ m ∈ ms, m.1 < k) :
    insertMember k v ms = ms ++ [(k, v)] := by
  induction ms with
  | nil => rfl
  | cons m ms ih =>
    obtain ⟨hm, hms⟩ := List.forall_mem_cons.1 h
    rw [insertMember, if_neg (lt_asymm hm), if_neg (ne_of_lt hm), ih hms, List.cons_append]

theorem foldl_insertMember_of_pairwise (h : (vs ++ ms).Pairwise fun m m' => m.1 < m'.1) :
    ms.foldl (fun sorted m => insertMember m.1 m.2 sorted) vs = vs ++ ms := by
  induction ms generalizing vs with
  | nil => rw [List.foldl_nil, List.append_nil]
  | cons m ms ih =>
    have hlt : ∀ m' ∈ vs, m'.1 < m.1 := by
      intro m' hm'
      exact (List.pairwise_append.1 h).2.2 m' hm' m List.mem_cons_self
    have happend : vs ++ m :: ms = (vs ++ [m]) ++ ms := by rw [List.append_assoc]; rfl
    rw [List.foldl_cons, insertMember_of_forall_lt hlt, happend]
    exact ih (happend ▸ h)

/-- The members of an ordered object make up that object. -/
theorem ofMembers_of_pairwise (h : ms.Pairwise fun m m' => m.1 < m'.1) :
    ofMembers ms = .object ms := by
  have hfold := foldl_insertMember_of_pairwise (List.nil_append ms ▸ h)
  rw [ofMembers, hfold, List.nil_append]

/-- What holds of all members before they are sorted holds of those that are left. -/
theorem foldl_insertMember_induction {P : List (String × Value) → Prop}
    (hstep : ∀ sorted, ∀ m ∈ ms, P sorted → P (insertMember m.1 m.2 sorted)) (h : P vs) :
    P (ms.foldl (fun sorted m => insertMember m.1 m.2 sorted) vs) := by
  induction ms generalizing vs with
  | nil => exact h
  | cons m ms ih =>
    refine ih (fun sorted m' hm' => hstep sorted m' (List.mem_cons_of_mem _ hm')) ?_
    exact hstep vs m List.mem_cons_self h

theorem ordered_ofMembers (h : ∀ m ∈ ms, m.2.Ordered) : (ofMembers ms).Ordered := by
  refine .object (foldl_insertMember_induction (fun sorted m _ => pairwise_insertMember)
    List.Pairwise.nil) ?_
  refine foldl_insertMember_induction (P := fun sorted => ∀ m ∈ sorted, m.2.Ordered) ?_ nofun
  intro sorted m hm hsorted m' hm'
  rcases mem_insertMember hm' with rfl | hm'
  · exact h m hm
  · exact hsorted m' hm'

end Members

section Nesting

variable {vs : List Value} {ms : List (String × Value)} {n : ℕ}

theorem elementsNesting_le_iff : elementsNesting vs ≤ n ↔ ∀ v ∈ vs, v.nesting ≤ n := by
  induction vs with
  | nil => simp [elementsNesting]
  | cons v vs ih => rw [elementsNesting, max_le_iff, ih, List.forall_mem_cons]

theorem membersNesting_le_iff : membersNesting ms ≤ n ↔ ∀ m ∈ ms, m.2.nesting ≤ n := by
  induction ms with
  | nil => simp [membersNesting]
  | cons m ms ih =>
    obtain ⟨k, v⟩ := m
    rw [membersNesting, max_le_iff, ih, List.forall_mem_cons]

theorem nesting_ofMembers_le (h : ∀ m ∈ ms, m.2.nesting ≤ n) : (ofMembers ms).nesting ≤ n + 1 := by
  rw [ofMembers, nesting]
  refine Nat.succ_le_succ (membersNesting_le_iff.2 ?_)
  refine foldl_insertMember_induction (P := fun sorted => ∀ m ∈ sorted, m.2.nesting ≤ n) ?_ nofun
  intro sorted m hm hsorted m' hm'
  rcases mem_insertMember hm' with rfl | hm'
  · exact h m hm
  · exact hsorted m' hm'

end Nesting

end Value

section Texts

variable {n m : ℕ} {t : List Char} {v : Value}

theorem CompoundText.imp {L L' : Spelling Value} (h : ∀ t v, L t v → L' t v)
    (ht : CompoundText L t v) : CompoundText L' t v := by
  cases ht with
  | array hs hv => exact .array hs (hv.imp h)
  | object hs hv => exact .object hs (hv.imp fun _ _ hm => ⟨hm.1, h _ _ hm.2⟩)

theorem ValueText.mono (ht : ValueText n t v) (hle : n ≤ m) : ValueText m t v := by
  induction n generalizing t v m with
  | zero => exact ScalarText.valueText ht m
  | succ n ih =>
    cases m with
    | zero => cases hle
    | succ m =>
      rcases ht with ht | ht
      · exact .inl ht
      · exact .inr (ht.imp fun t v h => ih h (Nat.le_of_succ_le_succ hle))

/-- A value nests no deeper than the bound under which it is spelled. -/
theorem ValueText.nesting_le (ht : ValueText n t v) : v.nesting ≤ n := by
  have hscalar : ∀ {t v}, ScalarText t v → v.nesting = 0 := by
    intro t v ht
    cases ht <;> rfl
  induction n generalizing t v with
  | zero => exact (hscalar ht).le
  | succ n ih =>
    rcases ht with ht | ht
    · exact (hscalar ht).le.trans (Nat.zero_le _)
    · cases ht with
      | array hs hv =>
        rw [Value.nesting]
        refine Nat.succ_le_succ (Value.elementsNesting_le_iff.2 ?_)
        exact forall_mem_of_forall₂ hv fun _ _ h => ih h
      | object hs hv =>
        exact Value.nesting_ofMembers_le (forall_mem_of_forall₂ hv fun _ _ h => ih h.2)

theorem ValueText.ordered (ht : ValueText n t v) : v.Ordered := by
  have hscalar : ∀ {t v}, ScalarText t v → v.Ordered := by
    intro t v ht
    cases ht <;> constructor
  induction n generalizing t v with
  | zero => exact hscalar ht
  | succ n ih =>
    rcases ht with ht | ht
    · exact hscalar ht
    · cases ht with
      | array hs hv => exact .array (forall_mem_of_forall₂ hv fun _ _ h => ih h)
      | object hs hv => exact Value.ordered_ofMembers (forall_mem_of_forall₂ hv fun _ _ h => ih h.2)

end Texts

end TopicClient.Json
