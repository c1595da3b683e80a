import Mathlib.Data.List.DropRight
import Mathlib.Tactic.SplitIfs
import TopicClient.Text.Blank
import TopicClient.Text.Split

/-!
# Texts split and cut

The parts between separators, when a text is put together of others, and the slashes at the end of
a text.
-/

namespace TopicClient.Text

/-! ## Splitting -/

section Splitting

variable {separates : Char → Bool} {c : Char}

theorem splitOn_ne_nil (separates : Char → Bool) (cs : List Char) :
    splitOn separates cs ≠ [] := by
  cases cs with
  | nil => exact List.cons_ne_nil _ _
  | cons c cs =>
    rw [splitOn]
    split_ifs
    · exact List.cons_ne_nil _ _
    · split <;> exact List.cons_ne_nil _ _

theorem splitOn_cons_of_pos (hc : separates c = true) (cs : List Char) :
    splitOn separates (c :: cs) = [] :: splitOn separates cs := by
  rw [splitOn, if_pos hc]

theorem splitOn_cons_of_neg (hc : separates c = false) {cs p : List Char} {ps : List (List Char)}
    (h : splitOn separates cs = p :: ps) :
    splitOn separates (c :: cs) = (c :: p) :: ps := by
  rw [splitOn, if_neg (by simp [hc]), h]

theorem splitOn_append (hc : separates c = true) (x y : List Char) :
    splitOn separates (x ++ c :: y) =
      splitOn separates x ++ splitOn separates y := by
  induction x with
  | nil => exact splitOn_cons_of_pos hc y
  | cons d x ih =>
    by_cases hd : separates d = true
    · rw [List.cons_append, splitOn_cons_of_pos hd, splitOn_cons_of_pos hd, ih, List.cons_append]
    · have hd := Bool.eq_false_iff.2 hd
      obtain ⟨p, ps, hx⟩ := List.exists_cons_of_ne_nil (splitOn_ne_nil separates x)
      rw [hx, List.cons_append] at ih
      rw [List.cons_append, splitOn_cons_of_neg hd ih, splitOn_cons_of_neg hd hx, List.cons_append]

theorem exists_splitOn_append {z : List Char} (hz : ∀ d ∈ z, separates d = false)
    (x : List Char) :
    ∃ ps p, splitOn separates x = ps ++ [p] ∧
      splitOn separates (x ++ z) = ps ++ [p ++ z] := by
  induction x with
  | nil =>
    refine ⟨[], [], rfl, ?_⟩
    induction z with
    | nil => rfl
    | cons d z ih =>
      obtain ⟨hd, hz⟩ := List.forall_mem_cons.1 hz
      exact splitOn_cons_of_neg hd (ih hz)
  | cons d x ih =>
    obtain ⟨ps, p, hx, hxz⟩ := ih
    by_cases hd : separates d = true
    · exact ⟨[] :: ps, p, by rw [splitOn_cons_of_pos hd, hx, List.cons_append],
        by rw [List.cons_append, splitOn_cons_of_pos hd, hxz, List.cons_append]⟩
    · have hd := Bool.eq_false_iff.2 hd
      cases ps with
      | nil => exact ⟨[], d :: p, splitOn_cons_of_neg hd hx, splitOn_cons_of_neg hd hxz⟩
      | cons q ps =>
        exact ⟨(d :: q) :: ps, p, splitOn_cons_of_neg hd hx, splitOn_cons_of_neg hd hxz⟩

/-- A text that only slashes separate is its parts, each behind a slash, but for the first slash. -/
theorem flatMap_splitOn {cs : List Char} (h : ∀ d ∈ cs, separates d = true → d = '/') :
    (splitOn separates cs).flatMap ('/' :: ·) = '/' :: cs := by
  induction cs with
  | nil => rfl
  | cons d cs ih =>
    obtain ⟨hd, hcs⟩ := List.forall_mem_cons.1 h
    by_cases hsep : separates d = true
    · obtain rfl := hd hsep
      rw [splitOn_cons_of_pos hsep, List.flatMap_cons, ih hcs]
      rfl
    · obtain ⟨p, ps, hsplit⟩ := List.exists_cons_of_ne_nil (splitOn_ne_nil separates cs)
      have ih := ih hcs
      rw [hsplit, List.flatMap_cons, List.cons_append] at ih
      rw [splitOn_cons_of_neg (Bool.eq_false_iff.2 hsep) hsplit, List.flatMap_cons,
        List.cons_append, List.cons_append, (List.cons_eq_cons.1 ih).2]

theorem all_of_mem_splitOn {cs p : List Char} {property : Char → Prop}
    (h : ∀ d ∈ cs, separates d = false → property d) (hp : p ∈ splitOn separates cs) :
    ∀ d ∈ p, property d := by
  induction cs generalizing p with
  | nil =>
    obtain rfl := List.mem_singleton.1 hp
    exact nofun
  | cons d cs ih =>
    obtain ⟨hd, hcs⟩ := List.forall_mem_cons.1 h
    by_cases hsep : separates d = true
    · rw [splitOn_cons_of_pos hsep] at hp
      rcases List.mem_cons.1 hp with rfl | hp
      · exact nofun
      · exact ih hcs hp
    · have hsep := Bool.eq_false_iff.2 hsep
      obtain ⟨q, qs, hsplit⟩ := List.exists_cons_of_ne_nil (splitOn_ne_nil separates cs)
      rw [splitOn_cons_of_neg hsep hsplit] at hp
      rw [hsplit] at ih
      rcases List.mem_cons.1 hp with rfl | hp
      · exact List.forall_mem_cons.2 ⟨hd hsep, ih hcs List.mem_cons_self⟩
      · exact ih hcs (List.mem_cons_of_mem _ hp)

end Splitting

/-! ## Slashes at the end -/

theorem toList_dropTrailingSlashes (text : String) :
    (dropTrailingSlashes text).toList = text.toList.rdropWhile (· = '/') := by
  rw [dropTrailingSlashes, String.toList_ofList]
  rfl

theorem rdropWhile_append_of_pos {p : Char → Bool} (x : List Char) {z : List Char}
    (hz : ∀ c ∈ z, p c = true) : (x ++ z).rdropWhile p = x.rdropWhile p := by
  have hreversed : ∀ c ∈ z.reverse, p c = true := fun c hc => hz c (List.mem_reverse.1 hc)
  rw [List.rdropWhile, List.reverse_append, List.dropWhile_append_of_pos hreversed,
    List.rdropWhile]

theorem dropWhile_append_cons {p : Char → Bool} {c : Char} (hc : p c = false) (x y : List Char) :
    (x ++ c :: y).dropWhile p = x.dropWhile p ++ c :: y := by
  rw [List.dropWhile_append]
  split_ifs with hempty
  · rw [List.isEmpty_iff.1 hempty, List.dropWhile_cons_of_neg (by simp [hc]), List.nil_append]
  · rfl

theorem rdropWhile_append_cons {p : Char → Bool} {c : Char} (hc : p c = false) (x y : List Char) :
    (x ++ c :: y).rdropWhile p = x ++ c :: y.rdropWhile p := by
  have hreverse : (x ++ c :: y).reverse = y.reverse ++ c :: x.reverse := by simp
  rw [List.rdropWhile, hreverse, dropWhile_append_cons hc, List.rdropWhile]
  simp

theorem exists_slashes (text : String) :
    ∃ w, text = dropTrailingSlashes text ++ String.ofList w ∧ ∀ c ∈ w, c = '/' := by
  refine ⟨(text.toList.reverse.takeWhile (· = '/')).reverse, ?_, ?_⟩
  · rw [← String.toList_inj, String.toList_append, String.toList_ofList, toList_dropTrailingSlashes,
      List.rdropWhile, ← List.reverse_append, List.takeWhile_append_dropWhile, List.reverse_reverse]
  · intro c hc
    simpa using List.mem_takeWhile_imp (List.mem_reverse.1 hc)

theorem dropTrailingSlashes_idem (text : String) :
    dropTrailingSlashes (dropTrailingSlashes text) = dropTrailingSlashes text := by
  rw [← String.toList_inj, toList_dropTrailingSlashes, toList_dropTrailingSlashes,
    List.rdropWhile_idempotent]

/-- A text has no slash at its end exactly if it does not end in two slashes with one more. -/
theorem not_suffix_iff (x : List Char) :
    ¬ ['/', '/'] <:+ x ++ ['/'] ↔ x.rdropWhile (· = '/') = x := by
  rcases List.eq_nil_or_concat x with rfl | ⟨y, c, rfl⟩
  · exact iff_of_true (by decide) rfl
  · rw [List.concat_eq_append]
    by_cases hc : c = '/'
    · subst hc
      have hsuffix : ['/', '/'] <:+ y ++ ['/'] ++ ['/'] := ⟨y, by simp⟩
      have hshorter : (y ++ ['/']).rdropWhile (· = '/') ≠ y ++ ['/'] := by
        rw [rdropWhile_append_of_pos y (List.forall_mem_singleton.2 rfl)]
        intro heq
        have hle := (List.rdropWhile_prefix (· = '/') y).length_le
        rw [heq, List.length_append, List.length_singleton] at hle
        omega
      exact iff_of_false (not_not.2 hsuffix) hshorter
    · have hkept : (y ++ [c]).rdropWhile (· = '/') = y ++ [c] :=
        List.rdropWhile_concat_neg _ _ _ (by simpa using hc)
      refine iff_of_true ?_ hkept
      rintro ⟨z, hz⟩
      have hlast : z ++ ['/'] ++ ['/'] = y ++ [c] ++ ['/'] := by rw [← hz]; simp
      have hinit := List.append_cancel_right hlast
      exact hc (List.cons_eq_cons.1 (List.append_inj' hinit rfl).2).1.symm

end TopicClient.Text
