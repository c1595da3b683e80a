import Mathlib.Data.Nat.Notation
import Mathlib.Tactic.ByCases

/-!
# Words spanned by wildcards

A wildcard takes one letter of a word, or any number of letters when it repeats. `Spans` says that
a list of wildcards takes a word letter by letter, in order. It is used for texts, whose letters
are characters, and for their bytes.
-/

namespace TopicClient.Glob

/-- The wildcards take all letters of the word, in order. -/
inductive Spans {ι α : Type} (repeats : ι → Bool) (takes : ι → α → Prop) : List ι → List α → Prop
  | done : Spans repeats takes [] []
  | take {x : ι} {xs : List ι} {a : α} {w : List α} (hx : repeats x = false) (ha : takes x a)
      (h : Spans repeats takes xs w) : Spans repeats takes (x :: xs) (a :: w)
  | skip {x : ι} {xs : List ι} {w : List α} (hx : repeats x = true)
      (h : Spans repeats takes xs w) : Spans repeats takes (x :: xs) w
  | more {x : ι} {xs : List ι} {a : α} {w : List α} (hx : repeats x = true) (ha : takes x a)
      (h : Spans repeats takes (x :: xs) w) : Spans repeats takes (x :: xs) (a :: w)

namespace Spans

variable {ι κ α : Type} {repeats : ι → Bool} {takes : ι → α → Prop} {x : ι} {xs ys : List ι}
  {w : List α}

theorem nil_iff : Spans repeats takes [] w ↔ w = [] := by
  constructor
  · intro h
    cases h
    rfl
  · rintro rfl
    exact .done

theorem cons_iff_of_single (hx : repeats x = false) :
    Spans repeats takes (x :: xs) w ↔
      ∃ a v, w = a :: v ∧ takes x a ∧ Spans repeats takes xs v := by
  constructor
  · intro h
    cases h with
    | take _ ha h => exact ⟨_, _, rfl, ha, h⟩
    | skip hx' | more hx' =>
      rw [hx] at hx'
      cases hx'
  · rintro ⟨a, v, rfl, ha, h⟩
    exact .take hx ha h

theorem cons_iff_of_repeats (hx : repeats x = true) :
    Spans repeats takes (x :: xs) w ↔
      ∃ u v, w = u ++ v ∧ (∀ a ∈ u, takes x a) ∧ Spans repeats takes xs v := by
  constructor
  · intro h
    generalize hl : x :: xs = l at h
    induction h with
    | done => cases hl
    | take hy _ _ =>
      obtain ⟨rfl, rfl⟩ := List.cons_eq_cons.1 hl
      rw [hx] at hy
      cases hy
    | skip _ h =>
      obtain ⟨rfl, rfl⟩ := List.cons_eq_cons.1 hl
      exact ⟨[], _, rfl, nofun, h⟩
    | more _ ha _ ih =>
      obtain ⟨rfl, rfl⟩ := List.cons_eq_cons.1 hl
      obtain ⟨u, v, rfl, hu, hv⟩ := ih rfl
      exact ⟨_ :: u, v, rfl, List.forall_mem_cons.2 ⟨ha, hu⟩, hv⟩
  · rintro ⟨u, v, rfl, hu, hv⟩
    induction u with
    | nil => exact .skip hx hv
    | cons a u ih =>
      obtain ⟨ha, hu⟩ := List.forall_mem_cons.1 hu
      exact .more hx ha (ih hu)

theorem append_iff :
    Spans repeats takes (xs ++ ys) w ↔
      ∃ u v, w = u ++ v ∧ Spans repeats takes xs u ∧ Spans repeats takes ys v := by
  induction xs generalizing w with
  | nil =>
    constructor
    · intro h
      exact ⟨[], w, rfl, .done, h⟩
    · rintro ⟨u, v, rfl, hu, hv⟩
      rw [nil_iff.1 hu]
      exact hv
  | cons x xs ih =>
    rw [List.cons_append]
    cases hx : repeats x with
    | false =>
      simp only [cons_iff_of_single hx, ih]
      constructor
      · rintro ⟨a, _, rfl, ha, u, v, rfl, hu, hv⟩
        exact ⟨a :: u, v, rfl, ⟨a, u, rfl, ha, hu⟩, hv⟩
      · rintro ⟨_, v, rfl, ⟨a, u, rfl, ha, hu⟩, hv⟩
        exact ⟨a, u ++ v, rfl, ha, u, v, rfl, hu, hv⟩
    | true =>
      simp only [cons_iff_of_repeats hx, ih]
      constructor
      · rintro ⟨t, _, rfl, ht, u, v, rfl, hu, hv⟩
        exact ⟨t ++ u, v, (List.append_assoc _ _ _).symm, ⟨t, u, rfl, ht, hu⟩, hv⟩
      · rintro ⟨_, v, rfl, ⟨t, u, rfl, ht, hu⟩, hv⟩
        exact ⟨t, u ++ v, List.append_assoc _ _ _, ht, u, v, rfl, hu, hv⟩

theorem map_iff {f : κ → ι} {repeats' : κ → Bool} {takes' : κ → α → Prop}
    (hrepeats : ∀ k, repeats (f k) = repeats' k) (htakes : ∀ k a, takes (f k) a ↔ takes' k a)
    {ks : List κ} : Spans repeats takes (ks.map f) w ↔ Spans repeats' takes' ks w := by
  induction ks generalizing w with
  | nil => rw [List.map_nil, nil_iff, nil_iff]
  | cons k ks ih =>
    rw [List.map_cons]
    have hk := hrepeats k
    cases hk' : repeats' k with
    | false =>
      rw [hk'] at hk
      simp only [cons_iff_of_single hk, cons_iff_of_single hk', ih, htakes]
    | true =>
      rw [hk'] at hk
      simp only [cons_iff_of_repeats hk, cons_iff_of_repeats hk', ih, htakes]

def singles (repeats : ι → Bool) (xs : List ι) : ℕ := xs.countP fun x => !repeats x

theorem singles_cons_of_single (hx : repeats x = false) :
    singles repeats (x :: xs) = singles repeats xs + 1 := by
  rw [singles, List.countP_cons_of_pos (by rw [hx]; rfl), singles]

theorem singles_cons_of_repeats (hx : repeats x = true) :
    singles repeats (x :: xs) = singles repeats xs := by
  rw [singles, List.countP_cons_of_neg (by rw [hx]; exact Bool.false_ne_true), singles]

theorem singles_append :
    singles repeats (xs ++ ys) = singles repeats xs + singles repeats ys :=
  List.countP_append

theorem singles_le_length (h : Spans repeats takes xs w) : singles repeats xs ≤ w.length := by
  induction h with
  | done => exact Nat.le_refl 0
  | take hx _ _ ih =>
    rw [singles_cons_of_single hx, List.length_cons]
    omega
  | skip hx _ ih =>
    rw [singles_cons_of_repeats hx]
    exact ih
  | more hx _ _ ih =>
    rw [List.length_cons]
    omega

/-- A word with no letter to spare for the wildcards around a single one leaves it its letter. -/
theorem takes_of_tight {u v : List α} {a : α} (hx : repeats x = false)
    (h : Spans repeats takes (xs ++ x :: ys) (u ++ a :: v)) (hu : u.length = singles repeats xs)
    (hv : v.length = singles repeats ys) : takes x a := by
  obtain ⟨u', w', huw, hu', hw'⟩ := append_iff.1 h
  obtain ⟨b, v', rfl, hb, hv'⟩ := (cons_iff_of_single hx).1 hw'
  have hule := hu'.singles_le_length
  have hvle := hv'.singles_le_length
  have hlength := congrArg List.length huw
  simp only [List.length_append, List.length_cons] at hlength
  obtain ⟨rfl, hbv⟩ := List.append_inj huw (by omega)
  rw [(List.cons_eq_cons.1 hbv).1]
  exact hb

/-- Wildcards that all take every letter span the words of a fitting length. -/
theorem of_length (htakes : ∀ x ∈ xs, ∀ a ∈ w, takes x a)
    (hlength : singles repeats xs = w.length ∨
      (∃ x ∈ xs, repeats x = true) ∧ singles repeats xs ≤ w.length) :
    Spans repeats takes xs w := by
  induction xs generalizing w with
  | nil =>
    rcases hlength with hlength | ⟨⟨_, hx, _⟩, _⟩
    · rw [List.length_eq_zero_iff.1 hlength.symm]
      exact .done
    · cases hx
  | cons x xs ih =>
    obtain ⟨hx, hxs⟩ := List.forall_mem_cons.1 htakes
    cases hr : repeats x with
    | false =>
      rw [singles_cons_of_single hr] at hlength
      cases w with
      | nil =>
        simp only [List.length_nil] at hlength
        omega
      | cons a w =>
        refine .take hr (hx a List.mem_cons_self) (ih ?_ ?_)
        · exact fun y hy b hb => hxs y hy b (List.mem_cons_of_mem a hb)
        · rw [List.length_cons] at hlength
          rcases hlength with hlength | ⟨⟨y, hy, hrepeats⟩, hlength⟩
          · exact .inl (by omega)
          · refine .inr ⟨⟨y, ?_, hrepeats⟩, by omega⟩
            rcases List.mem_cons.1 hy with rfl | hy
            · rw [hr] at hrepeats
              cases hrepeats
            · exact hy
    | true =>
      -- The wildcard takes all letters but the last ones, one for each single wildcard after it.
      rw [singles_cons_of_repeats hr] at hlength
      have hle : singles repeats xs ≤ w.length := by omega
      refine (cons_iff_of_repeats hr).2 ⟨w.take (w.length - singles repeats xs),
        w.drop (w.length - singles repeats xs), (List.take_append_drop _ w).symm, ?_, ih ?_ ?_⟩
      · exact fun a ha => hx a (List.mem_of_mem_take ha)
      · exact fun y hy a ha => hxs y hy a (List.mem_of_mem_drop ha)
      · rw [List.length_drop]
        omega

theorem iff_of_repeats {p : α → Prop} (hxs : ∀ x ∈ xs, repeats x = true)
    (hp : ∀ x ∈ xs, ∀ a, takes x a ↔ p a) :
    Spans repeats takes xs w ↔ (∀ a ∈ w, p a) ∧ (xs = [] → w = []) := by
  induction xs generalizing w with
  | nil =>
    rw [nil_iff]
    constructor
    · rintro rfl
      exact ⟨nofun, fun _ => rfl⟩
    · intro h
      exact h.2 rfl
  | cons x xs ih =>
    obtain ⟨hx, hxs⟩ := List.forall_mem_cons.1 hxs
    obtain ⟨hpx, hpxs⟩ := List.forall_mem_cons.1 hp
    simp only [cons_iff_of_repeats hx, ih hxs hpxs, hpx]
    constructor
    · rintro ⟨u, v, rfl, hu, hv, _⟩
      exact ⟨List.forall_mem_append.2 ⟨hu, hv⟩, nofun⟩
    · rintro ⟨h, _⟩
      exact ⟨w, [], (List.append_nil w).symm, h, nofun, fun _ => rfl⟩

end Spans

end TopicClient.Glob
