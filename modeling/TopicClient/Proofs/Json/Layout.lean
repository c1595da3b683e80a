import Mathlib.Tactic.SplitIfs
import TopicClient.Json.Reader

/-!
# The layout of arrays and objects

Arrays and objects are sequences of items between brackets, with commas between the items and
blanks around them. `Items` says how a sequence is laid out from a place after its opening bracket.
The steps with which readers go from one item to the next succeed exactly on this layout.
-/

namespace TopicClient.Json

theorem exists_of_bind_eq_ok {ε α β : Type} {x : Except ε α} {f : α → Except ε β} {b : β}
    (h : x >>= f = .ok b) : ∃ a, x = .ok a ∧ f a = .ok b := by
  cases x with
  | error e => cases h
  | ok a => exact ⟨a, rfl, h⟩

theorem ok_bind {ε α β : Type} (a : α) (f : α → Except ε β) : (.ok a >>= f) = f a := rfl

def Blanks (s : List Char) : Prop := ∀ c ∈ s, isBlank c = true

/-- A text at whose start no blank, comma or closing bracket of an array stands. -/
def Begins (t : List Char) : Prop :=
  ∃ c s, t = c :: s ∧ isBlank c = false ∧ c ≠ ',' ∧ c ≠ ']'

/-- A text before which a token ends: a blank, a comma or a closing bracket follows, or nothing. -/
def Ends (r : List Char) : Prop :=
  ∀ c ∈ r.head?, isBlank c = true ∨ c = ',' ∨ c = ']' ∨ c = '\x7d'

/-- What stands before an item: blanks, and a comma among them unless the item is the first. -/
inductive Separator : Bool → List Char → Prop
  | first {b : List Char} (hb : Blanks b) : Separator true b
  | next {b b' : List Char} (hb : Blanks b) (hb' : Blanks b') : Separator false (b ++ ',' :: b')

/-- The text of items up to their closing bracket, from a place before the first of them or after
another one. -/
inductive Items (closing : Char) : Bool → List (List Char) → List Char → Prop
  | close {first : Bool} {b : List Char} (hb : Blanks b) : Items closing first [] (b ++ [closing])
  | item {first : Bool} {p t s : List Char} {ts : List (List Char)} (hp : Separator first p)
      (hs : Items closing false ts s) : Items closing first (t :: ts) (p ++ (t ++ s))

section Blanks

theorem exists_blanks_append_skipBlanks (s : List Char) :
    ∃ b, Blanks b ∧ s = b ++ skipBlanks s := by
  refine ⟨s.takeWhile isBlank, ?_, List.takeWhile_append_dropWhile.symm⟩
  exact List.all_eq_true.1 List.all_takeWhile

theorem blanks_of_skipBlanks_eq_nil {s : List Char} (h : skipBlanks s = []) : Blanks s := by
  obtain ⟨b, hb, hs⟩ := exists_blanks_append_skipBlanks s
  rw [h, List.append_nil] at hs
  exact hs ▸ hb

theorem exists_blanks_of_skipBlanks_eq {s t : List Char} (h : skipBlanks s = t) :
    ∃ b, Blanks b ∧ s = b ++ t :=
  h ▸ exists_blanks_append_skipBlanks s

theorem blanks_nil : Blanks [] := nofun

theorem skipBlanks_append {b : List Char} (hb : Blanks b) (s : List Char) :
    skipBlanks (b ++ s) = skipBlanks s :=
  List.dropWhile_append_of_pos hb

theorem skipBlanks_cons {c : Char} (hc : isBlank c = false) (s : List Char) :
    skipBlanks (c :: s) = c :: s := by
  rw [skipBlanks, List.dropWhile_cons, if_neg (by simp [hc])]

theorem skipBlanks_append_cons {b : List Char} (hb : Blanks b) {c : Char}
    (hc : isBlank c = false) (s : List Char) : skipBlanks (b ++ c :: s) = c :: s := by
  rw [skipBlanks_append hb, skipBlanks_cons hc]

theorem Begins.skipBlanks_append {t : List Char} (ht : Begins t) (s : List Char) :
    skipBlanks (t ++ s) = t ++ s := by
  obtain ⟨c, u, rfl, hc, _⟩ := ht
  exact skipBlanks_cons hc (u ++ s)

theorem Begins.ne_nil {t : List Char} (ht : Begins t) : t ≠ [] := by
  obtain ⟨c, u, rfl, _⟩ := ht
  exact List.cons_ne_nil c u

theorem ends_of_blanks {b : List Char} (hb : Blanks b) : Ends b := by
  intro c hc
  exact .inl (hb c (List.mem_of_mem_head? hc))

theorem ends_append {b r : List Char} (hb : Blanks b) (hr : Ends r) : Ends (b ++ r) := by
  cases b with
  | nil => exact hr
  | cons a b =>
    intro c hc
    obtain rfl := Option.some.inj hc
    exact .inl (hb a List.mem_cons_self)

end Blanks

section Items

variable {closing : Char} {first : Bool} {ts : List (List Char)} {s : List Char}

theorem Items.ends (h : Items closing false ts s) (hc : closing = ']' ∨ closing = '\x7d')
    (r : List Char) : Ends (s ++ r) := by
  cases h with
  | close hb =>
    rw [List.append_assoc]
    refine ends_append hb ?_
    rintro c ⟨⟩
    exact .inr (.inr hc)
  | item hp hs =>
    cases hp with
    | next hb hb' =>
      rw [List.append_assoc, List.append_assoc]
      refine ends_append hb ?_
      rintro c ⟨⟩
      exact .inr (.inl rfl)

theorem Items.length_lt (h : Items closing first ts s) (hts : ∀ t ∈ ts, t ≠ []) :
    ts.length < s.length := by
  induction h with
  | close hb => simp
  | @item first p t s ts hp hs ih =>
    have hpos : 0 < t.length := List.length_pos_iff.2 (hts t List.mem_cons_self)
    have hlt := ih fun t ht => hts t (List.mem_cons_of_mem _ ht)
    simp only [List.length_append, List.length_cons]
    omega

end Items

section Steps

variable {first : Bool}

theorem eq_append_of_readWord_eq_ok {w s r : List Char} (h : readWord w s = .ok r) :
    s = w ++ r := by
  induction w generalizing s with
  | nil =>
    cases h
    rfl
  | cons a w ih =>
    cases s with
    | nil => cases h
    | cons c s =>
      rw [readWord] at h
      split_ifs at h with hc
      rw [hc, ih h, List.cons_append]

/-- Where the closing bracket of an array is found, only blanks stand before it. -/
theorem eq_of_nextElement_eq_close {s r : List Char}
    (h : nextElement first s = .ok (.close r)) : ∃ b, Blanks b ∧ s = b ++ ']' :: r := by
  rw [nextElement] at h
  split at h
  · cases h
  · rename_i r' hs
    cases h
    exact exists_blanks_of_skipBlanks_eq hs
  · split_ifs at h
    · cases h
    · split at h
      · cases h
      · cases h
      · cases h
  · split_ifs at h
    cases h

theorem exists_separator_of_nextElement {s t : List Char}
    (h : nextElement first s = .ok (.item t)) : ∃ p, Separator first p ∧ s = p ++ t := by
  rw [nextElement] at h
  split at h
  · cases h
  · cases h
  · rename_i r hs
    obtain ⟨b, hb, rfl⟩ := exists_blanks_of_skipBlanks_eq hs
    cases first with
    | true =>
      rw [if_pos rfl] at h
      cases h
      exact ⟨b, .first hb, rfl⟩
    | false =>
      rw [if_neg Bool.false_ne_true] at h
      split at h
      · cases h
      · cases h
      · cases h
        obtain ⟨b', hb', hr⟩ := exists_blanks_append_skipBlanks r
        exact ⟨b ++ ',' :: b', .next hb hb', by rw [List.append_assoc, List.cons_append, ← hr]⟩
  · rename_i r _ _ hs
    split_ifs at h with hfirst
    cases h
    subst hfirst
    obtain ⟨b, hb, hs⟩ := exists_blanks_append_skipBlanks s
    exact ⟨b, .first hb, hs⟩

theorem nextElement_close {b : List Char} (hb : Blanks b) (r : List Char) :
    nextElement first (b ++ ']' :: r) = .ok (.close r) := by
  rw [nextElement, skipBlanks_append_cons hb rfl]
  rfl

theorem nextElement_item {p t : List Char} (hp : Separator first p) (ht : Begins t)
    (s : List Char) : nextElement first (p ++ (t ++ s)) = .ok (.item (t ++ s)) := by
  have hskip := ht.skipBlanks_append s
  obtain ⟨c, u, rfl, _, hcomma, hclose⟩ := ht
  cases hp with
  | first hb =>
    rw [nextElement, skipBlanks_append hb, hskip]
    split
    · rename_i h
      cases h
    · rename_i h
      exact absurd (List.cons.inj h).1 hclose
    · rename_i h
      exact absurd (List.cons.inj h).1 hcomma
    · rfl
  | next hb hb' =>
    rw [List.append_assoc, List.cons_append, nextElement, skipBlanks_append_cons hb rfl]
    simp only [Bool.false_eq_true, if_false, skipBlanks_append hb', hskip]
    split
    · rename_i h
      cases h
    · rename_i h
      exact absurd (List.cons.inj h).1 hclose
    · rfl

theorem eq_of_nextKey_eq_close {s r : List Char} (h : nextKey first s = .ok (.close r)) :
    ∃ b, Blanks b ∧ s = b ++ '\x7d' :: r := by
  rw [nextKey] at h
  split at h
  · cases h
  · rename_i r' hs
    cases h
    exact exists_blanks_of_skipBlanks_eq hs
  · split_ifs at h
    split at h
    · cases h
    · cases h
    · cases h
    · cases h
  · split_ifs at h
    cases h
  · cases h

theorem exists_separator_of_nextKey {s t : List Char} (h : nextKey first s = .ok (.item t)) :
    ∃ p, Separator first p ∧ s = p ++ '"' :: t := by
  rw [nextKey] at h
  split at h
  · cases h
  · cases h
  · rename_i r hs
    split_ifs at h with hfirst
    obtain rfl := Bool.eq_false_iff.2 hfirst
    obtain ⟨b, hb, rfl⟩ := exists_blanks_of_skipBlanks_eq hs
    split at h
    · cases h
    · rename_i r' hr
      cases h
      obtain ⟨b', hb', rfl⟩ := exists_blanks_of_skipBlanks_eq hr
      exact ⟨b ++ ',' :: b', .next hb hb', by rw [List.append_assoc, List.cons_append]⟩
    · cases h
    · cases h
  · rename_i r hs
    split_ifs at h with hfirst
    cases h
    subst hfirst
    obtain ⟨b, hb, rfl⟩ := exists_blanks_of_skipBlanks_eq hs
    exact ⟨b, .first hb, rfl⟩
  · cases h

theorem nextKey_close {b : List Char} (hb : Blanks b) (r : List Char) :
    nextKey first (b ++ '\x7d' :: r) = .ok (.close r) := by
  rw [nextKey, skipBlanks_append_cons hb rfl]
  rfl

theorem nextKey_item {p : List Char} (hp : Separator first p) (s : List Char) :
    nextKey first (p ++ '"' :: s) = .ok (.item s) := by
  cases hp with
  | first hb =>
    rw [nextKey, skipBlanks_append_cons hb rfl]
    rfl
  | next hb hb' =>
    have hquote : skipBlanks (_ ++ '"' :: s) = '"' :: s := skipBlanks_append_cons hb' rfl s
    rw [List.append_assoc, List.cons_append, nextKey, skipBlanks_append_cons hb rfl]
    simp only [Bool.false_eq_true, if_false, hquote]

theorem exists_blanks_of_readColon {s r : List Char} (h : readColon s = .ok r) :
    ∃ b, Blanks b ∧ s = b ++ ':' :: r := by
  rw [readColon] at h
  split at h
  · cases h
  · rename_i r' hs
    cases h
    exact exists_blanks_of_skipBlanks_eq hs
  · cases h

theorem readColon_append {b : List Char} (hb : Blanks b) (r : List Char) :
    readColon (b ++ ':' :: r) = .ok r := by
  rw [readColon, skipBlanks_append_cons hb rfl]
  rfl

end Steps

end TopicClient.Json
