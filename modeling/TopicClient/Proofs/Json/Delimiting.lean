import TopicClient.Proofs.Json.Printing

/-!
# Prints that tell where they end

A text may begin with the print of a value and then go on. It tells the value and where its print
ends (`ToldApart`): strings end at their closing quotes, numbers where a token may end, and arrays
and objects at their brackets, as soon as their items are told. `toldApart_chars` says so of every
value whose numbers are all integers. The members of its objects may stand in any order.
-/

namespace TopicClient.Json

/-- A text that begins with the print of `a`, and goes on as after a token, begins so with the
print of nothing else that has the property `P`. -/
def ToldApart {α : Type} (print : α → List Char) (P : α → Prop) (a : α) : Prop :=
  ∀ b r s, P b → Ends r → Ends s → print a ++ r = print b ++ s → a = b ∧ r = s

def memberChars (m : String × Value) : List Char := quote m.1.toList ++ ':' :: m.2.chars

section Items

variable {α : Type} {print : α → List Char} {P : α → Prop} {closing : Char} {as bs : List α}
  {r s : List Char}

theorem ends_items (hc : closing = ']' ∨ closing = '\x7d') (as : List α) (r : List Char) :
    Ends ((as.flatMap fun a => ',' :: print a) ++ closing :: r) := by
  cases as with
  | nil =>
    rintro c ⟨⟩
    exact .inr (.inr hc)
  | cons a as =>
    rintro c ⟨⟩
    exact .inr (.inl rfl)

/-- Items after the first one are told from their commas on. -/
theorem eq_of_flatMap_append_eq (hc : closing = ']' ∨ closing = '\x7d')
    (has : ∀ a ∈ as, ToldApart print P a) (hbs : ∀ b ∈ bs, P b)
    (h : (as.flatMap fun a => ',' :: print a) ++ closing :: r =
      (bs.flatMap fun b => ',' :: print b) ++ closing :: s) : as = bs ∧ r = s := by
  have hcomma : closing ≠ ',' := by rcases hc with rfl | rfl <;> decide
  induction as generalizing bs with
  | nil =>
    cases bs with
    | nil => exact ⟨rfl, (List.cons.inj h).2⟩
    | cons b bs => exact absurd (List.cons.inj h).1 hcomma
  | cons a as ih =>
    cases bs with
    | nil => exact absurd (List.cons.inj h).1.symm hcomma
    | cons b bs =>
      obtain ⟨ha, has'⟩ := List.forall_mem_cons.1 has
      obtain ⟨hb, hbs'⟩ := List.forall_mem_cons.1 hbs
      simp only [List.flatMap_cons, List.cons_append, List.append_assoc] at h
      obtain ⟨hab, hrest⟩ := ha b _ _ hb (ends_items hc as r) (ends_items hc bs s)
        (List.cons.inj h).2
      obtain ⟨has_eq, hrs⟩ := ih has' hbs' hrest
      exact ⟨by rw [hab, has_eq], hrs⟩

/-- The items of a sequence are told if none of them begins with the closing bracket. -/
theorem eq_of_intercalate_append_eq (hc : closing = ']' ∨ closing = '\x7d')
    (hbegin : ∀ a, P a → ∃ c t, print a = c :: t ∧ c ≠ closing)
    (has : ∀ a ∈ as, P a ∧ ToldApart print P a) (hbs : ∀ b ∈ bs, P b)
    (h : List.intercalate [','] (as.map print) ++ closing :: r =
      List.intercalate [','] (bs.map print) ++ closing :: s) : as = bs ∧ r = s := by
  have hfirst : ∀ {a : α} {as : List α} {r s : List Char}, P a →
      closing :: r ≠ List.intercalate [','] ((a :: as).map print) ++ s := by
    intro a as r s ha heq
    obtain ⟨c, t, hprint, hne⟩ := hbegin a ha
    rw [List.map_cons, intercalate_cons, hprint] at heq
    exact hne (List.cons.inj heq).1.symm
  cases as with
  | nil =>
    cases bs with
    | nil => exact ⟨rfl, (List.cons.inj h).2⟩
    | cons b bs => exact absurd h (hfirst (hbs b List.mem_cons_self))
  | cons a as =>
    cases bs with
    | nil => exact absurd h.symm (hfirst (has a List.mem_cons_self).1)
    | cons b bs =>
      refine eq_of_flatMap_append_eq hc (fun a ha => (has a ha).2) hbs ?_
      rw [List.map_cons, List.map_cons, intercalate_cons, intercalate_cons, List.flatMap_map,
        List.flatMap_map] at h
      simp only [List.flatMap_cons, List.cons_append]
      rw [h]

end Items

section Values

variable {r s : List Char} {v : Value}

/-- A quoted string ends at its closing quote. -/
theorem eq_of_quote_append_eq {k l : String} (h : quote k.toList ++ r = quote l.toList ++ s) :
    k = l ∧ r = s := by
  have hread : ∀ (k : String) (r : List Char),
      readString (k.toList.flatMap escape ++ '"' :: r) = .ok (k, r) :=
    fun k r => readString_eq_ok_iff.2 ⟨_, keyText_escape k, rfl⟩
  simp only [quote, List.cons_append, List.append_assoc, List.nil_append] at h
  have heq := (hread k r).symm.trans ((List.cons.inj h).2 ▸ hread l s)
  exact Prod.mk.inj (Except.ok.inj heq)

/-- A value is a scalar, which is spelled by its print, or an array or an object. -/
theorem scalarText_chars_or (hv : v.Integral) :
    ScalarText v.chars v ∨ (∃ vs, v = .array vs) ∨ ∃ ms, v = .object ms := by
  cases hv with
  | null => exact .inl .null
  | bool b => cases b <;> exact .inl (by constructor)
  | integer i => exact .inl (scalarText_integer i)
  | string s => exact .inl (.string (keyText_escape s))
  | @array vs => exact .inr (.inl ⟨vs, rfl⟩)
  | @object ms => exact .inr (.inr ⟨ms, rfl⟩)

/-- A scalar is told apart by the reader that takes it off the front of a text. -/
theorem toldApart_of_scalarText (ht : ScalarText v.chars v) :
    ToldApart Value.chars Value.Integral v := by
  intro w r s hw hr hs h
  have hread : readValue 1 (v.chars ++ r) = .ok (v, r) := readValue_append_of_scalar ht hr
  rw [h] at hread
  rcases scalarText_chars_or hw with hscalar | ⟨vs, rfl⟩ | ⟨ms, rfl⟩
  · rw [readValue_append_of_scalar hscalar hs] at hread
    obtain ⟨rfl, rfl⟩ := Prod.mk.inj (Except.ok.inj hread)
    exact ⟨rfl, rfl⟩
  · rw [Value.chars, List.cons_append, readValue, skipBlanks_cons rfl] at hread
    cases hread
  · rw [Value.chars, List.cons_append, readValue, skipBlanks_cons rfl] at hread
    cases hread

theorem begins_chars (hv : v.Integral) : Begins v.chars := by
  rcases scalarText_chars_or hv with hscalar | ⟨vs, rfl⟩ | ⟨ms, rfl⟩
  · exact hscalar.begins
  · exact ⟨'[', _, rfl, by decide⟩
  · exact ⟨'\x7b', _, rfl, by decide⟩

theorem head?_ne_of_scalarText {t : List Char} (ht : ScalarText t v) :
    t.head? ≠ some '[' ∧ t.head? ≠ some '\x7b' := by
  cases ht with
  | null | true | false => exact ⟨by decide, by decide⟩
  | string => exact ⟨by simp, by simp⟩
  | number ht =>
    obtain ⟨c, t', rfl, hc⟩ := ht.exists_eq_cons
    have hne : ∀ {d}, isDigit d = false → d ≠ '-' → (c :: t').head? ≠ some d :=
      fun hd hminus h => ne_of_number hc hd hminus (Option.some.inj h)
    exact ⟨hne rfl (by decide), hne rfl (by decide)⟩

theorem exists_eq_array (hv : v.Integral) (h : v.chars.head? = some '[') :
    ∃ vs, v = .array vs ∧ ∀ w ∈ vs, w.Integral := by
  rcases scalarText_chars_or hv with hscalar | ⟨vs, rfl⟩ | ⟨ms, rfl⟩
  · exact absurd h (head?_ne_of_scalarText hscalar).1
  · cases hv with
    | array hvs => exact ⟨vs, rfl, hvs⟩
  · exact absurd (Option.some.inj h) (by decide)

theorem exists_eq_object (hv : v.Integral) (h : v.chars.head? = some '\x7b') :
    ∃ ms, v = .object ms ∧ ∀ m ∈ ms, m.2.Integral := by
  rcases scalarText_chars_or hv with hscalar | ⟨vs, rfl⟩ | ⟨ms, rfl⟩
  · exact absurd h (head?_ne_of_scalarText hscalar).2
  · exact absurd (Option.some.inj h) (by decide)
  · cases hv with
    | object hms => exact ⟨ms, rfl, hms⟩

theorem toldApart_of_compound {α : Type} {print : α → List Char} {P : α → Prop}
    {opening closing : Char} {make : List α → Value} {as : List α}
    (hc : closing = ']' ∨ closing = '\x7d')
    (hprint : ∀ as,
      (make as).chars = opening :: (List.intercalate [','] (as.map print) ++ [closing]))
    (hmake : ∀ {w : Value}, w.Integral → w.chars.head? = some opening →
      ∃ bs, w = make bs ∧ ∀ b ∈ bs, P b)
    (hbegin : ∀ a, P a → ∃ c t, print a = c :: t ∧ c ≠ closing)
    (has : ∀ a ∈ as, P a ∧ ToldApart print P a) :
    ToldApart Value.chars Value.Integral (make as) := by
  intro w r s hw hr hs h
  have hhead : w.chars.head? = some opening := by
    obtain ⟨c, t, hw, -⟩ := begins_chars hw
    rw [hprint, hw] at h
    rw [hw, (List.cons.inj h).1]
    rfl
  obtain ⟨bs, rfl, hbs⟩ := hmake hw hhead
  simp only [hprint, List.cons_append, List.append_assoc] at h
  obtain ⟨rfl, hrest⟩ := eq_of_intercalate_append_eq hc hbegin has hbs (List.cons.inj h).2
  exact ⟨rfl, hrest⟩

theorem toldApart_member {m : String × Value} (h : ToldApart Value.chars Value.Integral m.2) :
    ToldApart memberChars (fun m => m.2.Integral) m := by
  rintro ⟨k, w⟩ r s hw hr hs heq
  simp only [memberChars, List.append_assoc, List.cons_append] at heq
  obtain ⟨hkey, hrest⟩ := eq_of_quote_append_eq heq
  obtain ⟨hvalue, hrs⟩ := h w r s hw hr hs (List.cons.inj hrest).2
  exact ⟨Prod.ext hkey hvalue, hrs⟩

/-- A text that begins with a value tells which one, and where it ends. -/
theorem toldApart_chars (hv : v.Integral) : ToldApart Value.chars Value.Integral v := by
  induction hv with
  | null => exact toldApart_of_scalarText .null
  | bool b => exact toldApart_of_scalarText (by cases b <;> constructor)
  | integer i => exact toldApart_of_scalarText (scalarText_integer i)
  | string s => exact toldApart_of_scalarText (.string (keyText_escape s))
  | @array vs hvs ih =>
    refine toldApart_of_compound (.inl rfl) (fun vs => ?_) exists_eq_array (fun v hv => ?_)
      fun v hv => ⟨hvs v hv, ih v hv⟩
    · rw [Value.chars, Value.elementsChars_eq]
    · obtain ⟨c, t, hprint, -, -, hne⟩ := begins_chars hv
      exact ⟨c, t, hprint, hne⟩
  | @object ms hms ih =>
    refine toldApart_of_compound (.inr rfl) (fun ms => ?_) exists_eq_object
      (fun m _ => ⟨'"', _, rfl, by decide⟩) fun m hm => ⟨hms m hm, toldApart_member (ih m hm)⟩
    rw [Value.chars, Value.membersChars_eq]
    rfl

end Values

end TopicClient.Json
