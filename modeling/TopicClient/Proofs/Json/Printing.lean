import Mathlib.Tactic.IntervalCases
import TopicClient.Json.Printer
import TopicClient.Proofs.Json.Nesting

/-!
# What is printed spells the value

Texts are printed without blanks. A printed string spells its characters, a printed integer its
value, and a printed record its members. A value whose numbers are all integers is spelled by its
print (`valueText_chars`), within the bound that its own nesting gives, and there is no control
character in it (`printable_chars`).
-/

namespace TopicClient.Json

section Integers

variable {n : ℕ}

theorem digits_toDigits (n : ℕ) : Digits (Nat.toDigits 10 n) where
  ne_nil := Nat.toDigits_ne_nil
  all c hc := by
    have hdigit := Nat.isDigit_of_mem_toDigits (b := 10) (by decide) (by decide) hc
    simp only [Char.isDigit, Bool.and_eq_true, decide_eq_true_eq] at hdigit
    simp only [isDigit, Bool.and_eq_true, decide_eq_true_eq]
    exact hdigit

theorem eq_zero_of_head?_toDigits (h : (Nat.toDigits 10 n).head? = some '0') : n = 0 := by
  induction n using Nat.strong_induction_on with
  | _ n ih =>
    rw [Nat.toDigits_eq_if (by decide)] at h
    split_ifs at h with hlt
    · exact Nat.digitChar_eq_zero.1 (Option.some.inj h)
    · rw [List.head?_append_of_ne_nil _ Nat.toDigits_ne_nil] at h
      have hzero := ih (n / 10) (by omega) h
      omega

theorem wholeText_toDigits (n : ℕ) : WholeText (Nat.toDigits 10 n) := by
  refine ⟨digits_toDigits n, fun h => ?_⟩
  rw [eq_zero_of_head?_toDigits h]
  rfl

theorem decimal_toDigits (n : ℕ) : decimal (Nat.toDigits 10 n) = n := by
  have hdigits := Nat.ofDigitChars_ten_toDigits (n := n)
  rw [Nat.ofDigitChars_eq_foldl] at hdigits
  rw [decimal]
  simp only [Nat.mul_comm _ 10]
  exact hdigits

theorem toList_toString (n : ℕ) : (toString n).toList = Nat.toDigits 10 n := by
  rw [Nat.toString_eq_ofList_toDigits, String.toList_ofList]

theorem naturalText_toString {limit : ℕ} (hn : n ≤ limit) :
    NaturalText limit (toString n).toList n := by
  rw [toList_toString]
  exact ⟨wholeText_toDigits n, (decimal_toDigits n).symm, hn⟩

theorem exists_numeralText_of_int (i : ℤ) :
    ∃ n, NumeralText (toString i).toList n ∧ n.fraction = none ∧ n.exponent = none ∧
      (n.negative = true → i < 0) ∧ n.wholeValue = i := by
  cases i with
  | ofNat m =>
    have hprint : (toString (Int.ofNat m)).toList = Nat.toDigits 10 m := toList_toString m
    have htext := NumeralText.mk .none (wholeText_toDigits m) .none .none
    rw [List.nil_append, List.nil_append, List.append_nil] at htext
    rw [hprint]
    refine ⟨_, htext, rfl, rfl, fun h => absurd h Bool.false_ne_true, ?_⟩
    rw [Numeral.wholeValue_eq, decimal_toDigits]
    rfl
  | negSucc m =>
    have hprint : (toString (Int.negSucc m)).toList = ['-'] ++ Nat.toDigits 10 (m + 1) := by
      rw [← toList_toString]
      exact String.toList_append
    have htext := NumeralText.mk .minus (wholeText_toDigits (m + 1)) .none .none
    rw [List.nil_append, List.append_nil] at htext
    rw [hprint]
    refine ⟨_, htext, rfl, rfl, fun _ => Int.negSucc_lt_zero m, ?_⟩
    rw [Numeral.wholeValue_eq, decimal_toDigits]
    rfl

theorem scalarText_integer (i : Integer) :
    ScalarText (Number.chars (.integer i)) (.number (.integer i)) := by
  obtain ⟨n, htext, hfraction, hexponent, hsign, hvalue⟩ := exists_numeralText_of_int i.val
  refine .number htext ?_
  rw [Numeral.value_eq_integer_iff, Numeral.integer?_eq_some_iff]
  refine ⟨hfraction, hexponent, ?_, hvalue.symm⟩
  rintro ⟨hnegative, hzero⟩
  have hlt := hsign hnegative
  omega

end Integers

section Strings

theorem digitChar_mem_hexTable {n : ℕ} (hn : n < 16) : (Nat.digitChar n, n) ∈ hexTable := by
  interval_cases n <;> decide

theorem escapeText_control {c : Char} (hc : c.toNat < 0x20) :
    EscapeText (['u', '0', '0'] ++ hexPair c.toNat) c := by
  have hunit : HexUnit (['0', '0'] ++ hexPair c.toNat) c.toNat := by
    have hmk := HexUnit.mk (digitChar_mem_hexTable (n := 0) (by omega))
      (digitChar_mem_hexTable (n := 0) (by omega))
      (digitChar_mem_hexTable (n := c.toNat / 16) (by omega))
      (digitChar_mem_hexTable (n := c.toNat % 16) (by omega))
    have hvalue : ((0 * 16 + 0) * 16 + c.toNat / 16) * 16 + c.toNat % 16 = c.toNat := by omega
    rw [hvalue] at hmk
    exact hmk
  have hescape := EscapeText.unit hunit (.inl (by omega))
  rw [Char.ofNat_toNat] at hescape
  exact hescape

/-- A character is printed as itself, or as an escape of it. -/
theorem escape_cases (c : Char) :
    escape c = [c] ∧ IsPlain c ∨ ∃ e, escape c = '\\' :: e ∧ EscapeText e c := by
  unfold escape
  split_ifs with h₁ h₂ h₃ h₄ h₅ h₆ h₇ h₈
  · exact .inr ⟨_, rfl, .simple (by rw [h₁]; decide)⟩
  · exact .inr ⟨_, rfl, .simple (by rw [h₂]; decide)⟩
  · exact .inr ⟨_, rfl, .simple (by rw [h₃]; decide)⟩
  · exact .inr ⟨_, rfl, .simple (by rw [h₄]; decide)⟩
  · exact .inr ⟨_, rfl, .simple (by rw [h₅]; decide)⟩
  · exact .inr ⟨_, rfl, .simple (by rw [h₆]; decide)⟩
  · exact .inr ⟨_, rfl, .simple (by rw [h₇]; decide)⟩
  · exact .inr ⟨_, rfl, escapeText_control h₈⟩
  · exact .inl ⟨rfl, not_lt.1 h₈, h₁, h₂⟩

theorem stringText_escape (cs : List Char) : StringText (cs.flatMap escape) cs := by
  induction cs with
  | nil => exact .nil
  | cons c cs ih =>
    rw [List.flatMap_cons]
    rcases escape_cases c with ⟨hc, hplain⟩ | ⟨e, hc, he⟩
    · rw [hc]
      exact .plain hplain ih
    · rw [hc]
      exact .escape he ih

theorem keyText_escape (s : String) : KeyText (s.toList.flatMap escape) s :=
  stringText_escape s.toList

end Strings

section Sequences

variable {closing : Char} {ts : List (List Char)} {t : List Char}

theorem intercalate_cons (t : List Char) (ts : List (List Char)) :
    List.intercalate [','] (t :: ts) = t ++ ts.flatMap fun t => ',' :: t := by
  induction ts generalizing t with
  | nil => simp [List.intercalate]
  | cons t' ts ih =>
    rw [List.intercalate_cons_cons, ih, List.flatMap_cons, List.append_assoc]
    rfl

theorem items_flatMap (closing : Char) (ts : List (List Char)) :
    Items closing false ts ((ts.flatMap fun t => ',' :: t) ++ [closing]) := by
  induction ts with
  | nil => exact .close blanks_nil
  | cons t ts ih =>
    have hitem := Items.item (t := t) (.next blanks_nil blanks_nil) ih
    rw [List.flatMap_cons, List.append_assoc]
    exact hitem

theorem items_intercalate (closing : Char) (ts : List (List Char)) :
    Items closing true ts (List.intercalate [','] ts ++ [closing]) := by
  cases ts with
  | nil => exact .close blanks_nil
  | cons t ts =>
    rw [intercalate_cons, List.append_assoc]
    exact .item (.first blanks_nil) (items_flatMap closing ts)

theorem arrayText_intercalate (ts : List (List Char)) :
    ArrayText ts ('[' :: (List.intercalate [','] ts ++ [']'])) :=
  ⟨_, items_intercalate ']' ts, rfl⟩

/-- A record is printed as an object with its members. -/
theorem objectText_recordChars (ms : List (String × List Char)) :
    ObjectText KeyText ms (recordChars ms) := by
  refine ⟨_, _, items_intercalate '\x7d' _, ?_, rfl⟩
  refine List.forall₂_map_right_iff.2 (List.forall₂_same.2 fun m _ => ?_)
  have hmember := MemberText.mk (keyText_escape m.1) blanks_nil blanks_nil (v := m.2)
  rw [quote, List.cons_append, List.append_assoc]
  exact hmember

end Sequences

namespace Value

inductive Integral : Value → Prop
  | null : Integral .null
  | bool (b : Bool) : Integral (.bool b)
  | integer (i : Integer) : Integral (.number (.integer i))
  | string (s : String) : Integral (.string s)
  | array {vs : List Value} (hv : ∀ v ∈ vs, Integral v) : Integral (.array vs)
  | object {ms : List (String × Value)} (hv : ∀ m ∈ ms, Integral m.2) : Integral (.object ms)

theorem elementsChars_eq (vs : List Value) :
    elementsChars vs = List.intercalate [','] (vs.map chars) := by
  induction vs with
  | nil => rfl
  | cons v vs ih =>
    cases vs with
    | nil => simp [elementsChars, List.intercalate]
    | cons v' vs =>
      rw [elementsChars, ih]
      · simp [List.intercalate]
      · exact List.cons_ne_nil v' vs

theorem membersChars_eq (ms : List (String × Value)) :
    membersChars ms =
      List.intercalate [','] (ms.map fun m => quote m.1.toList ++ ':' :: m.2.chars) := by
  induction ms with
  | nil => rfl
  | cons m ms ih =>
    obtain ⟨k, v⟩ := m
    cases ms with
    | nil => simp [membersChars, List.intercalate]
    | cons m' ms =>
      rw [membersChars, ih]
      · simp [List.intercalate]
      · exact List.cons_ne_nil m' ms

theorem chars_object (ms : List (String × Value)) :
    chars (.object ms) = recordChars (ms.map fun m => (m.1, m.2.chars)) := by
  rw [chars, membersChars_eq, recordChars, List.map_map]
  rfl

end Value

/-- The print of a value spells it. -/
theorem valueText_chars {n : ℕ} {v : Value} (hi : v.Integral) (ho : v.Ordered)
    (hn : v.nesting ≤ n) : ValueText n v.chars v := by
  induction n generalizing v with
  | zero =>
    cases hi with
    | null => exact .null
    | bool b => cases b <;> constructor
    | integer i => exact scalarText_integer i
    | string s => exact .string (keyText_escape s)
    | array => cases hn
    | object => cases hn
  | succ n ih =>
    cases hi with
    | null => exact .inl .null
    | bool b => cases b <;> exact .inl (by constructor)
    | integer i => exact .inl (scalarText_integer i)
    | string s => exact .inl (.string (keyText_escape s))
    | @array vs hi =>
      cases ho with
      | array ho =>
        have hn := Value.elementsNesting_le_iff.1 (Nat.le_of_succ_le_succ hn)
        rw [Value.chars, Value.elementsChars_eq]
        refine .inr (.array (arrayText_intercalate _) ?_)
        refine List.forall₂_map_left_iff.2 (List.forall₂_same.2 fun v hv => ?_)
        exact ih (hi v hv) (ho v hv) (hn v hv)
    | @object ms hi =>
      cases ho with
      | object hkeys ho =>
        have hn := Value.membersNesting_le_iff.1 (Nat.le_of_succ_le_succ hn)
        rw [Value.chars_object, ← Value.ofMembers_of_pairwise hkeys]
        refine .inr (.object (objectText_recordChars _) ?_)
        refine List.forall₂_map_left_iff.2 (List.forall₂_same.2 fun m hm => ⟨rfl, ?_⟩)
        exact ih (hi m hm) (ho m hm) (hn m hm)

/-! ## Control characters -/

/-- A text in which no control character below a blank stands. -/
def Printable (s : List Char) : Prop := ∀ c ∈ s, 0x20 ≤ c.toNat

instance (s : List Char) : Decidable (Printable s) :=
  List.decidableBAll (fun c : Char => 0x20 ≤ c.toNat) s

section Printable

variable {s t : List Char} {ts : List (List Char)}

theorem printable_cons_iff {c : Char} : Printable (c :: s) ↔ 0x20 ≤ c.toNat ∧ Printable s :=
  List.forall_mem_cons

theorem printable_append_iff : Printable (s ++ t) ↔ Printable s ∧ Printable t :=
  List.forall_mem_append

theorem printable_nil : Printable [] := nofun

theorem printable_intercalate (h : ∀ t ∈ ts, Printable t) :
    Printable (List.intercalate [','] ts) := by
  cases ts with
  | nil => exact printable_nil
  | cons t ts =>
    obtain ⟨ht, hts⟩ := List.forall_mem_cons.1 h
    rw [intercalate_cons, printable_append_iff]
    refine ⟨ht, fun c hc => ?_⟩
    obtain ⟨u, hu, hc⟩ := List.mem_flatMap.1 hc
    exact printable_cons_iff.2 ⟨by decide, hts u hu⟩ c hc

theorem HexUnit.printable {n : ℕ} (h : HexUnit s n) : Printable s := by
  have htable : ∀ p ∈ hexTable, 0x20 ≤ p.1.toNat := by decide
  cases h with
  | mk ha hb hc hd =>
    simp only [printable_cons_iff]
    exact ⟨htable _ ha, htable _ hb, htable _ hc, htable _ hd, printable_nil⟩

theorem EscapeText.printable {c : Char} (h : EscapeText s c) : Printable s := by
  cases h with
  | simple h =>
    have htable : ∀ p ∈ escapeTable, 0x20 ≤ p.1.toNat := by decide
    exact printable_cons_iff.2 ⟨htable _ h, printable_nil⟩
  | unit hu _ => exact printable_cons_iff.2 ⟨by decide, hu.printable⟩
  | pair hu _ hl _ =>
    simp only [printable_cons_iff, printable_append_iff]
    exact ⟨by decide, hu.printable, by decide, by decide, hl.printable⟩

theorem StringText.printable {cs : List Char} (h : StringText s cs) : Printable s := by
  induction h with
  | nil => exact printable_nil
  | plain hc _ ih => exact printable_cons_iff.2 ⟨hc.le, ih⟩
  | escape he _ ih =>
    exact printable_cons_iff.2 ⟨by decide, printable_append_iff.2 ⟨he.printable, ih⟩⟩

theorem printable_quote (cs : List Char) : Printable (quote cs) := by
  rw [quote, printable_cons_iff, printable_append_iff]
  exact ⟨by decide, (stringText_escape cs).printable, by decide⟩

theorem printable_recordChars {ms : List (String × List Char)} (h : ∀ m ∈ ms, Printable m.2) :
    Printable (recordChars ms) := by
  rw [recordChars, printable_cons_iff, printable_append_iff]
  refine ⟨by decide, printable_intercalate fun t ht => ?_, by decide⟩
  obtain ⟨m, hm, rfl⟩ := List.mem_map.1 ht
  rw [printable_append_iff, printable_cons_iff]
  exact ⟨printable_quote _, by decide, h m hm⟩

theorem printable_toDigits (n : ℕ) : Printable (Nat.toDigits 10 n) := by
  intro c hc
  have hdigit := (digits_toDigits n).all c hc
  simp only [isDigit, Bool.and_eq_true, decide_eq_true_eq] at hdigit
  exact le_trans (by decide) (show '0'.toNat ≤ c.toNat from hdigit.1)

theorem printable_integer (i : Integer) : Printable (Number.chars (.integer i)) := by
  rw [Number.chars]
  cases i.val with
  | ofNat m =>
    have hprint : (toString (Int.ofNat m)).toList = Nat.toDigits 10 m := toList_toString m
    rw [hprint]
    exact printable_toDigits m
  | negSucc m =>
    have hprint : (toString (Int.negSucc m)).toList = '-' :: Nat.toDigits 10 (m + 1) := by
      rw [← toList_toString]
      exact String.toList_append
    rw [hprint, printable_cons_iff]
    exact ⟨by decide, printable_toDigits (m + 1)⟩

theorem printable_chars {v : Value} (hi : v.Integral) : Printable v.chars := by
  induction hi with
  | null => decide
  | bool b => cases b <;> decide
  | integer i => exact printable_integer i
  | string s => exact printable_quote s.toList
  | @array vs _ ih =>
    rw [Value.chars, Value.elementsChars_eq, printable_cons_iff, printable_append_iff]
    refine ⟨by decide, printable_intercalate fun t ht => ?_, by decide⟩
    obtain ⟨v, hv, rfl⟩ := List.mem_map.1 ht
    exact ih v hv
  | @object ms _ ih =>
    rw [Value.chars_object]
    refine printable_recordChars fun m hm => ?_
    obtain ⟨m', hm', rfl⟩ := List.mem_map.1 hm
    exact ih m' hm'

end Printable

end TopicClient.Json
