import Mathlib.Data.Int.Notation
import Mathlib.Data.Nat.Notation
import TopicClient.Proofs.Json.Layout

/-!
# The text of a number

`NumeralText` says which texts spell a numeral: an optional minus sign, digits that begin with a
zero only if it stands alone, and an optional fraction and exponent. A numeral is read from exactly
these texts, where nothing follows that could belong to it. `IntegerText` are those of the integers
between two bounds, without fraction and exponent; `NaturalText` those without a sign, too.
-/

namespace TopicClient.Json

structure Digits (ds : List Char) : Prop where
  ne_nil : ds ≠ []
  all : ∀ c ∈ ds, isDigit c = true

structure WholeText (ds : List Char) : Prop where
  digits : Digits ds
  /-- A zero at the start stands alone. -/
  zero_alone : ds.head? = some '0' → ds = ['0']

inductive SignText : List Char → Bool → Prop
  | none : SignText [] false
  | minus : SignText ['-'] true

inductive FractionText : List Char → Option (List Char) → Prop
  | none : FractionText [] none
  | some {ds : List Char} (hd : Digits ds) : FractionText ('.' :: ds) (some ds)

inductive ExponentSignText : List Char → Bool → Prop
  | none : ExponentSignText [] false
  | plus : ExponentSignText ['+'] false
  | minus : ExponentSignText ['-'] true

inductive ExponentText : List Char → Option (Bool × List Char) → Prop
  | none : ExponentText [] none
  | some {c : Char} {g ds : List Char} {negative : Bool} (hc : c = 'e' ∨ c = 'E')
      (hg : ExponentSignText g negative) (hd : Digits ds) :
      ExponentText (c :: (g ++ ds)) (some (negative, ds))

inductive NumeralText : List Char → Numeral → Prop
  | mk {g w f e : List Char} {negative : Bool} {fraction : Option (List Char)}
      {exponent : Option (Bool × List Char)} (hg : SignText g negative) (hw : WholeText w)
      (hf : FractionText f fraction) (he : ExponentText e exponent) :
      NumeralText (g ++ (w ++ (f ++ e))) ⟨negative, w, fraction, exponent⟩

def decimal (ds : List Char) : ℕ := ds.foldl (fun v d => v * 10 + digitValue d) 0

/-- A number up to a limit, written in digits alone. -/
def NaturalText (limit : ℕ) (t : List Char) (n : ℕ) : Prop :=
  WholeText t ∧ n = decimal t ∧ n ≤ limit

/-- An integer between two bounds, in digits and perhaps with a sign. There is no negative zero. -/
inductive IntegerText (low high : ℤ) : List Char → ℤ → Prop
  | natural {w : List Char} (hw : WholeText w) (hlow : low ≤ decimal w) (hhigh : decimal w ≤ high) :
      IntegerText low high w (decimal w)
  | negative {w : List Char} (hw : WholeText w) (hpos : 0 < decimal w)
      (hlow : low ≤ -(decimal w : ℤ)) (hhigh : -(decimal w : ℤ) ≤ high) :
      IntegerText low high ('-' :: w) (-(decimal w : ℤ))

def NoDigit (r : List Char) : Prop := ∀ c ∈ r.head?, isDigit c = false

section Digits

variable {ds r : List Char}

theorem NoDigit.takeWhile_eq (hr : NoDigit r) : r.takeWhile isDigit = [] := by
  cases r with
  | nil => rfl
  | cons c r => rw [List.takeWhile_cons, hr c rfl, if_neg Bool.false_ne_true]

theorem NoDigit.dropWhile_eq (hr : NoDigit r) : r.dropWhile isDigit = r := by
  cases r with
  | nil => rfl
  | cons c r => rw [List.dropWhile_cons, hr c rfl, if_neg Bool.false_ne_true]

theorem Digits.takeWhile_append (hd : Digits ds) (hr : NoDigit r) :
    (ds ++ r).takeWhile isDigit = ds := by
  rw [List.takeWhile_append_of_pos hd.all, hr.takeWhile_eq, List.append_nil]

theorem Digits.dropWhile_append (hd : Digits ds) (hr : NoDigit r) :
    (ds ++ r).dropWhile isDigit = r := by
  rw [List.dropWhile_append_of_pos hd.all, hr.dropWhile_eq]

theorem Digits.exists_eq_cons (hd : Digits ds) : ∃ c ds', ds = c :: ds' ∧ isDigit c = true := by
  cases ds with
  | nil => exact absurd rfl hd.ne_nil
  | cons c ds => exact ⟨c, ds, rfl, hd.all c List.mem_cons_self⟩

theorem digits_takeWhile {s : List Char} (h : s.takeWhile isDigit ≠ []) :
    Digits (s.takeWhile isDigit) :=
  ⟨h, List.all_eq_true.1 List.all_takeWhile⟩

theorem ne_of_isDigit {c d : Char} (hc : isDigit c = true) (hd : isDigit d = false) : c ≠ d := by
  rintro rfl
  rw [hc] at hd
  cases hd

theorem noDigit_of_ends (hr : Ends r) : NoDigit r := by
  intro c hc
  rcases hr c hc with hb | rfl | rfl | rfl
  · simp only [isBlank, Bool.or_eq_true, decide_eq_true_eq] at hb
    rcases hb with ((rfl | rfl) | rfl) | rfl <;> rfl
  · rfl
  · rfl
  · rfl

end Digits

namespace Numeral

section Reading

variable {atEnd : Cause} {s r : List Char}

theorem exists_whole_of_read {w : List Char} (h : readWhole atEnd s = .ok (w, r)) :
    WholeText w ∧ s = w ++ r := by
  rw [readWhole] at h
  split at h
  · cases h
  · cases h
  · rename_i hne hzero
    cases h
    refine ⟨⟨digits_takeWhile hne, ?_⟩, List.takeWhile_append_dropWhile.symm⟩
    intro hhead
    cases hds : s.takeWhile isDigit with
    | nil => exact absurd hds hne
    | cons d ds =>
      rw [hds] at hhead
      obtain rfl := Option.some.inj hhead
      cases ds with
      | nil => rfl
      | cons d' ds => exact absurd hds (hzero d' ds)

theorem readWhole_append {w : List Char} (hw : WholeText w) (hr : NoDigit r) :
    readWhole atEnd (w ++ r) = .ok (w, r) := by
  rw [readWhole, hw.digits.takeWhile_append hr, hw.digits.dropWhile_append hr]
  split
  · exact absurd rfl hw.digits.ne_nil
  · cases hw.zero_alone rfl
  · rfl

theorem exists_fraction_of_read {f : Option (List Char)}
    (h : readFraction atEnd s = .ok (f, r)) : ∃ t, FractionText t f ∧ s = t ++ r := by
  rw [readFraction.eq_def] at h
  split at h
  · rename_i s'
    split at h
    · cases h
    · rename_i hne
      cases h
      refine ⟨_, .some (digits_takeWhile hne), ?_⟩
      rw [List.cons_append, List.takeWhile_append_dropWhile]
  · cases h
    exact ⟨[], .none, rfl⟩

theorem readFraction_append {t : List Char} {f : Option (List Char)} (ht : FractionText t f)
    (hr : NoDigit r) (hdot : r.head? ≠ some '.') : readFraction atEnd (t ++ r) = .ok (f, r) := by
  cases ht with
  | none =>
    rw [List.nil_append, readFraction.eq_def]
    split
    · exact absurd rfl hdot
    · rfl
  | some hd =>
    rw [List.cons_append, readFraction, hd.takeWhile_append hr, hd.dropWhile_append hr]
    split
    · exact absurd rfl hd.ne_nil
    · rfl

/-- A text from which the sign of an exponent has been taken. -/
def Unsigned (s : List Char) : Prop := ∀ c ∈ s.head?, c ≠ '+' ∧ c ≠ '-'

theorem unsigned_of_digits {ds : List Char} (hd : Digits ds) (r : List Char) :
    Unsigned (ds ++ r) := by
  obtain ⟨d, ds', rfl, hdigit⟩ := hd.exists_eq_cons
  rintro c ⟨⟩
  exact ⟨ne_of_isDigit hdigit rfl, ne_of_isDigit hdigit rfl⟩

theorem exists_exponentSign (s : List Char) :
    ∃ g negative u, ExponentSignText g negative ∧ (g = [] → Unsigned u) ∧ s = g ++ u := by
  by_cases hs : Unsigned s
  · exact ⟨[], false, s, .none, fun _ => hs, rfl⟩
  · cases s with
    | nil => exact absurd nofun hs
    | cons c s =>
      by_cases hplus : c = '+'
      · exact ⟨['+'], false, s, .plus, nofun, by rw [hplus]; rfl⟩
      · by_cases hminus : c = '-'
        · exact ⟨['-'], true, s, .minus, nofun, by rw [hminus]; rfl⟩
        · refine absurd ?_ hs
          rintro d ⟨⟩
          exact ⟨hplus, hminus⟩

theorem readExponent_append {g u : List Char} {negative : Bool}
    (hg : ExponentSignText g negative) (hu : g = [] → Unsigned u) :
    readExponent atEnd (g ++ u) =
      match u.takeWhile isDigit with
      | [] => .error (digitExpected atEnd u)
      | ds => .ok ((negative, ds), u.dropWhile isDigit) := by
  cases hg with
  | plus => rfl
  | minus => rfl
  | none =>
    cases u with
    | nil => rfl
    | cons c u =>
      obtain ⟨hplus, hminus⟩ := hu rfl c rfl
      cases hdigits : (c :: u).takeWhile isDigit with
      | nil => simp [readExponent, hplus, hminus, hdigits]
      | cons d ds => simp [readExponent, hplus, hminus, hdigits]

theorem exists_exponent_of_readExponent {negative : Bool} {ds : List Char}
    (h : readExponent atEnd s = .ok ((negative, ds), r)) :
    ∃ g, ExponentSignText g negative ∧ Digits ds ∧ s = g ++ (ds ++ r) := by
  obtain ⟨g, n, u, hg, hu, rfl⟩ := exists_exponentSign s
  rw [readExponent_append hg hu] at h
  split at h
  · cases h
  · rename_i hne
    cases h
    refine ⟨g, hg, digits_takeWhile hne, ?_⟩
    rw [List.takeWhile_append_dropWhile]

theorem exists_exponent_of_read {e : Option (Bool × List Char)}
    (h : readOptionalExponent atEnd s = .ok (e, r)) : ∃ t, ExponentText t e ∧ s = t ++ r := by
  have hsome : ∀ {c : Char} {u ds : List Char} {negative : Bool}, c = 'e' ∨ c = 'E' →
      readExponent atEnd u = .ok ((negative, ds), r) →
      ∃ t, ExponentText t (some (negative, ds)) ∧ c :: u = t ++ r := by
    intro c u ds negative hc hread
    obtain ⟨g, hg, hd, rfl⟩ := exists_exponent_of_readExponent hread
    exact ⟨_, .some hc hg hd, by rw [List.cons_append, List.append_assoc]⟩
  rw [readOptionalExponent.eq_def] at h
  split at h
  · obtain ⟨⟨⟨negative, ds⟩, r'⟩, hread, h⟩ := exists_of_bind_eq_ok h
    cases h
    exact hsome (.inl rfl) hread
  · obtain ⟨⟨⟨negative, ds⟩, r'⟩, hread, h⟩ := exists_of_bind_eq_ok h
    cases h
    exact hsome (.inr rfl) hread
  · cases h
    exact ⟨[], .none, rfl⟩

theorem readOptionalExponent_append {t : List Char} {e : Option (Bool × List Char)}
    (ht : ExponentText t e) (hr : Ends r) : readOptionalExponent atEnd (t ++ r) = .ok (e, r) := by
  cases ht with
  | none =>
    rw [List.nil_append, readOptionalExponent.eq_def]
    split
    · exact absurd (hr 'e' rfl) (by decide)
    · exact absurd (hr 'E' rfl) (by decide)
    · rfl
  | @some c g ds negative hc hg hd =>
    have hnd := noDigit_of_ends hr
    have hread : readExponent atEnd (g ++ (ds ++ r)) = .ok ((negative, ds), r) := by
      rw [readExponent_append hg fun _ => unsigned_of_digits hd r, hd.takeWhile_append hnd,
        hd.dropWhile_append hnd]
      split
      · exact absurd rfl hd.ne_nil
      · rfl
    rcases hc with rfl | rfl
    · rw [List.cons_append, List.append_assoc, readOptionalExponent, hread]
      rfl
    · rw [List.cons_append, List.append_assoc, readOptionalExponent, hread]
      rfl

theorem exists_text_of_read {n : Numeral} (h : read atEnd s = .ok (n, r)) :
    ∃ t, NumeralText t n ∧ s = t ++ r := by
  rw [read] at h
  obtain ⟨⟨w, s₁⟩, hw, h⟩ := exists_of_bind_eq_ok h
  obtain ⟨⟨f, s₂⟩, hf, h⟩ := exists_of_bind_eq_ok h
  obtain ⟨⟨e, s₃⟩, he, h⟩ := exists_of_bind_eq_ok h
  cases h
  obtain ⟨hwhole, hs⟩ := exists_whole_of_read hw
  obtain ⟨ft, hft, rfl⟩ := exists_fraction_of_read hf
  obtain ⟨et, het, rfl⟩ := exists_exponent_of_read he
  obtain ⟨g, hg, hgs⟩ : ∃ g, SignText g (sign s).1 ∧ s = g ++ (sign s).2 := by
    unfold sign
    split
    · exact ⟨_, .minus, rfl⟩
    · exact ⟨_, .none, rfl⟩
  have hrest : (sign s).2 = w ++ (ft ++ (et ++ r)) := hs
  refine ⟨_, .mk hg hwhole hft het, ?_⟩
  rw [hgs, hrest]
  simp only [List.append_assoc]

theorem read_append {t : List Char} {n : Numeral} (ht : NumeralText t n) (hr : Ends r) :
    read atEnd (t ++ r) = .ok (n, r) := by
  cases ht with
  | @mk g w f e negative fraction exponent hg hw hf he =>
    have hexponent : NoDigit (e ++ r) ∧ (e ++ r).head? ≠ some '.' := by
      cases he with
      | none =>
        refine ⟨noDigit_of_ends hr, fun hdot => ?_⟩
        exact absurd (hr '.' hdot) (by decide)
      | some hc _ _ => rcases hc with rfl | rfl <;> exact ⟨by rintro c ⟨⟩; rfl, nofun⟩
    have hfraction : NoDigit (f ++ (e ++ r)) := by
      cases hf with
      | none => exact hexponent.1
      | some _ => rintro c ⟨⟩; rfl
    have hsign : sign (g ++ (w ++ (f ++ (e ++ r)))) = (negative, w ++ (f ++ (e ++ r))) := by
      cases hg with
      | minus => rfl
      | none =>
        obtain ⟨c, w', rfl, hc⟩ := hw.digits.exists_eq_cons
        unfold sign
        split
        · rename_i h
          exact absurd (List.cons.inj h).1 (ne_of_isDigit hc rfl)
        · rfl
    simp only [List.append_assoc]
    rw [read, hsign]
    simp only [readWhole_append hw hfraction, readFraction_append hf hexponent.1 hexponent.2,
      readOptionalExponent_append he hr, ok_bind]
    rfl

end Reading

section Value

variable {n : Numeral} {i : Integer}

theorem wholeValue_eq (n : Numeral) :
    n.wholeValue = if n.negative then -(decimal n.whole : ℤ) else decimal n.whole := by
  have hcast : ∀ (ds : List Char) (v : ℕ),
      ds.foldl (fun (x : ℤ) d => x * 10 + digitValue d) v =
        (ds.foldl (fun x d => x * 10 + digitValue d) v : ℕ) := by
    intro ds
    induction ds with
    | nil => exact fun v => rfl
    | cons d ds ih =>
      intro v
      rw [List.foldl_cons, List.foldl_cons, ← ih]
      push_cast
      rfl
  rw [wholeValue, hcast, decimal]

theorem integer?_eq_some_iff :
    n.integer? = some i ↔ n.fraction = none ∧ n.exponent = none ∧
      ¬ (n.negative = true ∧ n.wholeValue = 0) ∧ i.val = n.wholeValue := by
  have hof : Integer.ofInt? n.wholeValue = some i ↔ i.val = n.wholeValue := by
    constructor
    · intro h
      rw [Integer.ofInt?] at h
      split_ifs at h
      cases h
      rfl
    · intro h
      rw [← h, Integer.ofInt?_val]
  rw [integer?]
  split_ifs with h
  · obtain ⟨hf, he, hz⟩ := h
    rw [hof, Option.isNone_iff_eq_none.1 hf, Option.isNone_iff_eq_none.1 he]
    exact ⟨fun hi => ⟨rfl, rfl, hz, hi⟩, fun hi => hi.2.2.2⟩
  · refine ⟨False.elim, ?_⟩
    rintro ⟨hf, he, hz, _⟩
    exact absurd ⟨Option.isNone_iff_eq_none.2 hf, Option.isNone_iff_eq_none.2 he, hz⟩ h

theorem value_eq_integer_iff : n.value = .ok (.integer i) ↔ n.integer? = some i := by
  rw [value]
  cases hn : n.integer? with
  | some j => simp
  | none =>
    cases n.floatValue with
    | ok x => exact ⟨nofun, nofun⟩
    | error ds => exact ⟨nofun, nofun⟩

end Value

end Numeral

/-- Of the numerals, those without fraction and exponent stand for integers. -/
theorem integerText_iff {low high : ℤ} (hlow : -9223372036854775808 ≤ low)
    (hhigh : high < 18446744073709551616) {t : List Char} {v : ℤ} :
    IntegerText low high t v ↔
      ∃ n i, NumeralText t n ∧ n.value = .ok (.integer i) ∧ i.val = v ∧ low ≤ v ∧ v ≤ high := by
  simp only [Numeral.value_eq_integer_iff, Numeral.integer?_eq_some_iff, Numeral.wholeValue_eq]
  constructor
  · intro h
    cases h with
    | natural hw hl hh =>
      have htext := NumeralText.mk .none hw .none .none
      rw [List.nil_append, List.nil_append, List.append_nil] at htext
      exact ⟨_, ⟨(decimal t : ℤ), by omega, by omega⟩, htext,
        ⟨rfl, rfl, fun h => Bool.false_ne_true h.1, rfl⟩, rfl, hl, hh⟩
    | @negative w hw hpos hl hh =>
      have htext := NumeralText.mk .minus hw .none .none
      rw [List.nil_append, List.append_nil, List.singleton_append] at htext
      have hnonzero : -(decimal w : ℤ) ≠ 0 := by omega
      exact ⟨_, ⟨-(decimal w : ℤ), by omega, by omega⟩, htext,
        ⟨rfl, rfl, fun h => hnonzero h.2, rfl⟩, rfl, hl, hh⟩
  · rintro ⟨n, i, ht, ⟨hfraction, hexponent, hzero, hval⟩, hv, hl, hh⟩
    cases ht with
    | @mk g w f e negative fraction exponent hg hw hf he =>
      obtain rfl : fraction = none := hfraction
      obtain rfl : exponent = none := hexponent
      cases hf
      cases he
      rw [List.nil_append, List.append_nil]
      cases hg with
      | none =>
        simp only [Bool.false_eq_true, if_false] at hval
        rw [List.nil_append]
        obtain rfl : v = decimal w := by omega
        exact .natural hw hl hh
      | minus =>
        simp only [if_true, true_and] at hval hzero
        rw [List.singleton_append]
        obtain rfl : v = -(decimal w : ℤ) := by omega
        exact .negative hw (by omega) hl hh

theorem integerText_zero_iff {limit : ℕ} {t : List Char} {v : ℤ} :
    IntegerText 0 limit t v ↔ 0 ≤ v ∧ NaturalText limit t v.toNat := by
  constructor
  · intro h
    cases h with
    | natural hw hlow hhigh => exact ⟨hlow, hw, rfl, by omega⟩
    | negative hw hpos hlow hhigh => omega
  · rintro ⟨hv, hw, heq, hle⟩
    obtain rfl : v = decimal t := by omega
    exact .natural hw hv (by omega)

end TopicClient.Json
