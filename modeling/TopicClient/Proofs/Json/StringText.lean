import Mathlib.Data.Nat.Notation
import Mathlib.Tactic.IntervalCases
import TopicClient.Proofs.Json.Layout

/-!
# The text of a string

`StringText` says what may stand between the quotes of a string and which characters it spells.
`StringSyntax` is the same without a meaning: there a `\u` escape may be any unit, also half of a
surrogate pair alone. Strings are read, and passed over, from exactly these texts.
-/

namespace TopicClient.Json

def hexTable : List (Char × ℕ) :=
  [('0', 0), ('1', 1), ('2', 2), ('3', 3), ('4', 4), ('5', 5), ('6', 6), ('7', 7), ('8', 8),
    ('9', 9), ('a', 10), ('b', 11), ('c', 12), ('d', 13), ('e', 14), ('f', 15), ('A', 10),
    ('B', 11), ('C', 12), ('D', 13), ('E', 14), ('F', 15)]

inductive HexUnit : List Char → ℕ → Prop
  | mk {a b c d : Char} {x y z w : ℕ} (ha : (a, x) ∈ hexTable) (hb : (b, y) ∈ hexTable)
      (hc : (c, z) ∈ hexTable) (hd : (d, w) ∈ hexTable) :
      HexUnit [a, b, c, d] (((x * 16 + y) * 16 + z) * 16 + w)

/-- What a letter after a backslash stands for. -/
def escapeTable : List (Char × Char) :=
  [('"', '"'), ('\\', '\\'), ('/', '/'), ('b', '\x08'), ('f', '\x0c'), ('n', '\n'), ('r', '\r'),
    ('t', '\t')]

/-- What may follow a backslash, and the character it spells: a letter, a unit that is no
surrogate, or a pair of surrogates. -/
inductive EscapeText : List Char → Char → Prop
  | simple {c e : Char} (h : (c, e) ∈ escapeTable) : EscapeText [c] e
  | unit {u : List Char} {n : ℕ} (hu : HexUnit u n) (hn : n < 0xD800 ∨ 0xE000 ≤ n) :
      EscapeText ('u' :: u) (Char.ofNat n)
  | pair {u l : List Char} {n m : ℕ} (hu : HexUnit u n) (hn : 0xD800 ≤ n ∧ n < 0xDC00)
      (hl : HexUnit l m) (hm : 0xDC00 ≤ m ∧ m < 0xE000) :
      EscapeText ('u' :: (u ++ '\\' :: 'u' :: l))
        (Char.ofNat (0x10000 + (n - 0xD800) * 0x400 + (m - 0xDC00)))

structure IsPlain (c : Char) : Prop where
  le : 0x20 ≤ c.toNat
  ne_quote : c ≠ '"'
  ne_backslash : c ≠ '\\'

inductive StringText : List Char → List Char → Prop
  | nil : StringText [] []
  | plain {c : Char} {t cs : List Char} (hc : IsPlain c) (h : StringText t cs) :
      StringText (c :: t) (c :: cs)
  | escape {e t cs : List Char} {c : Char} (he : EscapeText e c) (h : StringText t cs) :
      StringText ('\\' :: (e ++ t)) (c :: cs)

inductive EscapeSyntax : List Char → Prop
  | simple {c e : Char} (h : (c, e) ∈ escapeTable) : EscapeSyntax [c]
  | unit {u : List Char} {n : ℕ} (hu : HexUnit u n) : EscapeSyntax ('u' :: u)

inductive StringSyntax : List Char → Prop
  | nil : StringSyntax []
  | plain {c : Char} {t : List Char} (hc : IsPlain c) (h : StringSyntax t) : StringSyntax (c :: t)
  | escape {e t : List Char} (he : EscapeSyntax e) (h : StringSyntax t) :
      StringSyntax ('\\' :: (e ++ t))

section Escapes

theorem hexValue_eq_some_iff {c : Char} {v : ℕ} : hexValue c = some v ↔ (c, v) ∈ hexTable := by
  constructor
  · intro h
    rw [hexValue] at h
    have hof : ∀ {a b : Char}, a ≤ c ∧ c ≤ b → a.toNat ≤ c.toNat ∧ c.toNat ≤ b.toNat := id
    split_ifs at h with h₁ h₂ h₃
    all_goals
      obtain rfl := Option.some.inj h
      rw [← Char.ofNat_toNat c]
    · obtain ⟨hlow, hhigh⟩ : 48 ≤ c.toNat ∧ c.toNat ≤ 57 := hof h₁
      generalize c.toNat = n at hlow hhigh
      interval_cases n <;> decide
    · obtain ⟨hlow, hhigh⟩ : 97 ≤ c.toNat ∧ c.toNat ≤ 102 := hof h₂
      generalize c.toNat = n at hlow hhigh
      interval_cases n <;> decide
    · obtain ⟨hlow, hhigh⟩ : 65 ≤ c.toNat ∧ c.toNat ≤ 70 := hof h₃
      generalize c.toNat = n at hlow hhigh
      interval_cases n <;> decide
  · have hall : ∀ p ∈ hexTable, hexValue p.1 = some p.2 := by decide
    exact fun h => hall _ h

theorem hexUnit?_eq_some_iff {u : List Char} {n : ℕ} : hexUnit? u = some n ↔ HexUnit u n := by
  constructor
  · intro h
    unfold hexUnit? at h
    split at h
    · simp only [Option.bind_eq_bind, Option.bind_eq_some_iff, hexValue_eq_some_iff] at h
      obtain ⟨x, ha, y, hb, z, hc, w, hd, h⟩ := h
      cases h
      exact .mk ha hb hc hd
    · cases h
  · rintro ⟨ha, hb, hc, hd⟩
    simp only [hexUnit?, hexValue_eq_some_iff.2 ha, hexValue_eq_some_iff.2 hb,
      hexValue_eq_some_iff.2 hc, hexValue_eq_some_iff.2 hd]
    rfl

theorem HexUnit.length_eq {u : List Char} {n : ℕ} (hu : HexUnit u n) : u.length = 4 := by
  cases hu
  rfl

theorem exists_unit_of_readHexUnit {s r : List Char} {n : ℕ} (h : readHexUnit s = .ok (n, r)) :
    ∃ u, HexUnit u n ∧ s = u ++ r := by
  rw [readHexUnit] at h
  split at h
  · rename_i m hm
    cases h
    exact ⟨s.take 4, hexUnit?_eq_some_iff.1 hm, (List.take_append_drop 4 s).symm⟩
  · split_ifs at h

theorem readHexUnit_append {u : List Char} {n : ℕ} (hu : HexUnit u n) (r : List Char) :
    readHexUnit (u ++ r) = .ok (n, r) := by
  have htake : (u ++ r).take 4 = u := List.take_left' hu.length_eq
  have hdrop : (u ++ r).drop 4 = r := List.drop_left' hu.length_eq
  rw [readHexUnit, htake, hexUnit?_eq_some_iff.2 hu, hdrop]

theorem simpleEscape_eq_some_iff {c e : Char} :
    simpleEscape c = some e ↔ (c, e) ∈ escapeTable := by
  constructor
  · intro h
    rw [simpleEscape] at h
    split_ifs at h with h₁ h₂ h₃ h₄ h₅ h₆
    · obtain rfl := Option.some.inj h
      rcases h₁ with rfl | rfl | rfl <;> decide
    all_goals
      obtain rfl := Option.some.inj h
      subst c
      decide
  · have hall : ∀ p ∈ escapeTable, simpleEscape p.1 = some p.2 := by decide
    exact fun h => hall _ h

theorem ne_u_of_mem_escapeTable {c e : Char} (h : (c, e) ∈ escapeTable) : c ≠ 'u' := by
  have hall : ∀ p ∈ escapeTable, p.1 ≠ 'u' := by decide
  exact hall _ h

theorem eq_cons_of_readBetweenSurrogates {c : Char} {s r : List Char}
    (h : readBetweenSurrogates c s = .ok r) : s = c :: r := by
  rw [readBetweenSurrogates.eq_def] at h
  split at h
  · cases h
  · split_ifs at h with hc
    cases h
    rw [hc]

theorem isLowSurrogate_iff {n : ℕ} : isLowSurrogate n = true ↔ 0xDC00 ≤ n ∧ n < 0xE000 := by
  rw [isLowSurrogate, Bool.and_eq_true, decide_eq_true_eq, decide_eq_true_eq]

theorem isHighSurrogate_iff {n : ℕ} : isHighSurrogate n = true ↔ 0xD800 ≤ n ∧ n < 0xDC00 := by
  rw [isHighSurrogate, Bool.and_eq_true, decide_eq_true_eq, decide_eq_true_eq]

theorem exists_escape_of_readUnicodeEscape {s r : List Char} {c : Char}
    (h : readUnicodeEscape s = .ok (c, r)) : ∃ t, EscapeText ('u' :: t) c ∧ s = t ++ r := by
  rw [readUnicodeEscape] at h
  obtain ⟨⟨n, s₁⟩, hn, hafter⟩ := exists_of_bind_eq_ok h
  obtain ⟨u, hu, rfl⟩ := exists_unit_of_readHexUnit hn
  simp only [isLowSurrogate_iff, isHighSurrogate_iff] at hafter
  split_ifs at hafter with hlow hhigh
  · obtain ⟨s₂, h₂, hpair⟩ := exists_of_bind_eq_ok hafter
    obtain ⟨s₃, h₃, hsecond⟩ := exists_of_bind_eq_ok hpair
    obtain ⟨⟨m, s₄⟩, hm, hlast⟩ := exists_of_bind_eq_ok hsecond
    obtain ⟨l, hl, rfl⟩ := exists_unit_of_readHexUnit hm
    obtain rfl := eq_cons_of_readBetweenSurrogates h₃
    obtain rfl := eq_cons_of_readBetweenSurrogates h₂
    split_ifs at hlast with hm'
    obtain ⟨rfl, rfl⟩ := Prod.mk.inj (Except.ok.inj hlast)
    refine ⟨_, .pair hu hhigh hl hm', ?_⟩
    simp only [List.append_assoc, List.cons_append]
  · cases hafter
    exact ⟨u, .unit hu (by omega), rfl⟩

theorem exists_escape_of_readEscape {s r : List Char} {c : Char}
    (h : readEscape s = .ok (c, r)) : ∃ t, EscapeText t c ∧ s = t ++ r := by
  rw [readEscape.eq_def] at h
  split at h
  · cases h
  · obtain ⟨t, ht, rfl⟩ := exists_escape_of_readUnicodeEscape h
    exact ⟨_, ht, rfl⟩
  · split at h
    · rename_i e he
      cases h
      exact ⟨_, .simple (simpleEscape_eq_some_iff.1 he), rfl⟩
    · cases h

theorem readEscape_append {t : List Char} {c : Char} (ht : EscapeText t c) (r : List Char) :
    readEscape (t ++ r) = .ok (c, r) := by
  cases ht with
  | simple h =>
    rw [List.singleton_append, readEscape.eq_def]
    split
    · rename_i hs
      cases hs
    · rename_i hs
      exact absurd (List.cons.inj hs).1 (ne_u_of_mem_escapeTable h)
    · rename_i hs
      obtain ⟨rfl, rfl⟩ := List.cons.inj hs
      rw [simpleEscape_eq_some_iff.2 h]
  | @unit u n hu hn =>
    have hlow : ¬ (0xDC00 ≤ n ∧ n < 0xE000) := by omega
    have hhigh : ¬ (0xD800 ≤ n ∧ n < 0xDC00) := by omega
    rw [List.cons_append, readEscape, readUnicodeEscape, readHexUnit_append hu, ok_bind]
    simp only [isLowSurrogate_iff, isHighSurrogate_iff, hlow, hhigh, if_false]
    rfl
  | @pair u l n m hu hn hl hm =>
    have hlow : ¬ (0xDC00 ≤ n ∧ n < 0xE000) := by omega
    rw [List.cons_append, List.append_assoc, readEscape, readUnicodeEscape,
      readHexUnit_append hu, ok_bind]
    simp only [isLowSurrogate_iff, isHighSurrogate_iff, hlow, hn, if_false, if_true,
      List.cons_append, readBetweenSurrogates, ok_bind, readHexUnit_append hl, hm, and_self]
    rfl

theorem exists_syntax_of_skipEscape {s r : List Char} (h : skipEscape s = .ok r) :
    ∃ t, EscapeSyntax t ∧ s = t ++ r := by
  rw [skipEscape.eq_def] at h
  split at h
  · cases h
  · obtain ⟨⟨n, s₁⟩, hn, h⟩ := exists_of_bind_eq_ok h
    cases h
    obtain ⟨u, hu, rfl⟩ := exists_unit_of_readHexUnit hn
    exact ⟨_, .unit hu, rfl⟩
  · split_ifs at h with hsome
    cases h
    obtain ⟨e, he⟩ := Option.isSome_iff_exists.1 hsome
    exact ⟨_, .simple (simpleEscape_eq_some_iff.1 he), rfl⟩

theorem skipEscape_append {t : List Char} (ht : EscapeSyntax t) (r : List Char) :
    skipEscape (t ++ r) = .ok r := by
  cases ht with
  | simple h =>
    rw [List.singleton_append, skipEscape.eq_def]
    split
    · rename_i hs
      cases hs
    · rename_i hs
      exact absurd (List.cons.inj hs).1 (ne_u_of_mem_escapeTable h)
    · rename_i hs
      obtain ⟨rfl, rfl⟩ := List.cons.inj hs
      rw [simpleEscape_eq_some_iff.2 h, Option.isSome_some, if_pos rfl]
  | unit hu =>
    rw [List.cons_append, skipEscape, readHexUnit_append hu]
    rfl

end Escapes

section Contents

variable {fuel : ℕ} {s r : List Char}

theorem readContent_cons_of_plain {c : Char} (hc : IsPlain c) (s : List Char) :
    readContent (fuel + 1) (c :: s) = do
      let (cs, r) ← readContent fuel s
      return (c :: cs, r) := by
  have hcontrol : ¬ c.toNat < 0x20 := Nat.not_lt_of_le hc.le
  rw [readContent, if_neg hcontrol]
  · intro h
    exact hc.ne_quote h
  · intro h
    exact hc.ne_backslash h

theorem isPlain_of_readContent {c : Char} {cs : List Char} (hq : c ≠ '"') (hb : c ≠ '\\')
    (h : readContent (fuel + 1) (c :: s) = .ok (cs, r)) : IsPlain c := by
  rw [readContent] at h
  · split_ifs at h with hcontrol
    exact ⟨Nat.le_of_not_lt hcontrol, hq, hb⟩
  · exact hq
  · exact hb

theorem exists_text_of_readContent {cs : List Char} (h : readContent fuel s = .ok (cs, r)) :
    ∃ t, StringText t cs ∧ s = t ++ '"' :: r := by
  induction fuel generalizing s cs with
  | zero => cases h
  | succ fuel ih =>
    cases s with
    | nil => cases h
    | cons c s =>
      by_cases hq : c = '"'
      · subst hq
        cases h
        exact ⟨[], .nil, rfl⟩
      · by_cases hb : c = '\\'
        · subst hb
          obtain ⟨⟨d, s₁⟩, hd, hrest⟩ := exists_of_bind_eq_ok h
          obtain ⟨⟨ds, s₂⟩, hds, heq⟩ := exists_of_bind_eq_ok hrest
          cases heq
          obtain ⟨e, he, rfl⟩ := exists_escape_of_readEscape hd
          obtain ⟨t, ht, rfl⟩ := ih hds
          exact ⟨_, .escape he ht, by rw [List.cons_append, List.append_assoc]⟩
        · have hc := isPlain_of_readContent hq hb h
          rw [readContent_cons_of_plain hc] at h
          obtain ⟨⟨ds, s₂⟩, hds, heq⟩ := exists_of_bind_eq_ok h
          cases heq
          obtain ⟨t, ht, rfl⟩ := ih hds
          exact ⟨_, .plain hc ht, rfl⟩

theorem readContent_append {t cs : List Char} (ht : StringText t cs) (hfuel : t.length < fuel)
    (r : List Char) : readContent fuel (t ++ '"' :: r) = .ok (cs, r) := by
  induction ht generalizing fuel with
  | nil =>
    cases fuel with
    | zero => cases hfuel
    | succ fuel => rfl
  | plain hc _ ih =>
    cases fuel with
    | zero => cases hfuel
    | succ fuel =>
      rw [List.cons_append, readContent_cons_of_plain hc, ih (Nat.lt_of_succ_lt_succ hfuel)]
      rfl
  | @escape e t cs c he _ ih =>
    cases fuel with
    | zero => cases hfuel
    | succ fuel =>
      have hlt : t.length < fuel := by
        simp only [List.length_cons, List.length_append] at hfuel
        omega
      rw [List.cons_append, List.append_assoc, readContent, readEscape_append he]
      simp only [ok_bind, ih hlt]
      rfl

/-- A string is read up to its closing quote, and only from a text that spells it. -/
theorem readString_eq_ok_iff {v : String} :
    readString s = .ok (v, r) ↔ ∃ t, StringText t v.toList ∧ s = t ++ '"' :: r := by
  constructor
  · intro h
    obtain ⟨⟨cs, r'⟩, hcs, heq⟩ := exists_of_bind_eq_ok h
    cases heq
    rw [String.toList_ofList]
    exact exists_text_of_readContent hcs
  · rintro ⟨t, ht, rfl⟩
    have hlt : t.length < (t ++ '"' :: r).length + 1 := by
      rw [List.length_append]
      omega
    rw [readString, readContent_append ht hlt]
    simp only [ok_bind, String.ofList_toList]
    rfl

theorem skipContent_cons_of_plain {c : Char} (hc : IsPlain c) (s : List Char) :
    skipContent (fuel + 1) (c :: s) = skipContent fuel s := by
  rw [skipContent, if_neg (Nat.not_lt_of_le hc.le)]
  · exact hc.ne_quote
  · exact hc.ne_backslash

theorem isPlain_of_skipContent {c : Char} (hq : c ≠ '"') (hb : c ≠ '\\')
    (h : skipContent (fuel + 1) (c :: s) = .ok r) : IsPlain c := by
  rw [skipContent] at h
  · split_ifs at h with hcontrol
    exact ⟨Nat.le_of_not_lt hcontrol, hq, hb⟩
  · exact hq
  · exact hb

theorem exists_syntax_of_skipContent (h : skipContent fuel s = .ok r) :
    ∃ t, StringSyntax t ∧ s = t ++ '"' :: r := by
  induction fuel generalizing s with
  | zero => cases h
  | succ fuel ih =>
    cases s with
    | nil => cases h
    | cons c s =>
      by_cases hq : c = '"'
      · subst hq
        cases h
        exact ⟨[], .nil, rfl⟩
      · by_cases hb : c = '\\'
        · subst hb
          obtain ⟨s₁, hs₁, hrest⟩ := exists_of_bind_eq_ok h
          obtain ⟨e, he, rfl⟩ := exists_syntax_of_skipEscape hs₁
          obtain ⟨t, ht, rfl⟩ := ih hrest
          exact ⟨_, .escape he ht, by rw [List.cons_append, List.append_assoc]⟩
        · have hc := isPlain_of_skipContent hq hb h
          rw [skipContent_cons_of_plain hc] at h
          obtain ⟨t, ht, rfl⟩ := ih h
          exact ⟨_, .plain hc ht, rfl⟩

theorem skipContent_append {t : List Char} (ht : StringSyntax t) (hfuel : t.length < fuel)
    (r : List Char) : skipContent fuel (t ++ '"' :: r) = .ok r := by
  induction ht generalizing fuel with
  | nil =>
    cases fuel with
    | zero => cases hfuel
    | succ fuel => rfl
  | plain hc _ ih =>
    cases fuel with
    | zero => cases hfuel
    | succ fuel =>
      rw [List.cons_append, skipContent_cons_of_plain hc, ih (Nat.lt_of_succ_lt_succ hfuel)]
  | @escape e t he _ ih =>
    cases fuel with
    | zero => cases hfuel
    | succ fuel =>
      have hlt : t.length < fuel := by
        simp only [List.length_cons, List.length_append] at hfuel
        omega
      rw [List.cons_append, List.append_assoc, skipContent, skipEscape_append he, ok_bind,
        ih hlt]

theorem skipString_eq_ok_iff :
    skipString s = .ok r ↔ ∃ t, StringSyntax t ∧ s = t ++ '"' :: r := by
  constructor
  · exact exists_syntax_of_skipContent
  · rintro ⟨t, ht, rfl⟩
    refine skipContent_append ht ?_ r
    rw [List.length_append]
    omega

end Contents

end TopicClient.Json
