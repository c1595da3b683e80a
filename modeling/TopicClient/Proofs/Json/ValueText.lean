import Mathlib.Data.List.Forall2
import TopicClient.Proofs.Json.NumberText
import TopicClient.Proofs.Json.StringText

/-!
# The text of a value

`ValueText n` says which texts spell which values with at most `n` arrays and objects nested in
one another. `Reads` ties a reader to such a language: it takes a text of the language off the
front of any text in which that one ends, and nothing else. `reads_readValue` says this of the
reader of values.
-/

namespace TopicClient.Json

/-- A language of texts, each with what it spells. -/
abbrev Spelling (α : Type) := List Char → α → Prop

def ArrayText (ts : List (List Char)) (s : List Char) : Prop :=
  ∃ u, Items ']' true ts u ∧ s = '[' :: u

inductive MemberText {κ : Type} (key : Spelling κ) : κ × List Char → List Char → Prop
  | mk {k : κ} {t b b' v : List Char} (hk : key t k) (hb : Blanks b) (hb' : Blanks b') :
      MemberText key (k, v) ('"' :: (t ++ '"' :: (b ++ ':' :: (b' ++ v))))

def ObjectText {κ : Type} (key : Spelling κ) (ms : List (κ × List Char)) (s : List Char) : Prop :=
  ∃ ts u, Items '\x7d' true ts u ∧ List.Forall₂ (MemberText key) ms ts ∧ s = '\x7b' :: u

def KeyText : Spelling String := fun t k => StringText t k.toList

inductive ScalarText : Spelling Value
  | null : ScalarText ['n', 'u', 'l', 'l'] .null
  | true : ScalarText ['t', 'r', 'u', 'e'] (.bool true)
  | false : ScalarText ['f', 'a', 'l', 's', 'e'] (.bool false)
  | number {t : List Char} {n : Numeral} {x : Number} (ht : NumeralText t n)
      (hx : n.value = .ok x) : ScalarText t (.number x)
  | string {t : List Char} {v : String} (ht : KeyText t v) :
      ScalarText ('"' :: (t ++ ['"'])) (.string v)

inductive CompoundText (inner : Spelling Value) : Spelling Value
  | array {ts : List (List Char)} {s : List Char} {vs : List Value} (hs : ArrayText ts s)
      (hv : List.Forall₂ inner ts vs) : CompoundText inner s (.array vs)
  | object {ms : List (String × List Char)} {s : List Char} {vs : List (String × Value)}
      (hs : ObjectText KeyText ms s)
      (hv : List.Forall₂ (fun m v => m.1 = v.1 ∧ inner m.2 v.2) ms vs) :
      CompoundText inner s (.ofMembers vs)

/-- A value in which at most so many arrays and objects are nested. -/
def ValueText : ℕ → Spelling Value
  | 0 => ScalarText
  | n + 1 => fun t v => ScalarText t v ∨ CompoundText (ValueText n) t v

/-- A reader takes the texts of a language, with blanks before them, off the front of a text. -/
structure Reads {α : Type} (item : Reader α) (L : Spelling α) : Prop where
  sound : ∀ {s v r}, item s = .ok (v, r) → ∃ b t, Blanks b ∧ L t v ∧ s = b ++ (t ++ r)
  complete : ∀ {b t v r}, Blanks b → L t v → Ends r → item (b ++ (t ++ r)) = .ok (v, r)
  begins : ∀ {t v}, L t v → Begins t

section Sequences

variable {α : Type} {item : Reader α} {L : Spelling α} {fuel : ℕ} {first : Bool}
  {s u r : List Char} {ts : List (List Char)}

theorem Blanks.append {b b' : List Char} (hb : Blanks b) (hb' : Blanks b') : Blanks (b ++ b') := by
  intro c hc
  rcases List.mem_append.1 hc with hc | hc
  · exact hb c hc
  · exact hb' c hc

theorem Separator.append_blanks {p b : List Char} (hp : Separator first p) (hb : Blanks b) :
    Separator first (p ++ b) := by
  cases hp with
  | first hb₁ => exact .first (hb₁.append hb)
  | next hb₁ hb₂ =>
    rw [List.append_assoc, List.cons_append]
    exact .next hb₁ (hb₂.append hb)

theorem exists_items_of_readElements (hi : Reads item L) {vs : List α}
    (h : readElements item fuel first s = .ok (vs, r)) :
    ∃ ts u, Items ']' first ts u ∧ List.Forall₂ L ts vs ∧ s = u ++ r := by
  induction fuel generalizing first s vs with
  | zero => cases h
  | succ fuel ih =>
    obtain ⟨next, hnext, hrest⟩ := exists_of_bind_eq_ok h
    cases next with
    | close r' =>
      cases hrest
      obtain ⟨b, hb, rfl⟩ := eq_of_nextElement_eq_close hnext
      exact ⟨[], _, .close hb, .nil, by rw [List.append_assoc]; rfl⟩
    | item s₁ =>
      obtain ⟨⟨v, s₂⟩, hv, htail⟩ := exists_of_bind_eq_ok hrest
      obtain ⟨⟨vs', r'⟩, hvs, heq⟩ := exists_of_bind_eq_ok htail
      cases heq
      obtain ⟨p, hp, rfl⟩ := exists_separator_of_nextElement hnext
      obtain ⟨b, t, hb, ht, rfl⟩ := hi.sound hv
      obtain ⟨ts, u, hu, hts, rfl⟩ := ih hvs
      exact ⟨t :: ts, _, .item (hp.append_blanks hb) hu, .cons ht hts,
        by simp only [List.append_assoc]⟩

theorem readElements_append (hi : Reads item L) {vs : List α} (hu : Items ']' first ts u)
    (hv : List.Forall₂ L ts vs) (hfuel : ts.length < fuel) (r : List Char) :
    readElements item fuel first (u ++ r) = .ok (vs, r) := by
  induction hu generalizing vs fuel with
  | close hb =>
    cases hv
    cases fuel with
    | zero => cases hfuel
    | succ fuel =>
      rw [List.append_assoc, List.singleton_append, readElements, nextElement_close hb]
      rfl
  | @item first p t u ts hp hu ih =>
    cases hv with
    | cons ht hts =>
      cases fuel with
      | zero => cases hfuel
      | succ fuel =>
        have hitem : item (t ++ (u ++ r)) = .ok (_, u ++ r) :=
          hi.complete blanks_nil ht (hu.ends (.inl rfl) r)
        rw [List.append_assoc, List.append_assoc, readElements,
          nextElement_item hp (hi.begins ht), ok_bind]
        simp only [hitem, ok_bind, ih hts (Nat.lt_of_succ_lt_succ hfuel)]
        rfl

theorem exists_items_of_readMembers (hi : Reads item L) {vs : List (String × α)}
    (h : readMembers (fun _ => item) fuel first s = .ok (vs, r)) :
    ∃ ms ts u, Items '\x7d' first ts u ∧ List.Forall₂ (MemberText KeyText) ms ts ∧
      List.Forall₂ (fun m v => m.1 = v.1 ∧ L m.2 v.2) ms vs ∧ s = u ++ r := by
  induction fuel generalizing first s vs with
  | zero => cases h
  | succ fuel ih =>
    obtain ⟨next, hnext, hrest⟩ := exists_of_bind_eq_ok h
    cases next with
    | close r' =>
      cases hrest
      obtain ⟨b, hb, rfl⟩ := eq_of_nextKey_eq_close hnext
      exact ⟨[], [], _, .close hb, .nil, .nil, by rw [List.append_assoc]; rfl⟩
    | item s₁ =>
      obtain ⟨⟨k, s₂⟩, hk, h₂⟩ := exists_of_bind_eq_ok hrest
      obtain ⟨s₃, hcolon, h₃⟩ := exists_of_bind_eq_ok h₂
      obtain ⟨⟨v, s₄⟩, hv, h₄⟩ := exists_of_bind_eq_ok h₃
      obtain ⟨⟨vs', r'⟩, hvs, heq⟩ := exists_of_bind_eq_ok h₄
      cases heq
      obtain ⟨p, hp, rfl⟩ := exists_separator_of_nextKey hnext
      obtain ⟨kt, hkt, rfl⟩ := readString_eq_ok_iff.1 hk
      obtain ⟨b, hb, rfl⟩ := exists_blanks_of_readColon hcolon
      obtain ⟨b', t, hb', ht, rfl⟩ := hi.sound hv
      obtain ⟨ms, ts, u, hu, hms, hvals, rfl⟩ := ih hvs
      refine ⟨(k, t) :: ms, _, _, .item hp hu, .cons (.mk hkt hb hb') hms, .cons ⟨rfl, ht⟩ hvals,
        ?_⟩
      simp only [List.append_assoc, List.cons_append]

theorem readMembers_append (hi : Reads item L) {ms : List (String × List Char)}
    {vs : List (String × α)} (hu : Items '\x7d' first ts u)
    (hms : List.Forall₂ (MemberText KeyText) ms ts)
    (hv : List.Forall₂ (fun m v => m.1 = v.1 ∧ L m.2 v.2) ms vs) (hfuel : ts.length < fuel)
    (r : List Char) : readMembers (fun _ => item) fuel first (u ++ r) = .ok (vs, r) := by
  induction hu generalizing ms vs fuel with
  | close hb =>
    cases hms
    cases hv
    cases fuel with
    | zero => cases hfuel
    | succ fuel =>
      rw [List.append_assoc, List.singleton_append, readMembers, nextKey_close hb]
      rfl
  | @item first p m u ts hp hu ih =>
    cases hms with
    | cons hm hms =>
      cases hm with
      | @mk k kt b b' t hk hb hb' =>
        cases hv with
        | @cons _ v _ vs hkv hvs =>
          obtain ⟨rfl, ht⟩ := hkv
          cases fuel with
          | zero => cases hfuel
          | succ fuel =>
            have hkey : readString (kt ++ '"' :: (b ++ ':' :: (b' ++ (t ++ (u ++ r))))) =
                .ok (v.1, b ++ ':' :: (b' ++ (t ++ (u ++ r)))) :=
              readString_eq_ok_iff.2 ⟨kt, hk, rfl⟩
            have hitem : item (b' ++ (t ++ (u ++ r))) = .ok (v.2, u ++ r) :=
              hi.complete hb' ht (hu.ends (.inr rfl) r)
            simp only [List.append_assoc, List.cons_append]
            rw [readMembers, nextKey_item hp, ok_bind]
            simp only [hkey, readColon_append hb, hitem, ok_bind,
              ih hms hvs (Nat.lt_of_succ_lt_succ hfuel)]
            rfl

end Sequences

section Values

variable {depth : ℕ} {s t r : List Char} {v : Value}

theorem NumeralText.exists_eq_cons {n : Numeral} (ht : NumeralText t n) :
    ∃ c t', t = c :: t' ∧ (c = '-' ∨ isDigit c = true) := by
  cases ht with
  | @mk g w f e _ _ _ hg hw hf he =>
    cases hg with
    | minus => exact ⟨'-', _, rfl, .inl rfl⟩
    | none =>
      obtain ⟨c, w', rfl, hc⟩ := hw.digits.exists_eq_cons
      exact ⟨c, _, rfl, .inr hc⟩

theorem begins_of_isDigit {c : Char} (hc : c = '-' ∨ isDigit c = true) (s : List Char) :
    Begins (c :: s) := by
  refine ⟨c, s, rfl, ?_⟩
  rcases hc with rfl | hc
  · decide
  · refine ⟨?_, ne_of_isDigit hc rfl, ne_of_isDigit hc rfl⟩
    rw [Bool.eq_false_iff]
    intro hb
    simp only [isBlank, Bool.or_eq_true, decide_eq_true_eq] at hb
    rcases hb with ((rfl | rfl) | rfl) | rfl <;> cases hc

theorem ScalarText.begins (h : ScalarText t v) : Begins t := by
  cases h with
  | null => exact ⟨_, _, rfl, by decide⟩
  | true => exact ⟨_, _, rfl, by decide⟩
  | false => exact ⟨_, _, rfl, by decide⟩
  | string => exact ⟨_, _, rfl, by decide⟩
  | number ht =>
    obtain ⟨c, t', rfl, hc⟩ := ht.exists_eq_cons
    exact begins_of_isDigit hc t'

theorem ValueText.begins {n : ℕ} (h : ValueText n t v) : Begins t := by
  cases n with
  | zero => exact ScalarText.begins h
  | succ n =>
    rcases h with h | h
    · exact h.begins
    · cases h with
      | array hs _ =>
        obtain ⟨u, _, rfl⟩ := hs
        exact ⟨_, _, rfl, by decide⟩
      | object hs _ =>
        obtain ⟨ts, u, _, _, rfl⟩ := hs
        exact ⟨_, _, rfl, by decide⟩

theorem ScalarText.valueText (h : ScalarText t v) (n : ℕ) : ValueText n t v := by
  cases n with
  | zero => exact h
  | succ n => exact .inl h

theorem readNumber_eq_ok_iff {x : Number} :
    readNumber s = .ok (x, r) ↔ ∃ n, Numeral.read .endInValue s = .ok (n, r) ∧ n.value = .ok x := by
  constructor
  · intro h
    obtain ⟨⟨n, r'⟩, hn, hrest⟩ := exists_of_bind_eq_ok h
    cases hv : n.value with
    | ok y =>
      simp only [hv] at hrest
      cases hrest
      exact ⟨n, hn, hv⟩
    | error ds =>
      simp only [hv] at hrest
      cases hrest
  · rintro ⟨n, hn, hx⟩
    simp only [readNumber, hn, ok_bind, hx]

theorem ne_of_number {c d : Char} (hc : c = '-' ∨ isDigit c = true) (hd : isDigit d = false)
    (hminus : d ≠ '-') : c ≠ d := by
  rintro rfl
  rcases hc with hc | hc
  · exact hminus hc
  · rw [hc] at hd
    cases hd

theorem readValue_of_number {c : Char} (hc : c = '-' ∨ isDigit c = true) (s : List Char) :
    readValue depth (c :: s) = do
      let (x, r) ← readNumber (c :: s)
      return (.number x, r) := by
  have hskip := (begins_of_isDigit hc s).skipBlanks_append []
  rw [List.append_nil] at hskip
  rw [readValue, hskip]
  split
  · rename_i h
    cases h
  all_goals
    rename_i h
    obtain ⟨hcd, hrest⟩ := List.cons.inj h
  · exact absurd hcd (ne_of_number hc rfl (by decide))
  · exact absurd hcd (ne_of_number hc rfl (by decide))
  · exact absurd hcd (ne_of_number hc rfl (by decide))
  · exact absurd hcd (ne_of_number hc rfl (by decide))
  · exact absurd hcd (ne_of_number hc rfl (by decide))
  · exact absurd hcd (ne_of_number hc rfl (by decide))
  · subst hcd hrest
    rw [if_pos hc]

theorem readValue_append_of_blanks {b : List Char} (hb : Blanks b) (s : List Char) :
    readValue depth (b ++ s) = readValue depth s := by
  rw [readValue, readValue, skipBlanks_append hb]

theorem readValue_append_of_scalar (ht : ScalarText t v) (hr : Ends r) :
    readValue depth (t ++ r) = .ok (v, r) := by
  cases ht with
  | null =>
    simp only [List.cons_append, List.nil_append]
    rw [readValue, skipBlanks_cons rfl]
    rfl
  | true =>
    simp only [List.cons_append, List.nil_append]
    rw [readValue, skipBlanks_cons rfl]
    rfl
  | false =>
    simp only [List.cons_append, List.nil_append]
    rw [readValue, skipBlanks_cons rfl]
    rfl
  | number ht hx =>
    have hnumber : readNumber (t ++ r) = .ok (_, r) :=
      readNumber_eq_ok_iff.2 ⟨_, Numeral.read_append ht hr, hx⟩
    obtain ⟨c, t', rfl, hc⟩ := ht.exists_eq_cons
    rw [List.cons_append] at hnumber ⊢
    rw [readValue_of_number hc, hnumber]
    rfl
  | @string t v ht =>
    have hstring : readString (t ++ '"' :: r) = .ok (v, r) := readString_eq_ok_iff.2 ⟨t, ht, rfl⟩
    rw [List.cons_append, List.append_assoc, List.singleton_append, readValue, skipBlanks_cons rfl]
    simp only [hstring, ok_bind]
    rfl

/-- A text after the opening bracket has room for all items of the sequence. -/
theorem Items.length_lt_append {closing : Char} {first : Bool} {ts : List (List Char)}
    {u : List Char} (hu : Items closing first ts u) (hne : ∀ t ∈ ts, t ≠ []) (r : List Char) :
    ts.length < (u ++ r).length + 1 := by
  have hlt := hu.length_lt hne
  rw [List.length_append]
  omega

theorem forall_mem_of_forall₂ {α β : Type} {R : α → β → Prop} {P : β → Prop} {as : List α}
    {bs : List β} (h : List.Forall₂ R as bs) (hR : ∀ a b, R a b → P b) : ∀ b ∈ bs, P b := by
  induction h with
  | nil => nofun
  | cons hab _ ih => exact List.forall_mem_cons.2 ⟨hR _ _ hab, ih⟩

theorem ne_nil_of_forall₂ {α : Type} {L : Spelling α} (hL : ∀ {t v}, L t v → Begins t)
    {ts : List (List Char)} {vs : List α} (hv : List.Forall₂ L ts vs) : ∀ t ∈ ts, t ≠ [] :=
  forall_mem_of_forall₂ hv.flip fun _ _ h => (hL h).ne_nil

theorem ne_nil_of_memberTexts {κ : Type} {key : Spelling κ} {ms : List (κ × List Char)}
    {ts : List (List Char)} (hms : List.Forall₂ (MemberText key) ms ts) : ∀ t ∈ ts, t ≠ [] := by
  refine forall_mem_of_forall₂ hms fun m t h => ?_
  cases h
  exact List.cons_ne_nil _ _

theorem readValue_append_of_compound {n : ℕ} {L : Spelling Value}
    (hi : Reads (readValue (n + 1)) L) (ht : CompoundText L t v) (r : List Char) :
    readValue (n + 2) (t ++ r) = .ok (v, r) := by
  cases ht with
  | @array ts s vs hs hv =>
    obtain ⟨u, hu, rfl⟩ := hs
    have hfuel := hu.length_lt_append (ne_nil_of_forall₂ hi.begins hv) r
    have helements := readElements_append hi hu hv hfuel r
    rw [List.cons_append, readValue, skipBlanks_cons rfl]
    simp only [helements, ok_bind]
    rfl
  | @object ms s vs hs hv =>
    obtain ⟨ts, u, hu, hms, rfl⟩ := hs
    have hfuel := hu.length_lt_append (ne_nil_of_memberTexts hms) r
    have hmembers := readMembers_append hi hu hms hv hfuel r
    rw [List.cons_append, readValue, skipBlanks_cons rfl]
    simp only [hmembers, ok_bind]
    rfl

theorem exists_text_of_readValue {n : ℕ}
    (hi : ∀ m, n = m + 1 → Reads (readValue (m + 1)) (ValueText m))
    (h : readValue (n + 1) s = .ok (v, r)) :
    ∃ b t, Blanks b ∧ ValueText n t v ∧ s = b ++ (t ++ r) := by
  have hscalar : ∀ {t u : List Char} {w : Value}, ScalarText t w → skipBlanks s = t ++ u →
      ∃ b t, Blanks b ∧ ValueText n t w ∧ s = b ++ (t ++ u) := by
    intro t u w ht hs
    obtain ⟨b, hb, rfl⟩ := exists_blanks_of_skipBlanks_eq hs
    exact ⟨b, t, hb, ht.valueText n, rfl⟩
  rw [readValue] at h
  split at h
  · cases h
  · rename_i s' hs
    obtain ⟨r', hword, heq⟩ := exists_of_bind_eq_ok h
    cases heq
    rw [eq_append_of_readWord_eq_ok hword] at hs
    exact hscalar .null hs
  · rename_i s' hs
    obtain ⟨r', hword, heq⟩ := exists_of_bind_eq_ok h
    cases heq
    rw [eq_append_of_readWord_eq_ok hword] at hs
    exact hscalar .true hs
  · rename_i s' hs
    obtain ⟨r', hword, heq⟩ := exists_of_bind_eq_ok h
    cases heq
    rw [eq_append_of_readWord_eq_ok hword] at hs
    exact hscalar .false hs
  · rename_i s' hs
    obtain ⟨⟨w, r'⟩, hstring, heq⟩ := exists_of_bind_eq_ok h
    cases heq
    obtain ⟨t, ht, rfl⟩ := readString_eq_ok_iff.1 hstring
    refine hscalar (.string ht) ?_
    rw [hs, List.cons_append, List.append_assoc, List.singleton_append]
  · rename_i s' hs
    cases n with
    | zero => cases h
    | succ m =>
      obtain ⟨⟨vs, r'⟩, helements, heq⟩ := exists_of_bind_eq_ok h
      cases heq
      obtain ⟨ts, u, hu, hv, rfl⟩ := exists_items_of_readElements (hi m rfl) helements
      obtain ⟨b, hb, rfl⟩ := exists_blanks_of_skipBlanks_eq hs
      exact ⟨b, _, hb, .inr (.array ⟨u, hu, rfl⟩ hv), rfl⟩
  · rename_i s' hs
    cases n with
    | zero => cases h
    | succ m =>
      obtain ⟨⟨vs, r'⟩, hmembers, heq⟩ := exists_of_bind_eq_ok h
      cases heq
      obtain ⟨ms, ts, u, hu, hms, hv, rfl⟩ := exists_items_of_readMembers (hi m rfl) hmembers
      obtain ⟨b, hb, rfl⟩ := exists_blanks_of_skipBlanks_eq hs
      exact ⟨b, _, hb, .inr (.object ⟨ts, u, hu, hms, rfl⟩ hv), rfl⟩
  · rename_i c s' _ _ _ _ _ _ hs
    split_ifs at h
    obtain ⟨⟨x, r'⟩, hnumber, heq⟩ := exists_of_bind_eq_ok h
    cases heq
    obtain ⟨numeral, hread, hx⟩ := readNumber_eq_ok_iff.1 hnumber
    obtain ⟨t, ht, hcs⟩ := Numeral.exists_text_of_read hread
    exact hscalar (.number ht hx) (hs.trans hcs)

/-- The texts from which a value is read are those that spell it within the bound. -/
theorem reads_readValue (n : ℕ) : Reads (readValue (n + 1)) (ValueText n) := by
  induction n with
  | zero =>
    refine ⟨exists_text_of_readValue nofun, ?_, ValueText.begins⟩
    intro b t v r hb ht hr
    rw [readValue_append_of_blanks hb, readValue_append_of_scalar ht hr]
  | succ n ih =>
    refine ⟨exists_text_of_readValue fun m hm => ?_, ?_, ValueText.begins⟩
    · obtain rfl := Nat.succ.inj hm
      exact ih
    · intro b t v r hb ht hr
      rw [readValue_append_of_blanks hb]
      rcases ht with ht | ht
      · exact readValue_append_of_scalar ht hr
      · exact readValue_append_of_compound ih ht r

end Values

end TopicClient.Json
