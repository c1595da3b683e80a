import TopicClient.Message.Event
import TopicClient.Proofs.Json.ValueText

/-!
# The text of a field

Each field of an event has a language of its own. `Field.Gives` says that a text gives a field the
value it has in an event, `Field.Lacks` that an event has the value that stands for a field which is
not given. A field is read from the texts that give it, and nothing else in the record of what has
been read changes.
-/

namespace TopicClient

namespace Json

inductive QuotedText : Spelling String
  | mk {t : List Char} {v : String} (ht : KeyText t v) : QuotedText ('"' :: (t ++ ['"'])) v

/-- A text between quotes, or null for none. -/
inductive OptionalText : Spelling (Option String)
  | null : OptionalText ['n', 'u', 'l', 'l'] none
  | some {t : List Char} {v : String} (ht : QuotedText t v) : OptionalText t (some v)

variable {s t r : List Char}

theorem QuotedText.begins {v : String} (ht : QuotedText t v) : Begins t := by
  cases ht
  exact ⟨_, _, rfl, by decide⟩

theorem OptionalText.begins {v : Option String} (ht : OptionalText t v) : Begins t := by
  cases ht with
  | null => exact ⟨_, _, rfl, by decide⟩
  | some ht => exact ht.begins

theorem skipBlanks_skipBlanks (s : List Char) : skipBlanks (skipBlanks s) = skipBlanks s := by
  obtain ⟨b, hb, hs⟩ := exists_blanks_append_skipBlanks s
  have hskip := skipBlanks_append hb (skipBlanks s)
  rw [← hs] at hskip
  exact hskip.symm

section Readers

variable {α β : Type} {item : Reader α} {L L' : Spelling α}

theorem Reads.map (hi : Reads item L) (g : α → β) :
    Reads (fun s => do let (v, r) ← item s; return (g v, r)) fun t w => ∃ v, L t v ∧ g v = w where
  sound h := by
    obtain ⟨⟨v, r'⟩, hv, heq⟩ := exists_of_bind_eq_ok h
    cases heq
    obtain ⟨b, t, hb, ht, hs⟩ := hi.sound hv
    exact ⟨b, t, hb, ⟨v, ht, rfl⟩, hs⟩
  complete hb ht hr := by
    obtain ⟨v, ht, rfl⟩ := ht
    simp only [hi.complete hb ht hr, ok_bind]
    rfl
  begins ht := by
    obtain ⟨v, ht, _⟩ := ht
    exact hi.begins ht

theorem Reads.congr (hi : Reads item L) (h : ∀ t v, L t v ↔ L' t v) : Reads item L' where
  sound hv := by
    obtain ⟨b, t, hb, ht, hs⟩ := hi.sound hv
    exact ⟨b, t, hb, (h t _).1 ht, hs⟩
  complete hb ht hr := hi.complete hb ((h _ _).2 ht) hr
  begins ht := hi.begins ((h _ _).2 ht)

/-- The reader of a field: its value is put into a record, as that of any message which has it. -/
theorem Reads.field {P : Type} (hi : Reads item L) (set : α → P) (get : β → α)
    (hget : Function.Surjective get) :
    Reads (fun s => do let (v, r) ← item s; return (set v, r))
      fun t q => ∃ w, L t (get w) ∧ set (get w) = q := by
  refine (hi.map set).congr fun t q => ⟨?_, ?_⟩
  · rintro ⟨v, ht, rfl⟩
    obtain ⟨w, rfl⟩ := hget v
    exact ⟨w, ht, rfl⟩
  · rintro ⟨w, ht, rfl⟩
    exact ⟨get w, ht, rfl⟩

/-- What is read from a text is all that it spells. -/
theorem Reads.unique (hi : Reads item L) {v v' : α} (h : L t v) (h' : L t v') : v = v' := by
  have hends : Ends [] := ends_of_blanks blanks_nil
  have hread := hi.complete blanks_nil h hends
  rw [hi.complete blanks_nil h' hends] at hread
  exact (Prod.mk.inj (Except.ok.inj hread)).1.symm

end Readers

end Json

namespace Message

open Json

variable {s t r : List Char}

theorem exists_text_of_readTextField {v : String} (h : readTextField s = .ok (v, r)) :
    ∃ b t, Blanks b ∧ QuotedText t v ∧ s = b ++ (t ++ r) := by
  rw [readTextField] at h
  split at h
  · cases h
  · rename_i s' hs
    obtain ⟨b, hb, rfl⟩ := exists_blanks_of_skipBlanks_eq hs
    obtain ⟨t, ht, rfl⟩ := readString_eq_ok_iff.1 h
    refine ⟨b, _, hb, .mk ht, ?_⟩
    rw [List.cons_append, List.append_assoc, List.singleton_append]
  · cases h

theorem readTextField_append {b : List Char} {v : String} (hb : Blanks b) (ht : QuotedText t v)
    (r : List Char) : readTextField (b ++ (t ++ r)) = .ok (v, r) := by
  cases ht with
  | @mk t _ ht =>
    have hread : readString (t ++ '"' :: r) = .ok (v, r) := readString_eq_ok_iff.2 ⟨t, ht, rfl⟩
    rw [List.cons_append, List.append_assoc, List.singleton_append, readTextField,
      skipBlanks_append_cons hb rfl]
    exact hread

theorem reads_readTextField : Reads readTextField QuotedText where
  sound := exists_text_of_readTextField
  complete hb ht _ := readTextField_append hb ht _
  begins := QuotedText.begins

theorem readTextField_skipBlanks (s : List Char) :
    readTextField (skipBlanks s) = readTextField s := by
  rw [readTextField, readTextField, skipBlanks_skipBlanks]

theorem exists_text_of_readOptionalTextField {v : Option String}
    (h : readOptionalTextField s = .ok (v, r)) :
    ∃ b t, Blanks b ∧ OptionalText t v ∧ s = b ++ (t ++ r) := by
  rw [readOptionalTextField] at h
  split at h
  · rename_i s' hs
    obtain ⟨r', hword, heq⟩ := exists_of_bind_eq_ok h
    cases heq
    obtain ⟨b, hb, rfl⟩ := exists_blanks_of_skipBlanks_eq hs
    rw [eq_append_of_readWord_eq_ok hword]
    exact ⟨b, _, hb, .null, rfl⟩
  · obtain ⟨⟨w, r'⟩, htext, heq⟩ := exists_of_bind_eq_ok h
    cases heq
    rw [readTextField_skipBlanks] at htext
    obtain ⟨b, t, hb, ht, hs⟩ := exists_text_of_readTextField htext
    exact ⟨b, t, hb, .some ht, hs⟩

theorem readOptionalTextField_append {b : List Char} {v : Option String} (hb : Blanks b)
    (ht : OptionalText t v) (r : List Char) :
    readOptionalTextField (b ++ (t ++ r)) = .ok (v, r) := by
  cases ht with
  | null =>
    simp only [List.cons_append, List.nil_append]
    rw [readOptionalTextField, skipBlanks_append_cons hb rfl]
    rfl
  | some ht =>
    have htext := readTextField_append hb ht r
    rw [← readTextField_skipBlanks] at htext
    rw [readOptionalTextField]
    split
    · rename_i hs
      cases ht
      rw [List.cons_append, skipBlanks_append_cons hb rfl] at hs
      cases hs
    · rw [htext]
      rfl

theorem reads_readOptionalTextField : Reads readOptionalTextField OptionalText where
  sound := exists_text_of_readOptionalTextField
  complete hb ht _ := readOptionalTextField_append hb ht _
  begins := OptionalText.begins

section Integers

variable {low high : ℤ} {expected : String} {i : ℤ}

theorem exists_text_of_readIntegerField (hlow : -9223372036854775808 ≤ low)
    (hhigh : high < 18446744073709551616) (h : readIntegerField expected low high s = .ok (i, r)) :
    ∃ b t, Blanks b ∧ IntegerText low high t i ∧ s = b ++ (t ++ r) := by
  rw [readIntegerField] at h
  split at h
  · cases h
  · rename_i c s' hs
    split_ifs at h
    obtain ⟨⟨x, r'⟩, hnumber, hvalue⟩ := exists_of_bind_eq_ok h
    obtain ⟨b, hb, rfl⟩ := exists_blanks_of_skipBlanks_eq hs
    obtain ⟨n, hn, hx⟩ := readNumber_eq_ok_iff.1 hnumber
    obtain ⟨t, ht, hcs⟩ := Numeral.exists_text_of_read hn
    cases x with
    | float x => cases hvalue
    | integer j =>
      simp only at hvalue
      split_ifs at hvalue with hj
      cases hvalue
      exact ⟨b, t, hb, (integerText_iff hlow hhigh).2 ⟨n, j, ht, hx, rfl, hj⟩, by rw [hcs]⟩

theorem readIntegerField_append {b : List Char} (hlow : -9223372036854775808 ≤ low)
    (hhigh : high < 18446744073709551616) (hb : Blanks b) (ht : IntegerText low high t i)
    (hr : Ends r) : readIntegerField expected low high (b ++ (t ++ r)) = .ok (i, r) := by
  obtain ⟨n, j, hn, hx, rfl, hj⟩ := (integerText_iff hlow hhigh).1 ht
  have hnumber : readNumber (t ++ r) = .ok (.integer j, r) :=
    readNumber_eq_ok_iff.2 ⟨n, Numeral.read_append hn hr, hx⟩
  obtain ⟨c, t', rfl, hc⟩ := hn.exists_eq_cons
  have hskip := (begins_of_isDigit hc t').skipBlanks_append r
  rw [List.cons_append] at hnumber hskip ⊢
  rw [readIntegerField, skipBlanks_append hb, hskip]
  simp only [if_pos hc, hnumber, ok_bind, if_pos hj]
  rfl

theorem reads_readIntegerField (hlow : -9223372036854775808 ≤ low)
    (hhigh : high < 18446744073709551616) (expected : String) :
    Reads (readIntegerField expected low high) (IntegerText low high) where
  sound := exists_text_of_readIntegerField hlow hhigh
  complete hb ht hr := readIntegerField_append hlow hhigh hb ht hr
  begins ht := by
    obtain ⟨n, j, ht, _⟩ := (integerText_iff hlow hhigh).1 ht
    obtain ⟨c, t', rfl, hc⟩ := ht.exists_eq_cons
    exact begins_of_isDigit hc t'

theorem reads_readNaturalField (limit : ℕ) (hlimit : limit < 18446744073709551616)
    (expected : String) :
    Reads (readIntegerField expected 0 limit) fun t i => 0 ≤ i ∧ NaturalText limit t i.toNat :=
  (reads_readIntegerField (by omega) (by omega) expected).congr fun _ _ => integerText_zero_iff

end Integers

end Message

namespace Event

open Json Message

theorem reads_readUInt64 :
    Reads readUInt64 fun t v => NaturalText 18446744073709551615 t v.toNat := by
  have hreads := reads_readNaturalField 18446744073709551615 (by omega) "u64"
  refine (hreads.map fun i => i.toNat.toUInt64).congr ?_
  intro t v
  constructor
  · rintro ⟨i, ⟨_, ht⟩, rfl⟩
    have hlt : i.toNat < UInt64.size := Nat.lt_succ_of_le ht.2.2
    rw [Nat.toUInt64, UInt64.toNat_ofNat_of_lt' hlt]
    exact ht
  · intro ht
    exact ⟨v.toNat, ⟨Int.natCast_nonneg _, ht⟩, UInt64.ofNat_toNat⟩

theorem reads_readUInt8 : Reads readUInt8 fun t v => NaturalText 255 t v.toNat := by
  have hreads := reads_readNaturalField 255 (by omega) "u8"
  refine (hreads.map fun i => i.toNat.toUInt8).congr ?_
  intro t v
  constructor
  · rintro ⟨i, ⟨_, ht⟩, rfl⟩
    have hlt : i.toNat < UInt8.size := Nat.lt_succ_of_le ht.2.2
    rw [Nat.toUInt8, UInt8.toNat_ofNat_of_lt' hlt]
    exact ht
  · intro ht
    exact ⟨v.toNat, ⟨Int.natCast_nonneg _, ht⟩, UInt8.ofNat_toNat⟩

/-- A text gives a field the value it has in an event. At most `n` arrays and objects are nested in
a payload. -/
def Field.Gives (n : ℕ) (t : List Char) (e : Event) : Field → Prop
  | .id => NaturalText 18446744073709551615 t e.id.toNat
  | .sessionId => NaturalText 18446744073709551615 t e.sessionId.toNat
  | .topic => QuotedText t e.topic
  | .authLevel => NaturalText 255 t e.authLevel.toNat
  | .returnAddress => QuotedText t e.returnAddress
  | .payload => ValueText n t e.payload
  | .username => OptionalText t e.username

/-- An event has the value of a field that is not given. A topic has to be given. -/
def Field.Lacks (e : Event) : Field → Prop
  | .id => e.id = 0
  | .sessionId => e.sessionId = 0
  | .topic => False
  | .authLevel => e.authLevel = 0
  | .returnAddress => e.returnAddress = ""
  | .payload => e.payload = .null
  | .username => e.username = none

def Field.spellings : Field → List String
  | .id => ["id"]
  | .sessionId => ["sessionid"]
  | .topic => ["topic", "Topic"]
  | .authLevel => ["authlevel"]
  | .returnAddress => ["returnaddr"]
  | .payload => ["payload", "Payload"]
  | .username => ["username"]

theorem Field.ofKey?_eq_some_iff {key : String} {f : Field} :
    Field.ofKey? key = some f ↔ key ∈ f.spellings := by
  constructor
  · intro h
    unfold Field.ofKey? at h
    split_ifs at h
    all_goals
      cases h
      simp only [Field.spellings, List.mem_cons, List.not_mem_nil, or_false]
      assumption
  · intro h
    cases f
    all_goals
      simp only [Field.spellings, List.mem_cons, List.not_mem_nil, or_false] at h
    case topic => rcases h with rfl | rfl <;> rfl
    case payload => rcases h with rfl | rfl <;> rfl
    all_goals
      subst h
      rfl

def Field.named? (key : String) : Option Field := Field.all.find? fun f => key ∈ f.spellings

theorem Field.ofKey?_eq_named? (key : String) : Field.ofKey? key = Field.named? key := by
  cases hnamed : Field.named? key with
  | none =>
    have hall : ∀ f ∈ Field.all, key ∉ f.spellings := by
      simpa [Field.named?, List.find?_eq_none] using hnamed
    cases hkey : Field.ofKey? key with
    | none => rfl
    | some f =>
      have hmem : f ∈ Field.all := by cases f <;> decide
      exact absurd (Field.ofKey?_eq_some_iff.1 hkey) (hall f hmem)
  | some f =>
    have hspelled := List.find?_some hnamed
    exact Field.ofKey?_eq_some_iff.2 (of_decide_eq_true hspelled)

namespace Partial

def put (p : Partial) (e : Event) : Field → Partial
  | .id => { p with id := e.id }
  | .sessionId => { p with sessionId := e.sessionId }
  | .topic => { p with topic := e.topic }
  | .authLevel => { p with authLevel := e.authLevel }
  | .returnAddress => { p with returnAddress := e.returnAddress }
  | .payload => { p with payload := e.payload }
  | .username => { p with username := some e.username }

/-- An event has the value of a field that a record has, or its default. -/
def Holds (p : Partial) (e : Event) : Field → Prop
  | .id => e.id = p.id.getD 0
  | .sessionId => e.sessionId = p.sessionId.getD 0
  | .topic => p.topic = some e.topic
  | .authLevel => e.authLevel = p.authLevel.getD 0
  | .returnAddress => e.returnAddress = p.returnAddress.getD ""
  | .payload => e.payload = p.payload.getD .null
  | .username => e.username = p.username.getD none

end Partial

section Records

variable {n : ℕ} {p : Partial} {e e' : Event} {f g : Field} {t : List Char}

theorem Partial.complete_eq_some_iff : p.complete = some e ↔ ∀ f, p.Holds e f := by
  unfold Partial.complete
  rw [Option.map_eq_some_iff]
  constructor
  · rintro ⟨topic, htopic, rfl⟩ f
    cases f with
    | topic => exact htopic
    | _ => rfl
  · intro h
    have hid := h .id
    have hsession := h .sessionId
    have hauth := h .authLevel
    have haddress := h .returnAddress
    have hpayload := h .payload
    have huser := h .username
    refine ⟨e.topic, h .topic, ?_⟩
    simp only [Partial.Holds] at hid hsession hauth haddress hpayload huser
    rw [← hid, ← hsession, ← hauth, ← haddress, ← hpayload, ← huser]

theorem Partial.holds_empty_iff : Partial.Holds {} e f ↔ f.Lacks e := by
  cases f with
  | topic => exact ⟨nofun, False.elim⟩
  | _ => exact Iff.rfl

theorem Partial.has_put : (p.put e f).has g = (decide (g = f) || p.has g) := by
  cases f <;> cases g <;> rfl

theorem Partial.holds_put_self : (p.put e f).Holds e f := by
  cases f <;> rfl

theorem Partial.holds_put_of_ne (h : g ≠ f) : (p.put e' f).Holds e g ↔ p.Holds e g := by
  cases f <;> cases g <;> first | exact absurd rfl h | exact Iff.rfl

theorem Field.gives_of_holds_put (hg : f.Gives n t e') (h : (p.put e' f).Holds e f) :
    f.Gives n t e := by
  cases f with
  | topic =>
    have heq : e'.topic = e.topic := Option.some.inj h
    simp only [Field.Gives, ← heq]
    exact hg
  | _ =>
    have heq : _ = _ := h
    simp only [Field.Gives, heq]
    exact hg

theorem reads_readField (n : ℕ) (p : Partial) (f : Field) :
    Reads (readField (n + 1) p f) fun t q => ∃ e, f.Gives n t e ∧ p.put e f = q := by
  cases f with
  | id =>
    exact reads_readUInt64.field (fun v => { p with id := v }) Event.id
      fun v => ⟨{ topic := "", id := v }, rfl⟩
  | sessionId =>
    exact reads_readUInt64.field (fun v => { p with sessionId := v }) Event.sessionId
      fun v => ⟨{ topic := "", sessionId := v }, rfl⟩
  | topic =>
    exact reads_readTextField.field (fun v => { p with topic := v }) Event.topic
      fun v => ⟨{ topic := v }, rfl⟩
  | authLevel =>
    exact reads_readUInt8.field (fun v => { p with authLevel := v }) Event.authLevel
      fun v => ⟨{ topic := "", authLevel := v }, rfl⟩
  | returnAddress =>
    exact reads_readTextField.field (fun v => { p with returnAddress := v }) Event.returnAddress
      fun v => ⟨{ topic := "", returnAddress := v }, rfl⟩
  | payload =>
    exact (reads_readValue n).field (fun v => { p with payload := v }) Event.payload
      fun v => ⟨{ topic := "", payload := v }, rfl⟩
  | username =>
    exact reads_readOptionalTextField.field (fun v => { p with username := some v }) Event.username
      fun v => ⟨{ topic := "", username := v }, rfl⟩

end Records

end Event

end TopicClient
