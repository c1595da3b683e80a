import TopicClient.Proofs.Json.Nesting
import TopicClient.Proofs.Json.ValueSyntax

/-!
# Whole texts

A `Document` of a language is one of its texts with nothing but blanks around it, and a whole text
is read exactly if it is one. `readUnbounded` reads values, and `readRecord` the members of an
object in the order in which they stand, with no bound on the nesting: a text nests no deeper than
it is long.
-/

namespace TopicClient.Json

def Document {α : Type} (L : Spelling α) (s : List Char) (v : α) : Prop :=
  ∃ b t b', Blanks b ∧ L t v ∧ Blanks b' ∧ s = b ++ (t ++ b')

/-- A text of the grammar, whether or not it stands for a value that can be represented. -/
def IsDocument (s : List Char) : Prop :=
  ∃ b t b', Blanks b ∧ ValueSyntax t ∧ Blanks b' ∧ s = b ++ (t ++ b')

def UnboundedText : Spelling Value := fun t v => ∃ n, ValueText n t v

def RecordText : Spelling (List (String × Value)) := fun t vs =>
  ∃ ms, ObjectText KeyText ms t ∧ List.Forall₂ (fun m v => m.1 = v.1 ∧ UnboundedText m.2 v.2) ms vs

def readUnbounded : Reader Value := fun s => readValue (s.length + 1) s

def readRecord : Reader (List (String × Value)) := fun s =>
  match skipBlanks s with
  | '\x7b' :: r => readMembers (fun _ => readUnbounded) (r.length + 1) true r
  | r => .error (.peeked .expectedValue r)

def parseRecord (text : String) : Except ReadError (List (String × Value)) :=
  readText readRecord text

section Texts

variable {n m : ℕ} {s t : List Char} {v : Value} {L L' : Spelling Value}

theorem ArrayText.forall_length_lt {ts : List (List Char)} (hs : ArrayText ts s) :
    ∀ t ∈ ts, t.length + 1 < s.length := by
  obtain ⟨u, hu, rfl⟩ := hs
  intro t ht
  exact Nat.succ_lt_succ (hu.length_lt_of_mem ht)

theorem ObjectText.forall_length_lt {κ : Type} {key : Spelling κ} {ms : List (κ × List Char)}
    (hs : ObjectText key ms s) : ∀ m ∈ ms, m.2.length + 1 < s.length := by
  obtain ⟨ts, u, hu, hms, rfl⟩ := hs
  have hmembers := (List.forall₂_and_left _ _).2 ⟨fun t ht => hu.length_lt_of_mem ht, hms.flip⟩
  refine forall_mem_of_forall₂ hmembers fun t m h => ?_
  obtain ⟨hlt, hm⟩ := h
  cases hm
  simp only [List.length_cons, List.length_append] at hlt ⊢
  omega

/-- The values of a compound have shorter texts than the compound. -/
theorem CompoundText.imp_of_length (h : ∀ t v, t.length + 1 < s.length → L t v → L' t v)
    (hs : CompoundText L s v) : CompoundText L' s v := by
  cases hs with
  | array hs hv =>
    have hlength := (List.forall₂_and_left _ _).2 ⟨hs.forall_length_lt, hv⟩
    exact .array hs (hlength.imp fun t v ht => h t v ht.1 ht.2)
  | object hs hv =>
    have hlength := (List.forall₂_and_left _ _).2 ⟨hs.forall_length_lt, hv⟩
    exact .object hs (hlength.imp fun m v hm => ⟨hm.2.1, h m.2 v.2 hm.1 hm.2.2⟩)

/-- A text nests no deeper than it is long. -/
theorem ValueText.of_length_le (ht : ValueText n t v) (hle : t.length ≤ m) : ValueText m t v := by
  induction n generalizing t v m with
  | zero => exact ScalarText.valueText ht m
  | succ n ih =>
    have hpos : 0 < t.length := List.length_pos_iff.2 (ValueText.begins ht).ne_nil
    cases m with
    | zero => omega
    | succ m =>
      rcases ht with ht | ht
      · exact .inl ht
      · exact .inr (ht.imp_of_length fun u w hu h => ih h (by omega))

theorem UnboundedText.begins (ht : UnboundedText t v) : Begins t := by
  obtain ⟨n, ht⟩ := ht
  exact ValueText.begins ht

end Texts

section Readers

variable {α : Type} {reader : Reader α} {L : Spelling α} {text : String} {v : α}

/-- The whole of a text is read if a reader leaves only blanks. -/
theorem readText_eq_ok_iff :
    readText reader text = .ok v ↔ ∃ r, reader text.toList = .ok (v, r) ∧ Blanks r := by
  unfold readText
  constructor
  · intro h
    split at h
    · cases h
    · rename_i w rest hread
      split at h
      · rename_i hrest
        cases h
        exact ⟨rest, hread, blanks_of_skipBlanks_eq_nil hrest⟩
      · cases h
  · rintro ⟨r, hread, hr⟩
    have hskip := skipBlanks_append hr []
    rw [List.append_nil] at hskip
    simp only [hread, hskip]
    rfl

/-- A whole text is read exactly if it is a document of the language. -/
theorem Reads.readText_eq_ok_iff (h : Reads reader L) :
    readText reader text = .ok v ↔ Document L text.toList v := by
  rw [Json.readText_eq_ok_iff]
  constructor
  · rintro ⟨r, hread, hr⟩
    obtain ⟨b, t, hb, ht, hs⟩ := h.sound hread
    exact ⟨b, t, r, hb, ht, hr, hs⟩
  · rintro ⟨b, t, r, hb, ht, hr, hs⟩
    exact ⟨r, hs ▸ h.complete hb ht (ends_of_blanks hr), hr⟩

/-- A value is read, whatever its nesting, and nothing else is. -/
theorem reads_readUnbounded : Reads readUnbounded UnboundedText where
  sound {s v r} h := by
    obtain ⟨b, t, hb, ht, hs⟩ := (reads_readValue s.length).sound h
    exact ⟨b, t, hb, ⟨_, ht⟩, hs⟩
  complete {b t v r} hb ht hr := by
    obtain ⟨n, ht⟩ := ht
    refine (reads_readValue _).complete hb (ht.of_length_le ?_) hr
    simp only [List.length_append]
    omega
  begins := UnboundedText.begins

theorem reads_readRecord : Reads readRecord RecordText where
  sound {s vs r} h := by
    rw [readRecord] at h
    split at h
    · rename_i s' hs
      obtain ⟨b, hb, rfl⟩ := exists_blanks_of_skipBlanks_eq hs
      obtain ⟨ms, ts, u, hu, hms, hv, rfl⟩ := exists_items_of_readMembers reads_readUnbounded h
      exact ⟨b, _, hb, ⟨ms, ⟨ts, u, hu, hms, rfl⟩, hv⟩, rfl⟩
    · cases h
  complete {b t vs r} hb ht hr := by
    obtain ⟨ms, ⟨ts, u, hu, hms, rfl⟩, hv⟩ := ht
    have hfuel := hu.length_lt_append (ne_nil_of_memberTexts hms) r
    rw [List.cons_append, readRecord, skipBlanks_append_cons hb rfl]
    exact readMembers_append reads_readUnbounded hu hms hv hfuel r
  begins ht := by
    obtain ⟨ms, ⟨ts, u, hu, hms, rfl⟩, hv⟩ := ht
    exact ⟨_, _, rfl, by decide⟩

theorem parseRecord_eq_ok_iff {vs : List (String × Value)} :
    parseRecord text = .ok vs ↔ Document RecordText text.toList vs :=
  reads_readRecord.readText_eq_ok_iff

end Readers

/-! ## Documents and their grammar -/

section Grammar

variable {n : ℕ} {s t cs : List Char} {v : Value}

theorem EscapeText.stringSyntax {e : List Char} {c : Char} (he : EscapeText e c)
    (ht : StringSyntax t) : StringSyntax ('\\' :: (e ++ t)) := by
  cases he with
  | simple h => exact .escape (.simple h) ht
  | unit hu _ => exact .escape (.unit hu) ht
  | @pair u l n m hu _ hl _ =>
    have hpair : '\\' :: (('u' :: (u ++ '\\' :: 'u' :: l)) ++ t) =
        '\\' :: (('u' :: u) ++ ('\\' :: (('u' :: l) ++ t))) := by simp
    rw [hpair]
    exact .escape (.unit hu) (.escape (.unit hl) ht)

theorem StringText.stringSyntax (ht : StringText t cs) : StringSyntax t := by
  induction ht with
  | nil => exact .nil
  | plain hc _ ih => exact .plain hc ih
  | escape he _ ih => exact he.stringSyntax ih

theorem ScalarText.scalarSyntax (ht : ScalarText t v) : ScalarSyntax t := by
  cases ht with
  | null => exact .null
  | true => exact .true
  | false => exact .false
  | number ht _ => exact .number ht
  | string ht => exact .string ht.stringSyntax

theorem CompoundText.compoundSyntax {L : Spelling Value} {P : List Char → Prop}
    (h : ∀ t v, L t v → P t) (ht : CompoundText L t v) : CompoundSyntax P t := by
  cases ht with
  | array hs hv =>
    obtain ⟨u, hu, rfl⟩ := hs
    exact .array hu (forall_mem_of_forall₂ hv.flip fun v t ht => h t v ht)
  | object hs hv =>
    obtain ⟨ts, u, hu, hms, rfl⟩ := hs
    have hinner := forall_mem_of_forall₂ hv.flip fun v m hm => h m.2 v.2 hm.2
    refine .object hu (forall_mem_of_forall₂ ((List.forall₂_and_left _ _).2 ⟨hinner, hms⟩) ?_)
    rintro m t ⟨hm, ht⟩
    cases ht with
    | mk hk hb hb' => exact ⟨_, .mk (StringText.stringSyntax hk) hb hb', hm⟩

theorem ValueText.nestedSyntax (ht : ValueText n t v) : NestedSyntax (n + 1) t := by
  induction n generalizing t v with
  | zero => exact .inl (ScalarText.scalarSyntax ht)
  | succ n ih =>
    rcases ht with ht | ht
    · exact .inl ht.scalarSyntax
    · exact .inr (ht.compoundSyntax fun t v ht => ih ht)

theorem Document.unbounded (h : Document (ValueText n) s v) : Document UnboundedText s v := by
  obtain ⟨b, t, b', hb, ht, hb', hs⟩ := h
  exact ⟨b, t, b', hb, ⟨n, ht⟩, hb', hs⟩

theorem Document.isDocument (h : Document (ValueText n) s v) : IsDocument s := by
  obtain ⟨b, t, b', hb, ht, hb', hs⟩ := h
  exact ⟨b, t, b', hb, ⟨n + 1, ht.nestedSyntax⟩, hb', hs⟩

/-- What begins with a hyphen is a number. -/
theorem exists_digit_of_valueSyntax (ht : ValueSyntax t) (hhead : t.head? = some '-') :
    ∃ d cs, t = '-' :: d :: cs ∧ isDigit d = true := by
  obtain ⟨n, ht⟩ := ht
  cases n with
  | zero => cases ht
  | succ n =>
    rcases ht with ht | ht
    · cases ht with
      | null | true | false | string => exact absurd (Option.some.inj hhead) (by decide)
      | number ht =>
        obtain ⟨hg, hw, hf, he⟩ := ht
        obtain ⟨d, ds, rfl, hd⟩ := hw.digits.exists_eq_cons
        cases hg with
        | none => exact absurd (Option.some.inj hhead) (ne_of_isDigit hd rfl)
        | minus => exact ⟨d, _, rfl, hd⟩
    · cases ht <;> exact absurd (Option.some.inj hhead) (by decide)

theorem IsDocument.exists_digit (h : IsDocument s) (hhead : s.head? = some '-') :
    ∃ d cs, s = '-' :: d :: cs ∧ isDigit d = true := by
  obtain ⟨b, t, b', hb, ht, -, rfl⟩ := h
  cases b with
  | nil =>
    obtain ⟨n, hnested⟩ := id ht
    obtain ⟨c, cs, rfl, -⟩ := NestedSyntax.begins hnested
    obtain ⟨d, ds, hcons, hd⟩ := exists_digit_of_valueSyntax ht hhead
    exact ⟨d, ds ++ b', by rw [hcons]; rfl, hd⟩
  | cons c b =>
    have hblank := hb c List.mem_cons_self
    rw [Option.some.inj hhead] at hblank
    cases hblank

theorem EscapeText.length_pos {e : List Char} {c : Char} (he : EscapeText e c) : 0 < e.length := by
  cases he <;> exact Nat.succ_pos _

theorem StringText.length_le (ht : StringText t cs) : cs.length ≤ t.length := by
  induction ht with
  | nil => exact Nat.le_refl 0
  | plain _ _ ih => exact Nat.succ_le_succ ih
  | escape he _ ih =>
    have hpos := he.length_pos
    simp only [List.length_cons, List.length_append]
    omega

/-- No document stands for the string that it is. -/
theorem not_document_self (text : String) :
    ¬ Document UnboundedText text.toList (.string text) := by
  rintro ⟨b, t, b', -, ⟨n, ht⟩, -, hs⟩
  have hscalar : ScalarText t (.string text) := by
    cases n with
    | zero => exact ht
    | succ n =>
      rcases ht with ht | ht
      · exact ht
      · cases ht
  cases hscalar with
  | string ht =>
    have hle := StringText.length_le ht
    have hlength := congrArg List.length hs
    simp only [List.length_append, List.length_cons] at hlength
    omega

end Grammar

end TopicClient.Json
