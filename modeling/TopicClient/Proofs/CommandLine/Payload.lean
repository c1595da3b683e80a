import TopicClient.Proofs.CommandLine.Distribution
import TopicClient.Proofs.Json.Document

/-!
# The payload of a publication

What follows the topic of a publication is read as JSON if it can be, and is a text otherwise
(`publishes_readPayload`). Whatever the reader refuses is sent as a text, too, and what begins with
a hyphen is taken for a switch before it is read. So a document is sent as the value that it denotes
only if it begins with no hyphen and the reader can represent it (`sendsGiven_iff`).
-/

namespace TopicClient.CommandLine

open Json

def Publishes (environment : Environment) (topic text : String) (payload : Json.Value) : Prop :=
  ∃ i m, parse environment ["publish", topic, text] = .ok i ∧ i.command = .publish m ∧
    m.key = topic ∧ m.payload = payload

/-- Documents are sent as the values that they denote, and other texts as they are. -/
structure SendsGiven (environment : Environment) (topic text : String) : Prop where
  document : IsDocument text.toList →
    ∃ v : Json.Value, Document UnboundedText text.toList v ∧ Publishes environment topic text v
  text : ¬ IsDocument text.toList → text.toList.head? ≠ some '-' →
    Publishes environment topic text (.string text)

theorem Publishes.unique {environment : Environment} {topic text : String}
    {payload payload' : Json.Value} (h : Publishes environment topic text payload)
    (h' : Publishes environment topic text payload') : payload = payload' := by
  obtain ⟨i, m, hparse, hcommand, -, rfl⟩ := h
  obtain ⟨i', m', hparse', hcommand', -, rfl⟩ := h'
  obtain rfl := Except.ok.inj (hparse.symm.trans hparse')
  rw [Command.publish.inj (hcommand.symm.trans hcommand')]

/-! ## Texts and switches -/

section Shapes

variable {text : String}

theorem shape_of_head? (h : text.toList.head? ≠ some '-') : Shape.of text = .plain := by
  unfold Shape.of
  split
  · next heq => exact absurd (by rw [heq]; rfl) h
  · next heq => exact absurd (by rw [heq]; rfl) h
  · next heq => exact absurd (by rw [heq]; rfl) h
  · rfl

theorem shape_of_digit {d : Char} {cs : List Char} (h : text.toList = '-' :: d :: cs)
    (hd : isDigit d = true) : Shape.of text = .short d cs := by
  have hne : d ≠ '-' := ne_of_isDigit hd rfl
  unfold Shape.of
  rw [h]
  split
  · next heq => exact absurd (List.cons.inj (List.cons.inj heq).2).1 hne
  · next heq => exact absurd (List.cons.inj (List.cons.inj heq).2).1 hne
  · next heq =>
    obtain ⟨-, htail⟩ := List.cons.inj heq
    obtain ⟨rfl, rfl⟩ := List.cons.inj htail
    rfl
  · next hno => exact absurd rfl (hno d cs)

end Shapes

/-! ## Reading the command line -/

section Publishing

variable {environment : Environment} {topic text : String}

theorem readLevel?_operand {r : Reading} (hr : r.pending = none)
    (hlength : r.operands.length < Verb.publish.allowed) {arg : String}
    (harg : arg.toList.head? ≠ some '-') (args : List String) :
    readLevel? (.command .publish) false r (arg :: args) =
      readLevel? (.command .publish) false { r with operands := r.operands ++ [arg] } args := by
  have hshape := shape_of_head? harg
  have hdivider : Shape.of arg ≠ .divider := by
    rw [hshape]
    decide
  have hawaits : r.awaitsValue = false := by rw [Reading.awaitsValue, hr]
  have hoperand : readOperand (.command .publish) false r arg =
      .ok { r with operands := r.operands ++ [arg] } := by
    have hroom : r.operands.length < (Level.command .publish).allowed := hlength
    rw [readOperand, if_pos hroom, Reading.operand, Reading.settle_of_pending hr]
    rfl
  rw [readLevel?_cons (startsCommand?_command _ _ _) hdivider,
    readArgument_operand hshape hawaits, hoperand]
  rfl

def publishing (topic text : String) (htopic : topic.toList.head? ≠ some '-')
    (htext : text.toList.head? ≠ some '-') : Arguments where
  verb := .publish
  words := [topic, text]
  reading := { operands := [topic, text] }
  reads := (readLevel?_operand (r := {}) rfl Nat.zero_lt_two htopic _).trans
    (readLevel?_operand (r := { operands := [topic] }) rfl Nat.one_lt_two htext [])
  own := nofun
  enough := Nat.le_succ 1

theorem publishes_readPayload (h : Accepts environment [] [])
    (htopic : topic.toList.head? ≠ some '-') (htext : text.toList.head? ≠ some '-') :
    Publishes environment topic text (readPayload text) := by
  have hnodup : (([] : List Given).map Given.switch).Nodup := List.nodup_nil
  obtain ⟨l, hl, hparse⟩ := parse_of_accepts (.refl []) hnodup
    (Woven.self (publishing topic text htopic htext).reads) h
  have hoperands : l.command.operands = [topic, text] := hl.operands_eq
  have hcommand : buildCommand .publish l = .ok (.publish
      { key := topic, payload := readPayload text, authLevel := (l.byte? .authLevel).getD 0,
        returnAddress := l.text? .returnAddress }) := by
    unfold buildCommand
    rw [hoperands]
    rfl
  change _ = l.invocation? .publish at hparse
  rw [Levels.invocation?, hcommand] at hparse
  exact ⟨_, _, eq_ok_of_toOption hparse, rfl, rfl, rfl⟩

theorem Publishes.accepts {payload : Json.Value} (h : Publishes environment topic text payload)
    (htopic : topic.toList.head? ≠ some '-') (htext : text.toList.head? ≠ some '-') :
    Accepts environment [] [] := by
  by_contra hno
  have hnodup : (([] ++ [] : List Given).map Given.switch).Nodup := List.nodup_nil
  have hrefused : (parse environment ["publish", topic, text]).toOption = none :=
    parse_of_not_accepts hnodup (Woven.self (publishing topic text htopic htext).reads) hno
  obtain ⟨i, m, hparse, -⟩ := h
  rw [hparse] at hrefused
  cases hrefused

/-- No command has a digit for a switch. -/
theorem not_publishes_of_digit (htopic : topic.toList.head? ≠ some '-') {d : Char}
    {cs : List Char} (htext : text.toList = '-' :: d :: cs) (hd : isDigit d = true)
    (payload : Json.Value) : ¬ Publishes environment topic text payload := by
  rintro ⟨i, m, hparse, -⟩
  have hshape := shape_of_digit htext hd
  have hmet : (Shape.short d cs).met? (.command .publish) = none := rfl
  have hrefused : readLevel? (.command .publish) false {} [topic, text] = none := by
    rw [readLevel?_operand (r := {}) rfl Nat.zero_lt_two htopic,
      readLevel?_cons (startsCommand?_command _ _ _) (hshape ▸ nofun),
      readArgument_of_isSwitch (hshape ▸ rfl), hshape, hmet]
    rfl
  have hnodup : (([] : List Given).map Given.switch).Nodup := List.nodup_nil
  have hnone : (parse environment ["publish", topic, text]).toOption = _ :=
    toOption_parse_flatMap .publish hnodup
  rw [hparse, hrefused] at hnone
  split_ifs at hnone <;> cases hnone

end Publishing

/-! ## What is sent -/

theorem parseValue_eq_ok_iff {text : String} {v : Json.Value} :
    parseValue text = .ok v ↔ Document (ValueText (Json.depthLimit - 1)) text.toList v :=
  (reads_readValue (Json.depthLimit - 1)).readText_eq_ok_iff

theorem readPayload_of_document {text : String} {v : Json.Value}
    (h : Document (ValueText (Json.depthLimit - 1)) text.toList v) : readPayload text = v := by
  rw [readPayload, parseValue_eq_ok_iff.2 h]

theorem readPayload_of_not_document {text : String}
    (h : ¬ ∃ v, Document (ValueText (Json.depthLimit - 1)) text.toList v) :
    readPayload text = .string text := by
  rw [readPayload]
  cases hparse : parseValue text with
  | ok v => exact absurd ⟨v, parseValue_eq_ok_iff.1 hparse⟩ h
  | error e => rfl

/-- For every topic that is not taken for a switch and every text: what is given is sent, unless the
text is a document that begins with a hyphen, or one that nests too deeply or has a number out of
range or a surrogate alone, or else the environment by itself is refused. -/
theorem sendsGiven_iff (environment : Environment) {topic : String}
    (htopic : topic.toList.head? ≠ some '-') (text : String) :
    SendsGiven environment topic text ↔
      (IsDocument text.toList → text.toList.head? ≠ some '-' ∧
          ∃ v, Document (ValueText (Json.depthLimit - 1)) text.toList v) ∧
        (IsDocument text.toList ∨ text.toList.head? ≠ some '-' → Accepts environment [] []) := by
  constructor
  · intro hsends
    have hhead : IsDocument text.toList → text.toList.head? ≠ some '-' := by
      intro hdocument hhead
      obtain ⟨v, -, hpublishes⟩ := hsends.document hdocument
      obtain ⟨d, cs, htext, hd⟩ := hdocument.exists_digit hhead
      exact not_publishes_of_digit htopic htext hd v hpublishes
    refine ⟨fun hdocument => ⟨hhead hdocument, ?_⟩, fun hgiven => ?_⟩
    · by_contra hno
      -- Then the text itself is sent, but no text stands for itself.
      obtain ⟨v, hv, hpublishes⟩ := hsends.document hdocument
      have haccepts := hpublishes.accepts htopic (hhead hdocument)
      have htext := publishes_readPayload haccepts htopic (hhead hdocument)
      rw [readPayload_of_not_document hno] at htext
      rw [hpublishes.unique htext] at hv
      exact not_document_self text hv
    · by_cases hdocument : IsDocument text.toList
      · obtain ⟨v, -, hpublishes⟩ := hsends.document hdocument
        exact hpublishes.accepts htopic (hhead hdocument)
      · have hplain := hgiven.resolve_left hdocument
        exact (hsends.text hdocument hplain).accepts htopic hplain
  · rintro ⟨hread, haccepts⟩
    refine ⟨fun hdocument => ?_, fun hno hhead => ?_⟩
    · obtain ⟨hhead, v, hv⟩ := hread hdocument
      refine ⟨v, hv.unbounded, ?_⟩
      rw [← readPayload_of_document hv]
      exact publishes_readPayload (haccepts (.inl hdocument)) htopic hhead
    · rw [← readPayload_of_not_document fun hv => hno hv.choose_spec.isDocument]
      exact publishes_readPayload (haccepts (.inr hhead)) htopic hhead

theorem accepts_empty : Accepts (fun _ => none) [] [] := by
  have hnames : ∀ s, ¬ Names (fun _ => none) [] s := by
    rintro s (⟨g, hg, -⟩ | hvariable)
    · cases hg
    · rw [Option.bind_fun_none] at hvariable
      cases hvariable
  refine ⟨nofun, nofun, fun s hs text htext => ?_, fun h => hnames _ h.1, fun h => hnames _ h.1⟩
  rw [Option.bind_fun_none] at htext
  cases htext

theorem exists_document_of_isOk {text : String} (h : (parseValue text).isOk = true) :
    ∃ v, Document (ValueText (Json.depthLimit - 1)) text.toList v := by
  cases hparse : parseValue text with
  | ok v => exact ⟨v, parseValue_eq_ok_iff.1 hparse⟩
  | error e =>
    rw [hparse] at h
    cases h

theorem sendsGiven_object :
    IsDocument "\x7b\"a\":1,\"a\":[-2]\x7d".toList ∧
      SendsGiven (fun _ => none) "foo" "\x7b\"a\":1,\"a\":[-2]\x7d" := by
  have hdocument : ∃ v, Document (ValueText (Json.depthLimit - 1))
      "\x7b\"a\":1,\"a\":[-2]\x7d".toList v := exists_document_of_isOk (by decide +kernel)
  exact ⟨hdocument.choose_spec.isDocument,
    (sendsGiven_iff _ (by decide) _).2 ⟨fun _ => ⟨by decide, hdocument⟩, fun _ => accepts_empty⟩⟩

/-- A negative number is a document, and is taken for a switch. -/
theorem not_sendsGiven_negative : ¬ SendsGiven (fun _ => none) "foo" "-1" := by
  intro hsends
  obtain ⟨v, hv⟩ : ∃ v, Document (ValueText (Json.depthLimit - 1)) "-1".toList v :=
    exists_document_of_isOk (by decide +kernel)
  obtain ⟨-, -, i, -, hparse, -⟩ := hsends.document hv.isDocument
  have hrefused : (parse (fun _ => none) ["publish", "foo", "-1"]).isOk = false := by
    decide +kernel
  rw [hparse] at hrefused
  cases hrefused

end TopicClient.CommandLine
