import TopicClient.Proofs.Json.Delimiting
import TopicClient.Registry.Dispatch

/-!
# The line of an event

Whoever publishes an event chooses its topic and its payload, and both stand in the line under which
the event is logged. Neither can break the line or be taken for a part of the other: the line holds
no control character, and it is the line of one topic and one payload only (`eventLine_faithful`).
-/

namespace TopicClient.Delivery

open Json

theorem toList_eventLine (e : Event) :
    (eventLine e).toList =
      "Logging: ".toList ++ (quote e.topic.toList ++ (" : ".toList ++ e.payload.chars)) := by
  have hline : eventLine e = "Logging: " ++ (Value.string e.topic).render ++ " : " ++
      e.payload.render := rfl
  simp only [hline, String.toList_append, Value.render, String.toList_ofList, Value.chars,
    List.append_assoc]

theorem printable_eventLine {e : Event} (he : e.payload.Integral) :
    Printable (eventLine e).toList := by
  rw [toList_eventLine]
  simp only [printable_append_iff]
  exact ⟨by decide, printable_quote _, by decide, printable_chars he⟩

/-- The topic ends at its closing quote, and what is behind the colon is the payload. -/
theorem eq_of_eventLine_eq {e e' : Event} (he : e.payload.Integral) (he' : e'.payload.Integral)
    (h : eventLine e = eventLine e') : e.topic = e'.topic ∧ e.payload = e'.payload := by
  have hchars := congrArg String.toList h
  rw [toList_eventLine, toList_eventLine] at hchars
  obtain ⟨htopic, hrest⟩ := eq_of_quote_append_eq (List.append_cancel_left hchars)
  have hpayload := List.append_cancel_left hrest
  rw [← List.append_nil e.payload.chars, ← List.append_nil e'.payload.chars] at hpayload
  have hends : Ends [] := ends_of_blanks blanks_nil
  exact ⟨htopic, (toldApart_chars he e'.payload [] [] he' hends hends hpayload).1⟩

/-- There is no control character in the line of an event whose numbers are all integers, and two
such events have the same line if, and only if, they have the same topic and the same payload. -/
theorem eventLine_faithful {e e' : Event} (he : e.payload.Integral) (he' : e'.payload.Integral) :
    Printable (eventLine e).toList ∧
      (eventLine e = eventLine e' ↔ e.topic = e'.topic ∧ e.payload = e'.payload) := by
  refine ⟨printable_eventLine he, eq_of_eventLine_eq he he', ?_⟩
  rintro ⟨htopic, hpayload⟩
  rw [eventLine, eventLine, htopic, hpayload]

/-- A topic in which the lines of two other events seem to stand, with a payload of a negative and a
large integer under a key with a control character. -/
def disguised : Event where
  topic := "a\" : null\nLogging: \"b"
  payload := .object [("\t", .array [.number (.integer ⟨-7, by decide, by decide⟩),
    .number (.integer ⟨9223372036854775808, by decide, by decide⟩)])]

theorem eventLine_disguised :
    disguised.payload.Integral ∧ Value.null.Integral ∧ Printable (eventLine disguised).toList ∧
      eventLine disguised ≠ eventLine { topic := "a" } := by
  have hdisguised : disguised.payload.Integral :=
    .object (List.forall_mem_singleton.2 (.array
      (List.forall_mem_cons.2 ⟨.integer _, List.forall_mem_singleton.2 (.integer _)⟩)))
  have hother : ({ topic := "a" } : Event).payload.Integral := .null
  obtain ⟨hprintable, hiff⟩ := eventLine_faithful hdisguised hother
  exact ⟨hdisguised, .null, hprintable, fun h => absurd (hiff.1 h).1 (by decide)⟩

end TopicClient.Delivery
