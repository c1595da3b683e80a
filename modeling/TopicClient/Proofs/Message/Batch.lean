import TopicClient.Message.Event
import TopicClient.Proofs.Json.Layout

/-!
# The text of a batch

`Event.Decodes` says how a whole text spells a batch of events: every element of its array is an
event, the elements are separated by commas, and nothing but blanks stands around the array. A
batch is only read from such a text, so one part of it that is malformed spoils all of it.
-/

namespace TopicClient

namespace Event

open Json

/-- The text of an array of events from a place after its opening bracket to the end. Each element
is an event that is read in full where it stands. -/
inductive Elements : Bool → List Char → List Event → Prop
  | close {first : Bool} {b b' : List Char} (hb : Blanks b) (hb' : Blanks b') :
      Elements first (b ++ ']' :: b') []
  | first {b s r : List Char} {e : Event} {es : List Event} (hb : Blanks b)
      (he : read (depthLimit - 1) s = .ok (e, r)) (hes : Elements false r es) :
      Elements true (b ++ s) (e :: es)
  | next {b b' s r : List Char} {e : Event} {es : List Event} (hb : Blanks b) (hb' : Blanks b')
      (he : read (depthLimit - 1) s = .ok (e, r)) (hes : Elements false r es) :
      Elements false (b ++ ',' :: (b' ++ s)) (e :: es)

inductive Decodes : List Char → List Event → Prop
  | blank {s : List Char} (hs : ∀ c ∈ s, Text.isBlank c = true) : Decodes s []
  | null {b b' : List Char} (hb : Blanks b) (hb' : Blanks b') :
      Decodes (b ++ 'n' :: 'u' :: 'l' :: 'l' :: b') []
  | array {b s : List Char} {es : List Event} (hb : Blanks b) (hes : Elements true s es) :
      Decodes (b ++ '[' :: s) es

theorem elements_of_readElements {fuel : Nat} {first : Bool} {s r : List Char} {es : List Event}
    (h : Json.readElements (read (depthLimit - 1)) fuel first s = .ok (es, r)) (hr : Blanks r) :
    Elements first s es := by
  induction fuel generalizing first s es with
  | zero => cases h
  | succ fuel ih =>
    obtain ⟨next, hnext, h⟩ := exists_of_bind_eq_ok h
    cases next with
    | close rest =>
      cases h
      obtain ⟨b, hb, rfl⟩ := eq_of_nextElement_eq_close hnext
      exact .close hb hr
    | item t =>
      obtain ⟨⟨e, r'⟩, hitem, h⟩ := exists_of_bind_eq_ok h
      obtain ⟨⟨es', r''⟩, hrest, h⟩ := exists_of_bind_eq_ok h
      cases h
      obtain ⟨p, hp, rfl⟩ := exists_separator_of_nextElement hnext
      cases hp with
      | first hb => exact .first hb hitem (ih hrest)
      | @next b b' hb hb' =>
        rw [List.append_assoc, List.cons_append]
        exact .next hb hb' hitem (ih hrest)

theorem decodes_of_readBatch {s r : List Char} {es : List Event}
    (h : readBatch s = .ok (es, r)) (hr : Blanks r) : Decodes s es := by
  obtain ⟨b, hb, hs⟩ := exists_blanks_append_skipBlanks s
  rw [hs]
  rw [readBatch] at h
  split at h
  · cases h
  · rename_i s' hs'
    obtain ⟨r', hword, h⟩ := exists_of_bind_eq_ok h
    cases h
    rw [hs', eq_append_of_readWord_eq_ok hword]
    exact .null hb hr
  · rename_i s' hs'
    rw [hs']
    exact .array hb (elements_of_readElements h hr)
  · cases h

/-- A batch is read only from a text that spells it from its first character to its last. -/
theorem decodes_of_parseBatch {body : String} {es : List Event}
    (h : parseBatch body = .ok es) : Decodes body.toList es := by
  rw [parseBatch] at h
  split_ifs at h with hblank
  · cases h
    exact .blank (List.all_eq_true.1 hblank)
  · rw [readText] at h
    split at h
    · cases h
    · rename_i es' rest hread
      split at h
      · rename_i hrest
        cases h
        exact decodes_of_readBatch hread (blanks_of_skipBlanks_eq_nil hrest)
      · cases h

end Event

end TopicClient
