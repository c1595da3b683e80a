import TopicClient.Proofs.Message.Batch
import TopicClient.Proofs.Message.EventText

/-!
# Polls that bring no events

That there are no events to deliver may be said in three ways: by nothing, by null and by an empty
array. Around the two tokens, and in the array, only the blanks of JSON may stand; a body without a
token may hold any white space of Unicode. `parseBatch_no_events` says that exactly these texts are
read as no events, and that a text is not read at all if it is neither blank, nor null, nor an array
in the grammar of JSON.
-/

namespace TopicClient

namespace Event

open Json Message

/-- The body of a poll: nothing but white space, null, or an array of some kind. -/
inductive BodyText (array : List Char → Prop) : List Char → Prop
  | blank {s : List Char} (hs : ∀ c ∈ s, Text.isBlank c = true) : BodyText array s
  | null {b b' : List Char} (hb : Blanks b) (hb' : Blanks b') :
      BodyText array (b ++ 'n' :: 'u' :: 'l' :: 'l' :: b')
  | array {b t b' : List Char} (hb : Blanks b) (ht : array t) (hb' : Blanks b') :
      BodyText array (b ++ (t ++ b'))

def EmptyArray (t : List Char) : Prop := ∃ b, Blanks b ∧ t = '[' :: (b ++ [']'])

/-- An array in the grammar, whatever its elements are. -/
def AnyArray (t : List Char) : Prop := t.head? = some '[' ∧ ValueSyntax t

section Grammar

variable {n : ℕ} {s t : List Char} {e : Event} {es : List Event}

theorem valueSyntax_of_quotedText {v : String} (ht : QuotedText t v) : ValueSyntax t := by
  cases ht with
  | mk ht => exact ⟨1, .inl (.string (StringText.stringSyntax ht))⟩

theorem valueSyntax_of_naturalText {limit v : ℕ} (ht : NaturalText limit t v) : ValueSyntax t := by
  have htext := NumeralText.mk .none ht.1 .none .none
  rw [List.nil_append, List.nil_append, List.append_nil] at htext
  exact ⟨1, .inl (.number htext)⟩

theorem valueSyntax_of_optionalText {v : Option String} (ht : OptionalText t v) :
    ValueSyntax t := by
  cases ht with
  | null => exact ⟨1, .inl .null⟩
  | some ht => exact valueSyntax_of_quotedText ht

theorem Field.Gives.valueSyntax {f : Field} (h : f.Gives n t e) : ValueSyntax t := by
  cases f with
  | id | sessionId | authLevel => exact valueSyntax_of_naturalText h
  | topic | returnAddress => exact valueSyntax_of_quotedText h
  | payload => exact ⟨n + 1, ValueText.nestedSyntax h⟩
  | username => exact valueSyntax_of_optionalText h

theorem EventText.valueSyntax (ht : EventText n t e) : ValueSyntax t := by
  cases ht with
  | @object ms t e hs hothers he =>
    obtain ⟨ts, u, hu, hms, rfl⟩ := hs
    have hvalues : ∀ m ∈ ms, ValueSyntax m.2 := by
      intro m hm
      cases hfield : Field.named? m.1 with
      | none => exact hothers m hm hfield
      | some f =>
        have hmem : (f, m.2) ∈ fieldTexts ms := List.mem_filterMap.2 ⟨m, hm, by rw [hfield]; rfl⟩
        exact (he.gives _ hmem).valueSyntax
    have hmembers := (List.forall₂_and_left _ _).2 ⟨hvalues, hms⟩
    refine valueSyntax_object hu (forall_mem_of_forall₂ hmembers ?_)
    rintro m t ⟨hm, ht⟩
    cases ht with
    | mk hk hb hb' => exact ⟨_, .mk (StringText.stringSyntax hk) hb hb', hm⟩
  | @array ts t e hs hmin hmax he =>
    obtain ⟨u, hu, rfl⟩ := hs
    refine valueSyntax_array hu fun t ht => ?_
    have hzip : (Field.all.zip ts).map Prod.snd = ts := List.map_snd_zip hmax
    rw [← hzip] at ht
    obtain ⟨g, hg, rfl⟩ := List.mem_map.1 ht
    exact (he.gives g hg).valueSyntax

theorem BatchText.bodyText (h : BatchText n s es) : BodyText AnyArray s := by
  obtain ⟨b, ts, _, b', hb, hb', ⟨u, hu, rfl⟩, hes, rfl⟩ := h
  refine .array hb ⟨rfl, valueSyntax_array hu ?_⟩ hb'
  exact forall_mem_of_forall₂ hes.flip fun _ _ he => he.valueSyntax

end Grammar

section Bodies

variable {body : String} {es : List Event}

theorem bodyText_of_parseBatch (h : parseBatch body = .ok es) :
    BodyText AnyArray body.toList := by
  have hdecodes := decodes_of_parseBatch h
  generalize hs : body.toList = s at hdecodes
  cases hdecodes with
  | blank hblank => exact .blank hblank
  | null hb hb' => exact .null hb hb'
  | array hb _ =>
    have hbody := (congrArg skipBlanks hs).trans (skipBlanks_append_cons hb rfl _)
    rw [← hs]
    exact (batchText_of_parseBatch_eq hbody h).bodyText

theorem Decodes.bodyText_nil {s : List Char} (h : Decodes s []) : BodyText EmptyArray s := by
  cases h with
  | blank hblank => exact .blank hblank
  | null hb hb' => exact .null hb hb'
  | @array b _ _ hb hes =>
    cases hes with
    | @close _ m b' hm hb' =>
      have hempty : BodyText EmptyArray (b ++ ('[' :: (m ++ [']']) ++ b')) :=
        .array hb ⟨m, hm, rfl⟩ hb'
      rw [List.cons_append, List.append_assoc] at hempty
      exact hempty

theorem isAllBlank_eq_false {c : Char} (hc : c ∈ body.toList) (hblank : Text.isBlank c = false) :
    ¬ Text.isAllBlank body = true := by
  intro hall
  rw [List.all_eq_true.1 hall c hc] at hblank
  cases hblank

/-- A body that says that there are no events is read so. -/
theorem parseBatch_of_bodyText (h : BodyText EmptyArray body.toList) :
    parseBatch body = .ok [] := by
  generalize hs : body.toList = s at h
  cases h with
  | blank hblank =>
    rw [parseBatch, if_pos]
    exact List.all_eq_true.2 (hs ▸ hblank)
  | @null b b' hb hb' =>
    have hread : readBatch body.toList = .ok ([], b') := by
      rw [hs, readBatch, skipBlanks_append_cons hb rfl]
      rfl
    rw [parseBatch, if_neg (isAllBlank_eq_false (c := 'n') (by rw [hs]; simp) (by decide)),
      readText_eq_ok_iff]
    exact ⟨b', hread, hb'⟩
  | @array b t b' hb ht hb' =>
    obtain ⟨m, hm, rfl⟩ := ht
    refine parseBatch_eq_of_batchText ?_
    exact ⟨b, [], _, b', hb, hb', ⟨_, .close hm, rfl⟩, .nil, hs⟩

/-- A body is read as no events if, and only if, it is nothing but white space, null, or an empty
array, and one that is neither white space, nor null, nor any array is an error. -/
theorem parseBatch_no_events (body : String) :
    (parseBatch body = .ok [] ↔ BodyText EmptyArray body.toList) ∧
      (¬ BodyText AnyArray body.toList → ∃ error, parseBatch body = .error error) := by
  refine ⟨⟨fun h => (decodes_of_parseBatch h).bodyText_nil, parseBatch_of_bodyText⟩, ?_⟩
  intro hbody
  cases hread : parseBatch body with
  | error error => exact ⟨error, rfl⟩
  | ok es => exact absurd (bodyText_of_parseBatch hread) hbody

end Bodies

end Event

end TopicClient
