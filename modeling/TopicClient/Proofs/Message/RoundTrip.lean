import TopicClient.Message.Request
import TopicClient.Proofs.Json.Printing
import TopicClient.Proofs.Message.EventText

/-!
# From a publication to an event

A publication is sent as an object whose members have the texts `Publication.members`. A server
that passes it on puts these texts into an event (`Relays`), under the topic that is the key of the
publication, and the event among others into a batch (`Carries`). Such a batch is read, and the
event is what was published, exactly as long as the payload nests at most 125 arrays and objects
deep: the batch and the event are two levels of the 127 that are read.
-/

namespace TopicClient

open Json Message

def Publication.members (m : Publication) : List (String × List Char) :=
  [stringMember "key" m.key, ("payload", m.payload.chars), authLevelMember m.authLevel] ++
    m.returnAddress.toList.map (stringMember "returnaddr")

/-- Every publication is written as an object with its members. -/
theorem Publication.objectText_body (m : Publication) :
    ObjectText KeyText m.members m.body.toList := by
  have hbody : m.body = String.ofList (recordChars m.members) := rfl
  rw [hbody, String.toList_ofList]
  exact objectText_recordChars m.members

namespace Event

/-- The members of an event pass on a publication: its payload, its level and its address for
replies have the texts they were sent with, and the topic is its key. What else there is in the
event is well-formed. -/
structure Relays (m : Publication) (ms : List (String × List Char)) : Prop where
  once : ((fieldTexts ms).map Prod.fst).Nodup
  topic_given : Field.topic ∈ (fieldTexts ms).map Prod.fst
  topic : ∀ t, (Field.topic, t) ∈ fieldTexts ms → QuotedText t m.key
  unchanged : ∀ f ∈ [Field.payload, .authLevel, .returnAddress], ∀ t,
    (f, t) ∈ fieldTexts ms ↔ (f.name, t) ∈ m.members
  rest : ∀ f ∈ [Field.id, .sessionId, .username], ∀ t,
    (f, t) ∈ fieldTexts ms → ∃ e, f.Gives 0 t e
  others : OthersAreValues ms

/-- A text is a batch in which a publication is passed on between other events. -/
def Carries (m : Publication) (before after : List Event) (s : List Char) : Prop :=
  ∃ b ts t ts' u b' ms, Blanks b ∧ Blanks b' ∧ ArrayText (ts ++ t :: ts') u ∧ s = b ++ (u ++ b') ∧
    List.Forall₂ (EventText 125) ts before ∧ List.Forall₂ (EventText 125) ts' after ∧
    ObjectText KeyText ms t ∧ Relays m ms

structure Received (m : Publication) (e : Event) : Prop where
  topic : e.topic = m.key
  payload : e.payload = m.payload
  authLevel : e.authLevel = m.authLevel
  replyTo : e.replyTo = m.returnAddress

section Bounds

variable {n n' : ℕ} {t : List Char} {e : Event} {s : List Char} {es es' : List Event}

theorem Field.Gives.mono {f : Field} (h : f.Gives n t e) (hle : n ≤ n') : f.Gives n' t e := by
  cases f with
  | payload => exact ValueText.mono h hle
  | _ => exact h

theorem EventText.mono (h : EventText n t e) (hle : n ≤ n') : EventText n' t e := by
  cases h with
  | object hs hothers he =>
    exact .object hs hothers ⟨he.once, fun g hg => (he.gives g hg).mono hle, he.lacks⟩
  | array hs hmin hmax he =>
    exact .array hs hmin hmax ⟨he.once, fun g hg => (he.gives g hg).mono hle, he.lacks⟩

theorem Describes.nesting_le_and_ordered {gs : List (Field × List Char)} (h : Describes n gs e) :
    e.payload.nesting ≤ n ∧ e.payload.Ordered := by
  by_cases hgiven : Field.payload ∈ gs.map Prod.fst
  · obtain ⟨⟨f, t⟩, hg, rfl⟩ := List.mem_map.1 hgiven
    have ht : ValueText n t e.payload := h.gives _ hg
    exact ⟨ht.nesting_le, ht.ordered⟩
  · have hnull : e.payload = .null := h.lacks .payload hgiven
    rw [hnull]
    exact ⟨Nat.zero_le n, .null⟩

theorem EventText.nesting_le_and_ordered (h : EventText n t e) :
    e.payload.nesting ≤ n ∧ e.payload.Ordered := by
  cases h with
  | object _ _ he => exact he.nesting_le_and_ordered
  | array _ _ _ he => exact he.nesting_le_and_ordered

theorem BatchText.mono (h : BatchText n s es) (hle : n ≤ n') : BatchText n' s es := by
  obtain ⟨b, ts, u, b', hb, hb', hu, hes, hs⟩ := h
  exact ⟨b, ts, u, b', hb, hb', hu, hes.imp fun _ _ he => he.mono hle, hs⟩

/-- A text is a batch of one list of events only, whatever the bound. -/
theorem BatchText.unique (h : BatchText n s es) (h' : BatchText n' s es') : es = es' := by
  obtain ⟨r, hbracket⟩ := h.exists_bracket
  obtain ⟨u, hread, _⟩ := (batchText_iff hbracket).1 (h.mono (le_max_left n n'))
  obtain ⟨u', hread', _⟩ := (batchText_iff hbracket).1 (h'.mono (le_max_right n n'))
  rw [hread] at hread'
  exact (Prod.mk.inj (Except.ok.inj hread')).1

theorem BatchText.nesting_le_and_ordered (h : BatchText n s es) :
    ∀ e ∈ es, e.payload.nesting ≤ n ∧ e.payload.Ordered := by
  obtain ⟨b, ts, u, b', _, _, _, hes, _⟩ := h
  exact forall_mem_of_forall₂ hes fun _ _ he => he.nesting_le_and_ordered

end Bounds

section Publications

variable {m : Publication} {ms : List (String × List Char)} {e : Event} {n : ℕ} {t : List Char}
  {before after es : List Event} {body : String}

theorem payload_mem_members_iff : ("payload", t) ∈ m.members ↔ t = m.payload.chars := by
  simp [Publication.members, stringMember, authLevelMember]

theorem authLevel_mem_members_iff :
    ("authlevel", t) ∈ m.members ↔ t = (toString m.authLevel.toNat).toList := by
  simp [Publication.members, stringMember, authLevelMember]

theorem returnAddress_mem_members_iff :
    ("returnaddr", t) ∈ m.members ↔ ∃ a, m.returnAddress = some a ∧ t = quote a.toList := by
  simp [Publication.members, stringMember, authLevelMember, eq_comm]

theorem quotedText_quote (a : String) : QuotedText (quote a.toList) a := .mk (keyText_escape a)

/-- The fields that pass on a publication make up an event, if the bound is that of its payload. -/
theorem Relays.exists_describes (h : Relays m ms) (hi : m.payload.Integral)
    (ho : m.payload.Ordered) (hn : m.payload.nesting ≤ n) : ∃ e, Describes n (fieldTexts ms) e := by
  refine exists_describes_iff.2 ⟨h.once, h.topic_given, ?_⟩
  rintro ⟨f, t⟩ hg
  have hrest : f ∈ [Field.id, .sessionId, .username] → ∃ e, f.Gives n t e := by
    intro hf
    obtain ⟨e, he⟩ := h.rest f hf t hg
    exact ⟨e, he.mono (Nat.zero_le n)⟩
  cases f with
  | id => exact hrest (by decide)
  | sessionId => exact hrest (by decide)
  | username => exact hrest (by decide)
  | topic => exact ⟨{ topic := m.key }, h.topic t hg⟩
  | authLevel =>
    have ht := authLevel_mem_members_iff.1 ((h.unchanged .authLevel (by decide) t).1 hg)
    have hle : m.authLevel.toNat ≤ 255 := Nat.le_of_lt_succ m.authLevel.toNat_lt
    exact ⟨{ topic := "", authLevel := m.authLevel }, ht ▸ naturalText_toString hle⟩
  | returnAddress =>
    obtain ⟨a, _, ht⟩ :=
      returnAddress_mem_members_iff.1 ((h.unchanged .returnAddress (by decide) t).1 hg)
    exact ⟨{ topic := "", returnAddress := a }, ht ▸ quotedText_quote a⟩
  | payload =>
    have ht := payload_mem_members_iff.1 ((h.unchanged .payload (by decide) t).1 hg)
    exact ⟨{ topic := "", payload := m.payload }, ht ▸ valueText_chars hi ho hn⟩

/-- An event that is made up of them is what was published. -/
theorem Relays.received (h : Relays m ms) (hi : m.payload.Integral) (ho : m.payload.Ordered)
    (ha : m.returnAddress ≠ some "") (hn : m.payload.nesting ≤ n)
    (he : Describes n (fieldTexts ms) e) : Received m e where
  topic := by
    obtain ⟨⟨f, t⟩, hg, rfl⟩ := List.mem_map.1 h.topic_given
    exact reads_readTextField.unique (he.gives _ hg) (h.topic t hg)
  payload := by
    have hg := (h.unchanged .payload (by decide) _).2 (payload_mem_members_iff.2 rfl)
    exact (reads_readValue n).unique (he.gives _ hg) (valueText_chars hi ho hn)
  authLevel := by
    have hg := (h.unchanged .authLevel (by decide) _).2 (authLevel_mem_members_iff.2 rfl)
    have hle : m.authLevel.toNat ≤ 255 := Nat.le_of_lt_succ m.authLevel.toNat_lt
    exact reads_readUInt8.unique (he.gives _ hg) (naturalText_toString hle)
  replyTo := by
    cases haddress : m.returnAddress with
    | none =>
      have hlacks : e.returnAddress = "" := by
        refine he.lacks .returnAddress fun hgiven => ?_
        obtain ⟨⟨f, t⟩, hg, rfl⟩ := List.mem_map.1 hgiven
        obtain ⟨a, hsome, _⟩ :=
          returnAddress_mem_members_iff.1 ((h.unchanged .returnAddress (by decide) t).1 hg)
        rw [haddress] at hsome
        cases hsome
      rw [replyTo, hlacks]
      rfl
    | some a =>
      have hmember := returnAddress_mem_members_iff.2 ⟨a, haddress, rfl⟩
      have hg := (h.unchanged .returnAddress (by decide) _).2 hmember
      have hvalue : e.returnAddress = a :=
        reads_readTextField.unique (he.gives _ hg) (quotedText_quote a)
      have hne : ¬ a.isEmpty = true := by
        intro hempty
        rw [haddress, String.isEmpty_iff.1 hempty] at ha
        exact ha rfl
      rw [replyTo, hvalue, if_neg hne]

/-- Read without the bound of a poll, the batch holds the event that was published. -/
theorem Carries.exists_batchText {s : List Char} (h : Carries m before after s)
    (hi : m.payload.Integral) (ho : m.payload.Ordered) (ha : m.returnAddress ≠ some "")
    (hn : m.payload.nesting ≤ n) (hle : 125 ≤ n) :
    ∃ e, BatchText n s (before ++ e :: after) ∧ Received m e := by
  obtain ⟨b, ts, t, ts', u, b', ms, hb, hb', hu, hs, hts, hts', ht, hrelays⟩ := h
  obtain ⟨e, he⟩ := hrelays.exists_describes hi ho hn
  have hmono : ∀ {ts es}, List.Forall₂ (EventText 125) ts es → List.Forall₂ (EventText n) ts es :=
    fun h => h.imp fun _ _ he => he.mono hle
  refine ⟨e, ⟨b, _, u, b', hb, hb', hu, ?_, hs⟩, hrelays.received hi ho ha hn he⟩
  exact List.rel_append (hmono hts) (.cons (.object ht hrelays.others he) (hmono hts'))

theorem Carries.nesting_le (h : Carries m before after body.toList) (hi : m.payload.Integral)
    (ho : m.payload.Ordered) (ha : m.returnAddress ≠ some "") (hes : parseBatch body = .ok es) :
    m.payload.nesting ≤ 125 := by
  obtain ⟨e, hbatch, he⟩ := h.exists_batchText hi ho ha (le_max_right 125 _) (le_max_left _ _)
  obtain ⟨r, hbody⟩ := hbatch.exists_bracket
  have hread := batchText_of_parseBatch_eq hbody hes
  rw [hread.unique hbatch] at hread
  rw [← he.payload]
  exact (hread.nesting_le_and_ordered e (List.mem_append_right _ List.mem_cons_self)).1

/-- A publication is written whatever its payload. Passed on in a batch, it is received as it was
published if, and only if, its payload nests at most 125 levels deep. The batch of a deeper one is
refused as a whole. -/
theorem publication_round_trip (hi : m.payload.Integral) (ho : m.payload.Ordered)
    (ha : m.returnAddress ≠ some "") (hbody : Carries m before after body.toList) :
    ObjectText KeyText m.members m.body.toList ∧
      ((∃ e, parseBatch body = .ok (before ++ e :: after) ∧ Received m e) ↔
        m.payload.nesting ≤ 125) ∧
      (125 < m.payload.nesting → ∃ error, parseBatch body = .error error) := by
  refine ⟨m.objectText_body, ⟨?_, fun hn => ?_⟩, fun hn => ?_⟩
  · rintro ⟨e, hes, _⟩
    exact hbody.nesting_le hi ho ha hes
  · obtain ⟨e, hbatch, he⟩ := hbody.exists_batchText hi ho ha hn le_rfl
    exact ⟨e, parseBatch_eq_of_batchText hbatch, he⟩
  · cases hes : parseBatch body with
    | error error => exact ⟨error, rfl⟩
    | ok es => exact absurd (hbody.nesting_le hi ho ha hes) (Nat.not_le.2 hn)

/-- A payload that was received once can be published, and is received again. -/
theorem Carries.exists_received_again {source : List Char}
    (hbody : Carries m before after body.toList) (hsource : BatchText 125 source es) (he : e ∈ es)
    (hpayload : m.payload = e.payload) (hi : m.payload.Integral) (ha : m.returnAddress ≠ some "") :
    ∃ e', parseBatch body = .ok (before ++ e' :: after) ∧ Received m e' := by
  obtain ⟨hn, ho⟩ := hsource.nesting_le_and_ordered e he
  rw [← hpayload] at hn ho
  obtain ⟨e', hbatch, hreceived⟩ := hbody.exists_batchText hi ho ha hn le_rfl
  exact ⟨e', parseBatch_eq_of_batchText hbatch, hreceived⟩

def echoMembers (m : Publication) : List (String × List Char) :=
  ("topic", quote m.key.toList) :: m.members.tail

def echo (m : Publication) : String :=
  String.ofList ('[' :: (recordChars (echoMembers m) ++ [']']))

theorem fieldTexts_echoMembers (m : Publication) :
    fieldTexts (echoMembers m) =
      [(.topic, quote m.key.toList), (.payload, m.payload.chars),
        (.authLevel, (toString m.authLevel.toNat).toList)] ++
        m.returnAddress.toList.map fun a => (.returnAddress, quote a.toList) := by
  cases haddress : m.returnAddress with
  | none => simp only [echoMembers, Publication.members, haddress]; rfl
  | some a => simp only [echoMembers, Publication.members, haddress]; rfl

theorem relays_echoMembers (m : Publication) : Relays m (echoMembers m) where
  once := by
    rw [fieldTexts_echoMembers]
    cases m.returnAddress <;> simp
  topic_given := by
    rw [fieldTexts_echoMembers]
    exact List.mem_cons_self
  topic t ht := by
    rw [fieldTexts_echoMembers] at ht
    have ht : t = quote m.key.toList := by simpa using ht
    exact ht ▸ quotedText_quote m.key
  unchanged f hf t := by
    rw [fieldTexts_echoMembers]
    simp only [List.mem_cons, List.not_mem_nil, or_false] at hf
    rcases hf with rfl | rfl | rfl
    · simp [Field.name, payload_mem_members_iff]
    · simp [Field.name, authLevel_mem_members_iff]
    · simp [Field.name, returnAddress_mem_members_iff, eq_comm]
  rest f hf t ht := by
    rw [fieldTexts_echoMembers] at ht
    simp only [List.mem_cons, List.not_mem_nil, or_false] at hf
    rcases hf with rfl | rfl | rfl <;> simp at ht
  others := by
    intro k hk hnone
    have hfield : ∀ k ∈ echoMembers m, Field.named? k.1 ≠ none := by
      intro k hk
      simp only [echoMembers, Publication.members, List.cons_append, List.nil_append,
        List.tail_cons, List.mem_cons, List.mem_map] at hk
      rcases hk with rfl | rfl | rfl | ⟨a, _, rfl⟩ <;> exact nofun
    exact absurd hnone (hfield k hk)

theorem carries_echo (m : Publication) : Carries m [] [] (echo m).toList := by
  refine ⟨[], [], recordChars (echoMembers m), [], _, [], echoMembers m, blanks_nil, blanks_nil,
    arrayText_intercalate _, ?_, .nil, .nil, objectText_recordChars _, relays_echoMembers m⟩
  rw [echo, String.toList_ofList]
  simp [List.intercalate]

theorem exists_value_of_nesting (n : ℕ) :
    ∃ v : Value, v.Integral ∧ v.Ordered ∧ v.nesting = n := by
  induction n with
  | zero => exact ⟨.null, .null, .null, rfl⟩
  | succ n ih =>
    obtain ⟨v, hi, ho, hn⟩ := ih
    refine ⟨.array [v], .array ?_, .array ?_, ?_⟩
    · exact List.forall_mem_singleton.2 hi
    · exact List.forall_mem_singleton.2 ho
    · rw [Value.nesting, Value.elementsNesting, Value.elementsNesting, hn, Nat.max_zero]

/-- One payload at the bound comes back with its address for replies, one beyond it does not. -/
theorem round_trip_of_nested_arrays :
    (∃ v e, v.nesting = 125 ∧
      parseBatch (echo { key := "a", payload := v, returnAddress := some "b" }) = .ok [e] ∧
      e.payload = v ∧ e.replyTo = some "b") ∧
    ∃ v error, v.nesting = 126 ∧ parseBatch (echo { key := "a", payload := v }) = .error error := by
  constructor
  · obtain ⟨v, hi, ho, hn⟩ := exists_value_of_nesting 125
    have haddress : some "b" ≠ some "" := by decide
    obtain ⟨_, hread, _⟩ := publication_round_trip hi ho haddress
      (carries_echo { key := "a", payload := v, returnAddress := some "b" })
    obtain ⟨e, hes, he⟩ := hread.2 hn.le
    exact ⟨v, e, hn, hes, he.payload, he.replyTo⟩
  · obtain ⟨v, hi, ho, hn⟩ := exists_value_of_nesting 126
    have haddress : none ≠ some "" := by decide
    obtain ⟨_, _, hdeep⟩ := publication_round_trip hi ho haddress
      (carries_echo { key := "a", payload := v })
    obtain ⟨error, herror⟩ := hdeep (hn ▸ Nat.lt_succ_self 125)
    exact ⟨v, error, hn, herror⟩

end Publications

end Event

end TopicClient
