import TopicClient.Proofs.Client.OnePost
import TopicClient.Proofs.Message.RoundTrip

/-!
# The bodies of requests

A client sends credentials, subscriptions and publications (`Submission`). Each has a record of
members in a fixed order, and its body is the text of that record. `readsBack_of_isExact` says that
the record is read back from the body, whatever strings and however deep a payload it holds, that
no other submission has the same body, and that the calls send it as it is.
-/

namespace TopicClient

open Json

inductive Submission where
  | login (credentials : Credentials)
  | subscribe (subscription : Subscription)
  | publish (publication : Publication)

namespace Submission

def body : Submission → String
  | login credentials => credentials.body
  | subscribe subscription => subscription.body
  | publish publication => publication.body

def levelInteger (level : UInt8) : Json.Integer where
  val := level.toNat
  lower := by omega
  upper := by have := level.toNat_lt; omega

def levelValue (level : UInt8) : Value := .number (.integer (levelInteger level))

/-- The members that a body should have, in their order. -/
def record : Submission → List (String × Value)
  | login c => [("username", .string c.username), ("password", .string c.password)]
  | subscribe s => [("key", .string s.key), ("authlevel", levelValue s.authLevel)]
  | publish p =>
    [("key", .string p.key), ("payload", p.payload), ("authlevel", levelValue p.authLevel)] ++
      p.returnAddress.toList.map fun a => ("returnaddr", .string a)

/-- The payload, if there is one, is a value whose numbers are kept exactly. -/
def IsExact : Submission → Prop
  | publish p => p.payload.Integral ∧ p.payload.Ordered
  | _ => True

def members : Submission → List (String × List Char)
  | login c => [stringMember "username" c.username, stringMember "password" c.password]
  | subscribe s => [stringMember "key" s.key, authLevelMember s.authLevel]
  | publish p => p.members

end Submission

def Client.Operation.submission? : Client.Operation → Option Submission
  | .login credentials => some (.login credentials)
  | .publish key (.ok payload) => some (.publish { key, payload })
  | .publishMessage message => some (.publish message)
  | .subscribe key authLevel _ => some (.subscribe ⟨key, authLevel⟩)
  | _ => none

namespace Submission

open Client

variable {m m' : Submission}

section Members

variable {s : String} {level : UInt8}

theorem unboundedText_quote (s : String) : UnboundedText (quote s.toList) (.string s) :=
  ⟨0, .string (keyText_escape s)⟩

theorem unboundedText_level (level : UInt8) :
    UnboundedText (toString level.toNat).toList (levelValue level) :=
  ⟨0, scalarText_integer (levelInteger level)⟩

theorem toList_body (m : Submission) : m.body.toList = recordChars m.members := by
  cases m <;> exact String.toList_ofList

theorem forall₂_members (hm : m.IsExact) :
    List.Forall₂ (fun t v => t.1 = v.1 ∧ UnboundedText t.2 v.2) m.members m.record := by
  cases m with
  | login c =>
    exact .cons ⟨rfl, unboundedText_quote _⟩ (.cons ⟨rfl, unboundedText_quote _⟩ .nil)
  | subscribe s =>
    exact .cons ⟨rfl, unboundedText_quote _⟩ (.cons ⟨rfl, unboundedText_level _⟩ .nil)
  | publish p =>
    have hpayload : UnboundedText p.payload.chars p.payload :=
      ⟨_, valueText_chars hm.1 hm.2 le_rfl⟩
    refine .cons ⟨rfl, unboundedText_quote _⟩ (.cons ⟨rfl, hpayload⟩
      (.cons ⟨rfl, unboundedText_level _⟩ ?_))
    cases p.returnAddress with
    | none => exact .nil
    | some a => exact .cons ⟨rfl, unboundedText_quote a⟩ .nil

theorem printable_members (hm : m.IsExact) : ∀ t ∈ m.members, Printable t.2 := by
  have hlevel : ∀ level : UInt8, Printable (toString level.toNat).toList := fun level =>
    printable_integer (levelInteger level)
  cases m with
  | login c =>
    simp only [members, List.forall_mem_cons]
    exact ⟨printable_quote _, printable_quote _, List.forall_mem_nil _⟩
  | subscribe s =>
    simp only [members, List.forall_mem_cons]
    exact ⟨printable_quote _, hlevel _, List.forall_mem_nil _⟩
  | publish p =>
    simp only [members, Publication.members, List.forall_mem_append, List.forall_mem_cons,
      List.forall_mem_map]
    refine ⟨⟨printable_quote _, printable_chars hm.1, hlevel _, List.forall_mem_nil _⟩, ?_⟩
    exact fun a _ => printable_quote a.toList

end Members

theorem parseRecord_body (hm : m.IsExact) : parseRecord m.body = .ok m.record := by
  refine parseRecord_eq_ok_iff.2 ⟨[], recordChars m.members, [], blanks_nil, ?_, blanks_nil, ?_⟩
  · exact ⟨m.members, objectText_recordChars _, forall₂_members hm⟩
  · rw [toList_body, List.nil_append, List.append_nil]

theorem levelValue_inj {level level' : UInt8} :
    levelValue level = levelValue level' ↔ level = level' := by
  refine ⟨fun h => ?_, congrArg levelValue⟩
  have hval := congrArg Integer.val (Number.integer.inj (Value.number.inj h))
  exact UInt8.toNat_inj.1 (Int.ofNat.inj hval)

/-- Submissions of different kinds differ in the names of their members. -/
theorem eq_of_record_eq (h : m.record = m'.record) : m = m' := by
  cases m with
  | login c =>
    obtain ⟨username, password⟩ := c
    cases m' with
    | login c' =>
      obtain ⟨username', password'⟩ := c'
      simpa [record] using h
    | subscribe s' => simp [record] at h
    | publish p' => simp [record] at h
  | subscribe s =>
    obtain ⟨key, level⟩ := s
    cases m' with
    | login c' => simp [record] at h
    | subscribe s' =>
      obtain ⟨key', level'⟩ := s'
      simpa [record, levelValue_inj] using h
    | publish p' => simp [record] at h
  | publish p =>
    obtain ⟨key, payload, level, address⟩ := p
    cases m' with
    | login c' => simp [record] at h
    | subscribe s' => simp [record] at h
    | publish p' =>
      obtain ⟨key', payload', level', address'⟩ := p'
      have haddress : address = address' := by
        cases address with
        | none => cases address' with
          | none => rfl
          | some a' => simp [record] at h
        | some a => cases address' with
          | none => simp [record] at h
          | some a' => simpa [record] using (List.append_inj h rfl).2
      have hmembers := (List.append_inj h rfl).1
      rw [haddress]
      simpa [levelValue_inj] using hmembers

/-- What is read back is all that a body can be the body of. -/
theorem eq_of_body_eq (hm : m.IsExact) (hm' : m'.IsExact) (h : m.body = m'.body) : m = m' := by
  have hread := parseRecord_body hm
  rw [h, parseRecord_body hm'] at hread
  exact (eq_of_record_eq (Except.ok.inj hread)).symm

/-! ## What is sent -/

theorem body_of_posts? {c : Client} {op : Operation} {path : String} {body : Option String}
    (hm : op.submission? = some m) (h : op.posts? c = some (path, body)) : body = some m.body := by
  cases op with
  | login credentials =>
    cases hm
    cases h
    rfl
  | publish key payload =>
    cases payload with
    | error e => cases hm
    | ok payload =>
      cases hm
      cases h
      rfl
  | publishMessage message =>
    cases hm
    cases h
    rfl
  | subscribe key authLevel handler =>
    cases hm
    simp only [Operation.posts?] at h
    split at h
    · cases h
      rfl
    · cases h
  | _ => cases hm

/-- A call that reaches the server begins with the body of what it submits. -/
theorem sent_of_submission? (c : Client) {op : Operation} (hm : op.submission? = some m) :
    (op.run.run c).2.agent.received = c.agent.received ∨ ∃ url cookies rs,
      (op.run.run c).2.agent.received = c.agent.received ++
        Http.Request.received { method := .post, url, body := some m.body } cookies :: rs := by
  obtain h | ⟨path, body, url, cookies, rs, hposts, -, -, hreceived⟩ := exists_received_of_run c op
  · exact .inl h
  · rw [body_of_posts? hm hposts] at hreceived
    exact .inr ⟨url, cookies, rs, hreceived⟩

structure ReadsBack (m : Submission) : Prop where
  /-- The members are found in the body in their order, with their values. -/
  read : parseRecord m.body = .ok m.record
  printable : Printable m.body.toList
  /-- No other submission has the same body. -/
  unambiguous : ∀ m' : Submission, m'.IsExact → m'.body = m.body → m' = m
  /-- The first request of a call has the body of what the call submits. -/
  sent : ∀ (c : Client) (op : Operation), op.submission? = some m →
    (op.run.run c).2.agent.received = c.agent.received ∨ ∃ url cookies rs,
      (op.run.run c).2.agent.received = c.agent.received ++
        Http.Request.received { method := .post, url, body := some m.body } cookies :: rs
  /-- A payload that is published alone is published as the payload of a message. -/
  published : ∀ (c : Client) key payload, m = .publish { key, payload } →
    (Client.publish key (.ok payload)).run c = (publishMessage { key, payload }).run c

/-- Every submission is read back from its body, whatever its strings and its payload. -/
theorem readsBack_of_isExact (hm : m.IsExact) : m.ReadsBack where
  read := parseRecord_body hm
  printable := by
    rw [toList_body]
    exact printable_recordChars (printable_members hm)
  unambiguous m' hm' h := eq_of_body_eq hm' hm h
  sent c op := sent_of_submission? c
  published _ _ _ _ := rfl

/-- A publication with quotes and control characters, the least and the greatest integer, and an
address for replies that is empty. -/
def awkward : Publication where
  key := "a\"\\\n\x01é"
  payload := .object [("\t", .array
    [.number (.integer ⟨-9223372036854775808, by decide, by decide⟩),
      .number (.integer ⟨18446744073709551615, by decide, by decide⟩)])]
  authLevel := 255
  returnAddress := some ""

theorem readsBack_awkward :
    (publish awkward).IsExact ∧
      (publish awkward).body = "\x7b\"key\":\"a\\\"\\\\\\n\\u0001é\",\"payload\":\x7b\"\\t\":" ++
        "[-9223372036854775808,18446744073709551615]\x7d," ++
        "\"authlevel\":255,\"returnaddr\":\"\"\x7d" ∧
      parseRecord (publish awkward).body = .ok (publish awkward).record := by
  have hexact : (publish awkward).IsExact := by
    constructor
    · refine .object (List.forall_mem_singleton.2 (.array ?_))
      simp only [List.forall_mem_cons]
      exact ⟨.integer _, .integer _, List.forall_mem_nil _⟩
    · refine .object (List.pairwise_singleton _ _) (List.forall_mem_singleton.2 (.array ?_))
      simp only [List.forall_mem_cons]
      exact ⟨.number _, .number _, List.forall_mem_nil _⟩
  exact ⟨hexact, by decide +kernel, (readsBack_of_isExact hexact).read⟩

end Submission

end TopicClient
