import TopicClient.Proofs.Client.Posting

/-!
# Posts for callbacks

A post may return its outcome or tell it to one of two callbacks. The two are written apart, but come
to the same: `exists_sendsAsPosts` says which callback is called and what it is told, and that the
same requests are made and the same is logged.
-/

namespace TopicClient.Client

def Notice.give {α : Type} (onSuccess onFailure : Option (Callback α)) : Notice → Action (Option α)
  | .success body => tell onSuccess body 200
  | .failure body status => tell onFailure body status

def Notice.ofOutcome : Outcome Accepted → Notice
  | .ok accepted => .success accepted.body
  | .error (.status code body) => .failure body code
  | .error e => .failure e.message 0

/-- A callback makes no requests and leaves the cookies alone. -/
def Callback.Quiet {α : Type} (callback : Callback α) : Prop :=
  ∀ body status c, ((callback body status).run c).2.agent = c.agent

structure SendsAsPosts (c : Client) (path : String) (payload : Option Payload) (notice : Notice) :
    Prop where
  /-- After the post, one of the callbacks is called once. -/
  tells : ∀ (α : Type) (onSuccess onFailure : Option (Callback α)),
    (sendTo path payload onSuccess onFailure).run c =
      (notice.give onSuccess onFailure).run ((post path payload).run c).2
  /-- The requests and the cookies are those of the post. -/
  agent_eq : ∀ (α : Type) (onSuccess onFailure : Option (Callback α)),
    (∀ callback ∈ onSuccess, callback.Quiet) → (∀ callback ∈ onFailure, callback.Quiet) →
      ((sendTo path payload onSuccess onFailure).run c).2.agent =
        ((post path payload).run c).2.agent
  success_iff : ∀ body, notice = .success body ↔ ((post path payload).run c).1 = .ok ⟨body⟩
  rejected_iff : ∀ body status, status ≠ 0 →
    (notice = .failure body status ↔
      ((post path payload).run c).1 = .error (.status status body))
  status_ne : ∀ body status, notice = .failure body status → status ≠ 200
  lost_iff : ∀ text, notice = .failure text 0 ↔
    ∃ e, ((post path payload).run c).1 = .error e ∧ (∀ status body, e ≠ .status status body) ∧
      e.message = text
  /-- A payload that cannot be written changes nothing. -/
  unwritten : ∀ e, payload = some (.error e) →
    (post path payload).run c = (.error (.serialization (.writing e)), c)
  /-- What has come in full is logged as it is by the post that logs its outcome. -/
  logs : ∀ (α : Type) body status text, encode payload = .ok body →
    (c.exchange path body).1 = .ok ⟨status, .ok text⟩ →
      ((sendTo path payload (none : Option (Callback α)) none).run c).2 =
          ((logged path (post path payload)).run c).2 ∧
        ((logged path (post path payload)).run c).2.delivery.logs =
          ((post path payload).run c).2.delivery.logs ++
            [record (if status = 200 then .info else .warn) .transport text
              [("status", Log.number status)]]

section Telling

variable {α : Type} (onSuccess onFailure : Option (Callback α))

theorem inform_tell (o : Outcome Accepted) :
    inform (tell onSuccess) (tell onFailure) o =
      (Notice.ofOutcome o).give onSuccess onFailure := by
  rcases o with e | accepted
  · cases e <;> rfl
  · rfl

theorem run_sendTo (c : Client) (path : String) (payload : Option Payload) :
    (sendTo path payload onSuccess onFailure).run c =
      ((Notice.ofOutcome ((post path payload).run c).1).give onSuccess onFailure).run
        ((post path payload).run c).2 := by
  rw [sendTo, post]
  cases encode payload with
  | ok body =>
    simp only [finish, inform_tell, StateT.run_bind]
    rfl
  | error e =>
    simp only [finish, inform_tell]
    rfl

theorem agent_tell {callback : Option (Callback α)} (h : ∀ f ∈ callback, f.Quiet) (body : String)
    (status : ℕ) (c : Client) : ((tell callback body status).run c).2.agent = c.agent := by
  cases callback with
  | none => rfl
  | some f => exact h f rfl body status c

theorem agent_give {onSuccess onFailure : Option (Callback α)}
    (hsuccess : ∀ callback ∈ onSuccess, callback.Quiet)
    (hfailure : ∀ callback ∈ onFailure, callback.Quiet) (notice : Notice) (c : Client) :
    ((notice.give onSuccess onFailure).run c).2.agent = c.agent := by
  cases notice with
  | success body => exact agent_tell hsuccess body 200 c
  | failure body status => exact agent_tell hfailure body status c

end Telling

/-- The outcome of a post that was answered in full is logged in the same way where it is returned
and where it is told and callbacks are missing. -/
theorem logs_of_run_post {α : Type} {c c' : Client} {path : String} {payload : Option Payload}
    {status : ℕ} {text : String} (h : (post path payload).run c = (judge status text, c')) :
    ((sendTo path payload (none : Option (Callback α)) none).run c).2 =
        ((logged path (post path payload)).run c).2 ∧
      ((logged path (post path payload)).run c).2.delivery.logs = c'.delivery.logs ++
        [record (if status = 200 then .info else .warn) .transport text
          [("status", Log.number status)]] := by
  rw [run_sendTo, logged, StateT.run_bind, h, judge]
  by_cases hs : status = 200
  · subst hs
    exact ⟨rfl, rfl⟩
  · rw [if_neg hs]
    exact ⟨rfl, rfl⟩

section Outcomes

variable {c : Client} {path : String} {payload : Option Payload}

/-- The status of an error is that of a reply of the server. -/
theorem status_of_run_post {status : ℕ} {body : String}
    (h : ((post path payload).run c).1 = .error (.status status body)) :
    status ≠ 200 ∧ ∃ response, .response response ∈ c.agent.server.replies ∧
      response.status = status := by
  rw [post] at h
  cases hencode : encode payload with
  | error e =>
    rw [hencode] at h
    rcases payload with _ | e' | v
    · cases hencode
    · cases hencode
      cases h
    · cases hencode
  | ok written =>
    rw [hencode] at h
    simp only [run_postBody] at h
    obtain ⟨hanswer, hstatus⟩ := outcomeOf_eq_status_iff.1 h
    obtain ⟨url, response, _, hleads, heq⟩ :=
      Http.Agent.exists_leads_of_post_eq_ok (Prod.ext hanswer rfl)
    obtain ⟨rfl, _⟩ := Http.Answer.mk.inj heq
    refine ⟨hstatus, response, hleads.reply.resolve_left ?_, rfl⟩
    rintro rfl
    exact hstatus rfl

theorem ofOutcome_eq_success_iff {o : Outcome Accepted} {body : String} :
    Notice.ofOutcome o = .success body ↔ o = .ok ⟨body⟩ := by
  rcases o with e | accepted
  · cases e <;> simp [Notice.ofOutcome]
  · obtain ⟨text⟩ := accepted
    simp [Notice.ofOutcome]

theorem ofOutcome_eq_failure_iff {o : Outcome Accepted} {body : String} {status : ℕ} :
    Notice.ofOutcome o = .failure body status ↔
      o = .error (.status status body) ∨
        status = 0 ∧ ∃ e, o = .error e ∧ (∀ status body, e ≠ .status status body) ∧
          e.message = body := by
  rcases o with e | accepted
  · cases e <;> simp [Notice.ofOutcome, and_comm, eq_comm]
  · simp [Notice.ofOutcome]

end Outcomes

/-- A post for callbacks agrees with the post that returns its outcome, for every client, payload and
behaviour of a server whose responses have statuses other than 0. -/
theorem exists_sendsAsPosts (c : Client) (path : String) (payload : Option Payload)
    (h : ∀ response, .response response ∈ c.agent.server.replies → response.status ≠ 0) :
    ∃ notice, SendsAsPosts c path payload notice := by
  have hzero : ∀ body, ((post path payload).run c).1 ≠ .error (.status 0 body) := by
    intro body hrejected
    obtain ⟨_, response, hmem, hstatus⟩ := status_of_run_post hrejected
    exact h response hmem hstatus
  refine ⟨Notice.ofOutcome ((post path payload).run c).1, ?_, ?_, ?_, ?_, ?_, ?_, ?_, ?_⟩
  · intro α onSuccess onFailure
    exact run_sendTo onSuccess onFailure c path payload
  · intro α onSuccess onFailure hsuccess hfailure
    rw [run_sendTo]
    exact agent_give hsuccess hfailure _ _
  · intro body
    exact ofOutcome_eq_success_iff
  · intro body status hstatus
    rw [ofOutcome_eq_failure_iff]
    exact or_iff_left fun hlost => hstatus hlost.1
  · rintro body status hnotice rfl
    obtain hrejected | ⟨hlost, _⟩ := ofOutcome_eq_failure_iff.1 hnotice
    · exact (status_of_run_post hrejected).1 rfl
    · cases hlost
  · intro text
    rw [ofOutcome_eq_failure_iff, or_iff_right (hzero text)]
    exact and_iff_right rfl
  · rintro e rfl
    rfl
  · intro α body status text hbody hanswer
    have hpost : (post path payload).run c = (judge status text, c.afterExchange path body) := by
      rw [post, hbody]
      simp only [run_postBody, hanswer, outcomeOf]
    rw [hpost]
    exact logs_of_run_post hpost

def unwelcome : Client where
  config := .ofUrl "http://susi.test"
  base := "http://susi.test"
  agent :=
    { server := { replies := [.response { status := 404, body := "gone".toUTF8.toList }] } }

theorem sendsAsPosts_unwelcome : ∃ notice, SendsAsPosts unwelcome "/x" none notice ∧
    notice = .failure "gone" 404 := by
  obtain ⟨notice, hsends⟩ := exists_sendsAsPosts unwelcome "/x" none fun response hmem => by
    obtain rfl := Http.Reply.response.inj (List.mem_singleton.1 hmem)
    decide
  refine ⟨notice, hsends, (hsends.rejected_iff "gone" 404 (by decide)).2 ?_⟩
  have hnotice : Notice.ofOutcome ((post "/x" none).run unwelcome).1 = .failure "gone" 404 := by
    decide +kernel
  obtain hrejected | ⟨hzero, _⟩ := ofOutcome_eq_failure_iff.1 hnotice
  · exact hrejected
  · cases hzero

end TopicClient.Client
