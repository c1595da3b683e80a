import Mathlib.Tactic.SplitIfs
import TopicClient.Client.Transport
import TopicClient.Proofs.Http.Chain

/-!
# What a post does to a client

A post changes the agent of the client as the exchange does, and its log; nothing else. Its value
is that of the exchange: an answer of the status 200 with all of its body, or an error.
-/

namespace TopicClient.Client

def outcomeOf : Except Http.Failure Http.Answer → Outcome Accepted
  | .error failure => .error (.http failure)
  | .ok ⟨_, .error failure⟩ => .error (.http failure)
  | .ok ⟨status, .ok body⟩ => judge status body

/-- What is logged of an exchange: the post, and a status other than 200 once all has come. -/
def postRecords (url : String) : Except Http.Failure Http.Answer → List Log.Record
  | .ok ⟨status, .ok _⟩ =>
    record .debug .transport "POST" [("url", .plain url)] ::
      if status = 200 then []
      else [record .debug .transport "Request rejected"
        [("url", .plain url), ("status", Log.number status)]]
  | _ => [record .debug .transport "POST" [("url", .plain url)]]

def exchange (c : Client) (path : String) (body : Option String) :
    Except Http.Failure Http.Answer × Http.Agent :=
  c.agent.post (endpoint c.base path) body

def afterExchange (c : Client) (path : String) (body : Option String) : Client :=
  { c with
    agent := (c.exchange path body).2
    delivery := { c.delivery with
      logs := c.delivery.logs ++ postRecords (endpoint c.base path) (c.exchange path body).1 } }

theorem run_bind_of_run {α β : Type} {action : Action α} {next : α → Action β} {c c' : Client}
    {a : α} (h : action.run c = (a, c')) : (action >>= next).run c = (next a).run c' := by
  rw [StateT.run_bind, h]
  rfl

theorem run_postBody (c : Client) (path : String) (body : Option String) :
    (postBody path body).run c =
      (outcomeOf (c.exchange path body).1, c.afterExchange path body) := by
  rw [afterExchange, exchange]
  cases hpost : c.agent.post (endpoint c.base path) body with
  | mk o agent =>
    simp only [postBody, log, StateT.run_bind, StateT.run_get, StateT.run_set, pure_bind, modify]
    cases o with
    | error failure =>
      simp only [StateT.run_modifyGet, pure_bind, hpost]
      rfl
    | ok answer =>
      obtain ⟨status, answerBody⟩ := answer
      cases answerBody with
      | error failure =>
        simp only [StateT.run_modifyGet, pure_bind, hpost]
        rfl
      | ok text =>
        by_cases hs : status = 200
        · simp only [StateT.run_modifyGet, pure_bind, hpost, hs, outcomeOf, postRecords]
          rfl
        · simp only [StateT.run_modifyGet, StateT.run_bind, pure_bind, hpost, hs, ne_eq,
            not_false_eq_true, if_true, if_false, outcomeOf, postRecords, Delivery.log,
            List.append_assoc]
          rfl

theorem judge_eq_ok_iff {status : ℕ} {body : String} {accepted : Accepted} :
    judge status body = .ok accepted ↔ status = 200 ∧ accepted = ⟨body⟩ := by
  rw [judge]
  split_ifs with hs
  · simp [hs, eq_comm]
  · simp [hs]

theorem outcomeOf_eq_ok_iff {o : Except Http.Failure Http.Answer} {accepted : Accepted} :
    outcomeOf o = .ok accepted ↔ o = .ok ⟨200, .ok accepted.body⟩ := by
  cases o with
  | error failure => simp [outcomeOf]
  | ok answer =>
    obtain ⟨status, answerBody⟩ := answer
    cases answerBody with
    | error failure => simp [outcomeOf]
    | ok text =>
      obtain ⟨body⟩ := accepted
      simp [outcomeOf, judge_eq_ok_iff, eq_comm]

theorem outcomeOf_eq_status_iff {o : Except Http.Failure Http.Answer} {code : ℕ} {body : String} :
    outcomeOf o = .error (.status code body) ↔ o = .ok ⟨code, .ok body⟩ ∧ code ≠ 200 := by
  rcases o with failure | ⟨status, failure | text⟩
  · simp [outcomeOf]
  · simp [outcomeOf]
  · rw [outcomeOf, judge]
    split_ifs with hs
    · refine iff_of_false nofun ?_
      rintro ⟨h, hcode⟩
      cases h
      exact hcode hs
    · constructor
      · intro h
        cases h
        exact ⟨rfl, hs⟩
      · rintro ⟨h, _⟩
        cases h
        rfl

/-- Without a complete response the outcome is an error of the exchange. -/
theorem exists_outcomeOf_eq_http_iff {o : Except Http.Failure Http.Answer} :
    (∃ failure, outcomeOf o = .error (.http failure)) ↔
      ¬ ∃ status text, o = .ok ⟨status, .ok text⟩ := by
  rcases o with failure | ⟨status, failure | text⟩
  · simp [outcomeOf]
  · simp [outcomeOf]
  · refine iff_of_false ?_ fun hnone => hnone ⟨status, text, rfl⟩
    rintro ⟨failure, h⟩
    rw [outcomeOf, judge] at h
    split_ifs at h
    cases h

end TopicClient.Client
