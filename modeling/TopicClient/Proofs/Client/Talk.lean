import TopicClient.Proofs.Client.Fetch
import TopicClient.Proofs.Client.Operation
import TopicClient.Proofs.Registry.Recording

/-!
# Calls that only talk to the server

Most calls of a client touch neither its registry nor what its handlers have recorded: they make
requests and log something about them. `Talks` says so of a call; it is closed under what calls are
made of.
-/

namespace TopicClient.Client

open Delivery (Kept Records)

/-- Nothing has changed but the agent, and the log by records of the transport and of sessions. -/
structure Talked (c c' : Client) : Prop where
  base_eq : c'.base = c.base
  registry_eq : c'.registry = c.registry
  calls_eq : c'.delivery.calls = c.delivery.calls
  exists_logs : ∃ rs, c'.delivery.logs = c.delivery.logs ++ rs ∧
    ∀ r ∈ rs, r.source = .transport ∨ r.source = .auth

namespace Talked

variable {c c' c'' : Client}

theorem refl (c : Client) : Talked c c :=
  ⟨rfl, rfl, rfl, [], (List.append_nil _).symm, nofun⟩

theorem trans (h : Talked c c') (h' : Talked c' c'') : Talked c c'' where
  base_eq := h'.base_eq.trans h.base_eq
  registry_eq := h'.registry_eq.trans h.registry_eq
  calls_eq := h'.calls_eq.trans h.calls_eq
  exists_logs := by
    obtain ⟨rs, hlogs, hrs⟩ := h.exists_logs
    obtain ⟨rs', hlogs', hrs'⟩ := h'.exists_logs
    refine ⟨rs ++ rs', ?_, List.forall_mem_append.2 ⟨hrs, hrs'⟩⟩
    rw [hlogs', hlogs, List.append_assoc]

theorem filter_logs (h : Talked c c') {p : Log.Record → Bool}
    (hp : ∀ r, p r = true → r.source ≠ .transport ∧ r.source ≠ .auth) :
    c'.delivery.logs.filter p = c.delivery.logs.filter p := by
  obtain ⟨rs, hlogs, hrs⟩ := h.exists_logs
  have hnil : rs.filter p = [] := by
    rw [List.filter_eq_nil_iff]
    intro r hr hpr
    exact (hrs r hr).elim (hp r hpr).1 (hp r hpr).2
  rw [hlogs, List.filter_append, hnil, List.append_nil]

theorem records (h : Talked c c') : Records c.delivery c'.delivery [] [] where
  calls_eq := by rw [h.calls_eq, List.append_nil]
  lines_eq := by
    have hlines := h.filter_logs (p := fun r => decide (r.source = .polling)) fun r hr => by
      rw [of_decide_eq_true hr]
      exact ⟨nofun, nofun⟩
    rw [List.append_nil]
    exact hlines

theorem kept (h : Talked c c') {as : Ledger Handler} (hc : Kept as c.delivery) :
    Kept as c'.delivery where
  built := by
    have hregistry : c'.delivery.registry = c.delivery.registry := h.registry_eq
    rw [hregistry]
    exact hc.built
  warnings_eq key := by
    rw [← hc.warnings_eq]
    refine h.filter_logs fun r hr => ?_
    rw [(of_decide_eq_true hr : Registry.WarnsOf key r).1]
    exact ⟨nofun, nofun⟩

end Talked

/-- A call that leaves the registry and what handlers have recorded as they are. -/
def Talks {α : Type} (call : Action α) : Prop := ∀ c, Talked c (call.run c).2

section Calls

variable {α β : Type}

theorem talks_pure (a : α) : Talks (pure a : Action α) := fun c => .refl c

theorem Talks.bind {call : Action α} (h : Talks call) {next : α → Action β}
    (hnext : ∀ a, Talks (next a)) : Talks (call >>= next) :=
  fun c => (h c).trans (hnext (call.run c).1 (call.run c).2)

theorem Talks.map {call : Action α} (h : Talks call) (f : α → β) :
    Talks (do return f (← call)) :=
  h.bind fun a => talks_pure (f a)

theorem talks_record {level : Log.Level} {source : Log.Source} {message : String}
    {fields : List (String × Log.FieldValue)} (hs : source = .transport ∨ source = .auth) :
    Talks (Client.log (record level source message fields)) := by
  intro c
  refine ⟨rfl, rfl, rfl, [_], rfl, fun r hr => ?_⟩
  rw [List.mem_singleton.1 hr]
  exact hs

theorem talked_afterExchange (c : Client) (path : String) (body : Option String) :
    Talked c (c.afterExchange path body) :=
  ⟨rfl, rfl, rfl, _, rfl, fun _ hr => .inl (source_of_mem_postRecords hr)⟩

theorem talks_postBody (path : String) (body : Option String) : Talks (postBody path body) := by
  intro c
  rw [run_postBody]
  exact talked_afterExchange c path body

theorem talks_post (path : String) (payload : Option Payload) :
    Talks (Client.post path payload) := by
  rw [post]
  cases encode payload with
  | ok body => exact talks_postBody path body
  | error e => exact talks_pure _

theorem talks_logReply (body : String) (status : ℕ) : Talks (logReply body status) :=
  talks_record (.inl rfl)

theorem talks_logOutcome (path : String) (o : Outcome Accepted) : Talks (logOutcome path o) := by
  rcases o with e | accepted
  · cases e with
    | status code body => exact talks_logReply body code
    | _ => exact talks_record (.inl rfl)
  · exact talks_logReply accepted.body 200

theorem Talks.logged {call : Action (Outcome Accepted)} (h : Talks call) (path : String) :
    Talks (Client.logged path call) :=
  h.bind fun o => (talks_logOutcome path o).bind fun _ => talks_pure o

theorem Talks.settle {call : Action (Outcome α)} (h : Talks call) : Talks (Client.settle call) :=
  h.map _

theorem talks_tell {callback : Option (Callback α)}
    (h : ∀ f ∈ callback, ∀ body status, Talks (f body status)) (body : String) (status : ℕ) :
    Talks (tell callback body status) := by
  cases callback with
  | none => exact (talks_logReply body status).map _
  | some f => exact (h f rfl body status).map _

theorem talks_inform {onSuccess onFailure : Callback α}
    (hsuccess : ∀ body status, Talks (onSuccess body status))
    (hfailure : ∀ body status, Talks (onFailure body status)) (o : Outcome Accepted) :
    Talks (inform onSuccess onFailure o) := by
  rcases o with e | accepted
  · cases e with
    | status code body => exact hfailure body code
    | _ => exact hfailure _ 0
  · exact hsuccess accepted.body 200

theorem talks_sendTo (path : String) (payload : Option Payload)
    {onSuccess onFailure : Option (Callback α)}
    (hsuccess : ∀ callback ∈ onSuccess, ∀ body status, Talks (callback body status))
    (hfailure : ∀ callback ∈ onFailure, ∀ body status, Talks (callback body status)) :
    Talks (sendTo path payload onSuccess onFailure) := by
  have hinform := talks_inform (talks_tell hsuccess) (talks_tell hfailure)
  rw [sendTo]
  cases encode payload with
  | ok body => exact (talks_postBody path body).bind hinform
  | error e => exact hinform (.error e)

theorem talks_send (path : String) (payload : Option Payload) (onSuccess onFailure : Bool) :
    Talks (Client.send path payload onSuccess onFailure) := by
  refine talks_sendTo path payload (fun callback h body status => ?_)
    (fun callback h body status => ?_)
  · split_ifs at h
    · cases h
      exact talks_pure _
    · cases h
  · split_ifs at h
    · cases h
      exact talks_pure _
    · cases h

theorem talks_login (credentials : Credentials) : Talks (login credentials) := by
  refine (talks_postBody _ _).bind fun o => ?_
  cases o with
  | ok accepted => exact (talks_record (.inr rfl)).bind fun _ => talks_pure _
  | error e => exact (talks_record (.inr rfl)).bind fun _ => talks_pure _

theorem run_login (c : Client) (credentials : Credentials) :
    (login credentials).run c =
      match outcomeOf (c.exchange Path.login (some credentials.body)).1 with
      | .ok _ => (.ok (), ((Client.log (record .info .auth
          ("successfully logged in as " ++ credentials.username) [])).run
            (c.afterExchange Path.login (some credentials.body))).2)
      | .error e => (.error e, ((Client.log (record .warn .auth
          ("failed logging in as " ++ credentials.username)
          [("status", .plain (statusText e))])).run
            (c.afterExchange Path.login (some credentials.body))).2) := by
  rw [login, StateT.run_bind, run_postBody]
  cases outcomeOf (c.exchange Path.login (some credentials.body)).1 with
  | ok accepted => rfl
  | error e => rfl

theorem talks_session : Talks session := by
  refine (talks_postBody _ _).bind fun o => ?_
  cases o with
  | ok accepted => exact talks_pure _
  | error e => exact talks_pure _

theorem talks_posted (path : String) (body : Option String) (f : Accepted → α) :
    Talks (do return (← Client.logged path (postBody path body)).map f) :=
  ((talks_postBody path body).logged path).map _

theorem talks_publish (key : String) (payload : Payload) : Talks (publish key payload) := by
  cases payload with
  | ok v => exact talks_posted _ _ _
  | error e => exact talks_pure _

theorem talks_announce (subscription : Subscription) : Talks (announce subscription) :=
  talks_posted _ _ _

end Calls

theorem run_operation_fetch (c : Client) :
    Operation.fetch.run.run c = ((fetch.run c).1.map fun _ => (), (fetch.run c).2) := by
  rw [Operation.run, run_bind_of_run (Prod.eta (fetch.run c)).symm]
  rfl

def Operation.IsTalk : Operation → Prop
  | subscribe _ _ _ | fetch => False
  | _ => True

theorem Operation.cases_talk (op : Operation) :
    op.IsTalk ∨ (∃ key authLevel handler, op = .subscribe key authLevel handler) ∨ op = .fetch := by
  cases op with
  | subscribe key authLevel handler => exact .inr (.inl ⟨key, authLevel, handler, rfl⟩)
  | fetch => exact .inr (.inr rfl)
  | _ => exact .inl trivial

theorem Operation.IsTalk.talks {op : Operation} (h : op.IsTalk) : Talks op.run := by
  cases op with
  | post path payload => exact (talks_post path payload).settle
  | postLogged path payload => exact ((talks_post path payload).logged path).settle
  | login credentials => exact (talks_login credentials).settle
  | logout => exact (talks_posted Path.logout none _).settle
  | keepAlive => exact (talks_posted Path.keepAlive none _).settle
  | info => exact (talks_posted Path.info none _).settle
  | session => exact talks_session.settle
  | publish key payload => exact (talks_publish key payload).settle
  | publishMessage message => exact (talks_posted Path.publish _ _).settle
  | subscribe key authLevel handler => exact h.elim
  | fetch => exact h.elim

theorem talked_subscribe (c : Client) (key : String) (authLevel : UInt8) (handler : Handler) :
    Talked { c with delivery := Delivery.left (c.delivery.subscribe key authLevel handler) }
      ((subscribe key authLevel handler).run c).2 := by
  rw [run_subscribe]
  cases c.delivery.subscribe key authLevel handler with
  | ok d => exact (talks_announce _).map _ { c with delivery := d }
  | error d => exact .refl _

end TopicClient.Client
