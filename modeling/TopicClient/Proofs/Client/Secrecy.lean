import TopicClient.Proofs.Client.Independence
import TopicClient.Proofs.Client.Sending
import TopicClient.Proofs.Http.Bodies

/-!
# A password shows nowhere but in the login

A run is watched step by step: what the step returns, the requests that it makes, and the client that
it leaves (`observe`). Two runs of the same steps that differ in the passwords of their logins alone
return the same, log the same, call the same handlers and make the same requests, but for the bodies
of the requests of a login: `indistinct_of_samePlan`.
-/

namespace TopicClient.Client

open Delivery (left)
open Http (Agent Received)

/-! ## What is seen of a run -/

inductive Value where
  | accepted (o : Outcome Accepted)
  | done (o : Outcome Unit)
  | described (o : Outcome String)
  | session (o : Outcome Session)
  | subscribed (o : Except Fault Unit)
  | fetched (o : Except Fault ℕ)
  | notice (n : Option Notice)
  /-- Whether a handler could be put in place. -/
  | placed (done : Bool)
  /-- How many handlers were called, unless the delivery was broken off. -/
  | dispatched (invoked : Option ℕ)

def Operation.value : Operation → Action Value
  | post path payload => do return .accepted (← Client.post path payload)
  | postLogged path payload => do return .accepted (← logged path (Client.post path payload))
  | login credentials => do return .done (← Client.login credentials)
  | logout => do return .done (← Client.logout)
  | keepAlive => do return .done (← Client.keepAlive)
  | info => do return .described (← Client.info)
  | session => do return .session (← Client.session)
  | publish key payload => do return .done (← Client.publish key payload)
  | publishMessage message => do return .done (← Client.publishMessage message)
  | subscribe key authLevel handler => do
    return .subscribed (← Client.subscribe key authLevel handler)
  | fetch => do return .fetched (← Client.fetch)

namespace Act

def value (c : Client) : Act → Value
  | register key handler => .placed (c.delivery.register key handler).toBool
  | handle key authLevel handler => .placed ((Client.register key authLevel handler).run c).1
  | call op => (op.value.run c).1
  | send path payload onSuccess onFailure =>
    .notice ((Client.send path payload onSuccess onFailure).run c).1
  | dispatch batch => .dispatched ((c.delivery.dispatch batch).toOption.map Prod.snd)

def isLogin : Act → Bool
  | call (.login _) => true
  | _ => false

end Act

structure Observation where
  isLogin : Bool
  value : Value
  /-- The requests that are made in the step. -/
  requests : List Received
  delivery : Delivery
  jar : Cookie.Jar

/-- What is seen of a run, in which every step meets its own server and time. -/
def observe (c : Client) : List (Act × Surroundings) → List Observation
  | [] => []
  | (a, s) :: steps =>
    let next := a.after (c.facing s)
    { isLogin := a.isLogin
      value := a.value (c.facing s)
      requests := next.agent.received.drop c.agent.received.length
      delivery := next.delivery
      jar := next.agent.jar } :: observe next steps

/-- The same is done, but for the password of a login. -/
inductive Act.SamePlan : Act → Act → Prop
  | same (a : Act) : SamePlan a a
  | login (username password password' : String) :
      SamePlan (.call (.login ⟨username, password⟩)) (.call (.login ⟨username, password'⟩))

structure Observation.Indistinct (x y : Observation) : Prop where
  isLogin_eq : x.isLogin = y.isLogin
  value_eq : x.value = y.value
  delivery_eq : x.delivery = y.delivery
  jar_eq : x.jar = y.jar
  requests : List.Forall₂ Received.SameButBody x.requests y.requests
  requests_eq : x.isLogin = false → x.requests = y.requests

/-! ## The requests before -/

section Before

variable {α β : Type}

def having (c : Client) (rs : List Received) : Client := { c with agent := c.agent.having rs }

/-- A call that comes to the same whatever requests have been made before. -/
def Blind (call : Action α) : Prop :=
  ∀ c rs, call.run (c.having rs) = ((call.run c).1, (call.run c).2.having rs)

theorem blind_pure (a : α) : Blind (pure a : Action α) := fun _ _ => rfl

theorem Blind.bind {call : Action α} (h : Blind call) {next : α → Action β}
    (hnext : ∀ a, Blind (next a)) : Blind (call >>= next) := by
  intro c rs
  rw [StateT.run_bind, StateT.run_bind, h]
  exact hnext (call.run c).1 (call.run c).2 rs

theorem Blind.map {call : Action α} (h : Blind call) (f : α → β) :
    Blind (do return f (← call)) :=
  h.bind fun a => blind_pure (f a)

theorem blind_log (r : Log.Record) : Blind (Client.log r) := fun _ _ => rfl

theorem blind_postBody (path : String) (body : Option String) : Blind (postBody path body) := by
  intro c rs
  have hexchange : (c.having rs).exchange path body =
      ((c.exchange path body).1, (c.exchange path body).2.having rs) :=
    Agent.post_having c.agent rs _ body
  have hafter : (c.having rs).afterExchange path body = (c.afterExchange path body).having rs := by
    rw [afterExchange, hexchange]
    simp only [afterExchange, having]
  rw [run_postBody, run_postBody, hexchange, hafter]

theorem blind_post (path : String) (payload : Option Payload) :
    Blind (Client.post path payload) := by
  rw [post]
  cases encode payload with
  | ok body => exact blind_postBody path body
  | error e => exact blind_pure _

theorem blind_logOutcome (path : String) (o : Outcome Accepted) : Blind (logOutcome path o) := by
  rcases o with e | accepted
  · cases e <;> exact blind_log _
  · exact blind_log _

theorem Blind.logged {call : Action (Outcome Accepted)} (h : Blind call) (path : String) :
    Blind (Client.logged path call) :=
  h.bind fun o => (blind_logOutcome path o).bind fun _ => blind_pure o

theorem blind_posted (path : String) (body : Option String) (f : Accepted → α) :
    Blind (do return (← Client.logged path (postBody path body)).map f) :=
  ((blind_postBody path body).logged path).map _

theorem blind_login (credentials : Credentials) : Blind (login credentials) := by
  refine (blind_postBody _ _).bind fun o => ?_
  cases o with
  | ok accepted => exact (blind_log _).bind fun _ => blind_pure _
  | error e => exact (blind_log _).bind fun _ => blind_pure _

theorem blind_session : Blind session := by
  refine (blind_postBody _ _).bind fun o => ?_
  cases o with
  | ok accepted => exact blind_pure _
  | error e => exact blind_pure _

theorem blind_publish (key : String) (payload : Payload) : Blind (publish key payload) := by
  cases payload with
  | ok v => exact blind_posted _ _ _
  | error e => exact blind_pure _

theorem blind_register (key : String) (authLevel : UInt8) (handler : Handler) :
    Blind (register key authLevel handler) := by
  intro c rs
  have hdelivery : (c.having rs).delivery = c.delivery := rfl
  rw [run_register, run_register, hdelivery]
  cases c.delivery.subscribe key authLevel handler with
  | ok d => rfl
  | error d => rfl

theorem blind_subscribe (key : String) (authLevel : UInt8) (handler : Handler) :
    Blind (subscribe key authLevel handler) := by
  refine (blind_register key authLevel handler).bind fun placed => ?_
  cases placed with
  | true => exact (blind_posted Path.subscribe _ _).map _
  | false => exact blind_pure _

theorem blind_deliver (batch : List Event) : Blind (deliver batch) := by
  intro c rs
  have hdelivery : (c.having rs).delivery = c.delivery := rfl
  rw [run_deliver, run_deliver, hdelivery]
  cases c.delivery.dispatch batch with
  | ok p => rfl
  | error d => rfl

theorem blind_fetch : Blind fetch := by
  refine (blind_postBody _ _).bind fun o => ?_
  cases o with
  | error e => exact (blind_log _).bind fun _ => blind_pure _
  | ok accepted =>
    simp only
    cases Event.parseBatch accepted.body with
    | error e => exact blind_pure _
    | ok batch => exact blind_deliver batch

theorem blind_tell {callback : Option (Callback α)}
    (h : ∀ f ∈ callback, ∀ body status, Blind (f body status)) (body : String) (status : ℕ) :
    Blind (tell callback body status) := by
  cases callback with
  | none => exact (blind_log _).bind fun _ => blind_pure _
  | some f => exact (h f rfl body status).map _

theorem blind_sendTo (path : String) (payload : Option Payload)
    {onSuccess onFailure : Option (Callback α)}
    (hsuccess : ∀ callback ∈ onSuccess, ∀ body status, Blind (callback body status))
    (hfailure : ∀ callback ∈ onFailure, ∀ body status, Blind (callback body status)) :
    Blind (sendTo path payload onSuccess onFailure) := by
  have hgive : ∀ notice : Notice, Blind (notice.give onSuccess onFailure) := by
    intro notice
    cases notice with
    | success body => exact blind_tell hsuccess body 200
    | failure body status => exact blind_tell hfailure body status
  intro c rs
  rw [run_sendTo, run_sendTo, blind_post path payload c rs]
  exact hgive _ _ rs

theorem blind_send (path : String) (payload : Option Payload) (onSuccess onFailure : Bool) :
    Blind (Client.send path payload onSuccess onFailure) := by
  refine blind_sendTo path payload (fun callback h body status => ?_)
    (fun callback h body status => ?_)
  all_goals
    split_ifs at h
    · cases h
      exact blind_pure _
    · cases h

theorem Operation.blind_value (op : Operation) : Blind op.value := by
  cases op with
  | post path payload => exact (blind_post path payload).map _
  | postLogged path payload => exact ((blind_post path payload).logged path).map _
  | login credentials => exact (blind_login credentials).map _
  | logout => exact (blind_posted Path.logout none _).map _
  | keepAlive => exact (blind_posted Path.keepAlive none _).map _
  | info => exact (blind_posted Path.info none _).map _
  | session => exact blind_session.map _
  | publish key payload => exact (blind_publish key payload).map _
  | publishMessage message => exact (blind_posted Path.publish _ _).map _
  | subscribe key authLevel handler => exact (blind_subscribe key authLevel handler).map _
  | fetch => exact blind_fetch.map _

theorem Operation.snd_run_value (op : Operation) (c : Client) :
    (op.value.run c).2 = (op.run.run c).2 := by
  cases op <;> rfl

/-- What a step returns does not depend on the requests before it, nor does the client it leaves. -/
theorem Act.value_having (a : Act) (c : Client) (rs : List Received) :
    a.value (c.having rs) = a.value c ∧ a.after (c.having rs) = (a.after c).having rs := by
  cases a with
  | register key handler => exact ⟨rfl, rfl⟩
  | handle key authLevel handler =>
    rw [value, value, after, after, blind_register key authLevel handler c rs]
    exact ⟨rfl, rfl⟩
  | call op =>
    rw [value, value, after, after, ← op.snd_run_value, ← op.snd_run_value,
      op.blind_value c rs]
    exact ⟨rfl, rfl⟩
  | send path payload onSuccess onFailure =>
    rw [value, value, after, after, blind_send path payload onSuccess onFailure c rs]
    exact ⟨rfl, rfl⟩
  | dispatch batch => exact ⟨rfl, rfl⟩

def forgetful (c : Client) : Client := { c with agent := { c.agent with received := [] } }

@[simp] theorem forgetful_of_having (c : Client) (rs : List Received) :
    (c.having rs).forgetful = c.forgetful :=
  rfl

end Before

/-! ## Logins -/

/-- The password of a login changes nothing but the bodies of its requests. -/
theorem sameButBodies_login (c : Client) (username password password' : String) :
    ∃ o d a a', (login ⟨username, password⟩).run c = (o, { c with agent := a, delivery := d }) ∧
      (login ⟨username, password'⟩).run c = (o, { c with agent := a', delivery := d }) ∧
        a.SameButBodies a' := by
  obtain ⟨hanswer, hagent⟩ := Agent.sameButBodies_post c.agent (endpoint c.base Path.login)
    (Credentials.body ⟨username, password⟩) (Credentials.body ⟨username, password'⟩)
  rw [run_login, run_login, afterExchange, afterExchange, exchange, exchange, hanswer]
  cases outcomeOf (c.agent.post (endpoint c.base Path.login)
      (some (Credentials.body ⟨username, password'⟩))).1 with
  | ok accepted => exact ⟨_, _, _, _, rfl, rfl, hagent⟩
  | error e => exact ⟨_, _, _, _, rfl, rfl, hagent⟩

theorem Act.eq_of_run_login {credentials : Credentials} {c c' : Client} {o : Outcome Unit}
    (hrun : (login credentials).run c = (o, c')) :
    (Act.call (.login credentials)).value c = .done o ∧
      (Act.call (.login credentials)).after c = c' := by
  have hvalue : (Operation.login credentials).value.run c = (.done o, c') := by
    rw [Operation.value, run_bind_of_run hrun]
    rfl
  rw [value, after, ← Operation.snd_run_value, hvalue]
  exact ⟨rfl, rfl⟩

/-! ## Runs -/

def observation (c : Client) (a : Act) : Observation where
  isLogin := a.isLogin
  value := a.value c
  requests := (a.after c).agent.received
  delivery := (a.after c).delivery
  jar := (a.after c).agent.jar

/-- What is seen of a step is what would be seen without the requests before it. -/
theorem observe_cons (c : Client) (a : Act) (s : Surroundings)
    (steps : List (Act × Surroundings)) :
    observe c ((a, s) :: steps) =
      (c.forgetful.facing s).observation a :: observe (a.after (c.facing s)) steps ∧
        (a.after (c.facing s)).forgetful = (a.after (c.forgetful.facing s)).forgetful := by
  have hfacing : c.facing s = (c.forgetful.facing s).having c.agent.received := by
    simp [facing, forgetful, having, Agent.having]
  obtain ⟨hvalue, hafter⟩ := a.value_having (c.forgetful.facing s) c.agent.received
  rw [← hfacing] at hvalue hafter
  have hreceived : (a.after (c.facing s)).agent.received.drop c.agent.received.length =
      (a.after (c.forgetful.facing s)).agent.received := by
    rw [hafter]
    exact List.drop_left
  refine ⟨?_, by rw [hafter, forgetful_of_having]⟩
  rw [observe, hreceived, hvalue]
  simp only [hafter]
  rfl

theorem indistinct_refl (x : Observation) : x.Indistinct x :=
  ⟨rfl, rfl, rfl, rfl, (Agent.SameButBodies.refl ⟨{}, {}, 0, x.requests⟩).received, fun _ => rfl⟩

theorem indistinct_step {a a' : Act} (h : a.SamePlan a') (c : Client) :
    (c.observation a).Indistinct (c.observation a') ∧
      (a.after c).forgetful = (a'.after c).forgetful := by
  cases h with
  | same a => exact ⟨indistinct_refl _, rfl⟩
  | login username password password' =>
    obtain ⟨o, d, b, b', hrun, hrun', hbodies⟩ :=
      sameButBodies_login c username password password'
    obtain ⟨hvalue, hafter⟩ := Act.eq_of_run_login hrun
    obtain ⟨hvalue', hafter'⟩ := Act.eq_of_run_login hrun'
    unfold observation forgetful
    rw [hafter, hafter', hvalue, hvalue']
    refine ⟨⟨rfl, rfl, rfl, hbodies.jar_eq, hbodies.received, nofun⟩, ?_⟩
    simp only [hbodies.server_eq, hbodies.jar_eq, hbodies.now_eq]

/-- In two runs of the same steps, in which nothing but the passwords of logins differ and every step
meets the same server, everything that is returned, logged, called and registered is the same, and so
are all requests but for the bodies of those of a login. -/
theorem indistinct_of_samePlan {c : Client} {steps steps' : List (Act × Surroundings)}
    (h : List.Forall₂ (fun x y => x.1.SamePlan y.1 ∧ x.2 = y.2) steps steps') :
    List.Forall₂ Observation.Indistinct (observe c steps) (observe c steps') := by
  have hrun : ∀ c c' : Client, c.forgetful = c'.forgetful →
      List.Forall₂ Observation.Indistinct (observe c steps) (observe c' steps') := by
    induction h with
    | nil => exact fun _ _ _ => .nil
    | @cons x y steps steps' hstep _ ih =>
      obtain ⟨a, s⟩ := x
      obtain ⟨a', s'⟩ := y
      obtain ⟨hplan, rfl⟩ := hstep
      intro c c' hforgetful
      obtain ⟨hobserve, hafter⟩ := observe_cons c a s steps
      obtain ⟨hobserve', hafter'⟩ := observe_cons c' a' s steps'
      obtain ⟨hindistinct, hnext⟩ := indistinct_step hplan (c.forgetful.facing s)
      rw [hobserve, hobserve', ← hforgetful]
      refine .cons hindistinct (ih _ _ ?_)
      rw [hafter, hafter', ← hforgetful, hnext]
  exact hrun c c rfl

def refusedLogin (password : String) : List (Act × Surroundings) :=
  [(.call (.login ⟨"ada", password⟩),
    { server :=
        { replies :=
            [.response { status := 307, headers := [("Location", "/door")] },
              .response { status := 401, headers := [("Set-Cookie", "susisession=a1; Path=/")] }] } }),
    (.call .logout, { server := {} })]

/-- The password goes to both places, and shows nowhere else. -/
theorem indistinct_refusedLogin :
    List.Forall₂ Observation.Indistinct (observe unwelcome (refusedLogin "one"))
        (observe unwelcome (refusedLogin "two")) ∧
      (observe unwelcome (refusedLogin "one")).map
          (fun x => x.requests.map fun r => (r.target, r.body)) =
        [[("/auth/login", "\x7b\"username\":\"ada\",\"password\":\"one\"\x7d"),
            ("/door", "\x7b\"username\":\"ada\",\"password\":\"one\"\x7d")],
          [("/auth/logout", "")]] := by
  refine ⟨indistinct_of_samePlan ?_, by decide +kernel⟩
  exact .cons ⟨.login "ada" "one" "two", rfl⟩ (.cons ⟨.same _, rfl⟩ .nil)

end TopicClient.Client
