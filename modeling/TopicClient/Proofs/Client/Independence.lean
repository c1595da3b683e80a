import TopicClient.Proofs.Client.Runs

/-!
# What the server decides

Of everything a server does, only its answers to fetches reach the handlers of a client. `Walks` are
runs in which every step has its own server and time. Two runs that take the same steps, and meet the
same server wherever they fetch, have the same registry after every step, have called the same
handlers and have fetched the same: `alike_of_sameSteps`.
-/

namespace TopicClient.Client

open Delivery (Kept Performs left performed)

structure Surroundings where
  server : Http.Server
  now : Int := 0

def facing (c : Client) (s : Surroundings) : Client :=
  { c with agent := { c.agent with server := s.server, now := s.now } }

def withRegistry (c : Client) (registry : Registry Handler) : Client :=
  { c with delivery := { c.delivery with registry } }

def Act.result? (c : Client) : Act → Option (Except Fault ℕ)
  | call .fetch => some (fetch.run c).1
  | _ => none

structure Sight where
  client : Client
  result? : Option (Except Fault ℕ)

/-- The runs of steps from a client on, with what is seen after each. Between two steps the entries
of the registry may change their places. -/
inductive Walks : Client → List (Act × Surroundings) → List Sight → Prop
  | nil {c : Client} : Walks c [] []
  | cons {c : Client} {a : Act} {s : Surroundings} {steps : List (Act × Surroundings)}
      {seen : List Sight} {registry : Registry Handler}
      (hp : registry.entries.Perm (a.after (c.facing s)).registry.entries)
      (h : Walks ((a.after (c.facing s)).withRegistry registry) steps seen) :
      Walks c ((a, s) :: steps)
        (⟨(a.after (c.facing s)).withRegistry registry, a.result? (c.facing s)⟩ :: seen)

inductive SameStep : Act × Surroundings → Act × Surroundings → Prop
  | mk {a : Act} {s s' : Surroundings} (h : a = .call .fetch → s.server = s'.server) :
      SameStep (a, s) (a, s')

structure Alike (x y : Sight) : Prop where
  registry_perm : x.client.registry.entries.Perm y.client.registry.entries
  calls_eq : x.client.delivery.calls = y.client.delivery.calls
  lines_eq : x.client.delivery.lines = y.client.delivery.lines
  result_eq : x.result? = y.result?

/-- What becomes of the registry of a client if its requests fail. -/
structure Undisturbed (c : Client) : Prop where
  /-- A subscription registers its handler in the same way, whatever happens to its request. -/
  subscribe : ∀ s key authLevel handler,
    ((Client.subscribe key authLevel handler).run (c.facing s)).2.registry =
      (left (c.delivery.subscribe key authLevel handler)).registry
  /-- Any other call that fails leaves the registry as it is. -/
  fails : ∀ s (op : Operation) e, (∀ key authLevel handler, op ≠ .subscribe key authLevel handler) →
    (op.run.run (c.facing s)).1 = .error (.error e) →
      (op.run.run (c.facing s)).2.registry = c.registry
  sends : ∀ s path payload onSuccess onFailure,
    ((send path payload onSuccess onFailure).run (c.facing s)).2.registry = c.registry

namespace Act

def batch? (c : Client) : Act → Option (List Event)
  | dispatch batch => some batch
  | call .fetch => c.fetched?
  | _ => none

/-- The calls that a step makes, after registrations have been tried. -/
def performed (as : Ledger Handler) (c : Client) (a : Act) : List (Event × Handler) :=
  match a.batch? c with
  | some batch => Delivery.performed as batch
  | none => []

end Act

section Steps

variable {as : Ledger Handler} {c : Client}

theorem base_deliver (c : Client) (batch : List Event) :
    ((deliver batch).run c).2.base = c.base := by
  rw [run_deliver]
  cases c.delivery.dispatch batch with
  | ok p => rfl
  | error d => rfl

theorem base_fetch (c : Client) : (fetch.run c).2.base = c.base := by
  rw [run_fetch]
  cases outcomeOf (c.exchange Path.fetch none).1 with
  | error e => rfl
  | ok accepted =>
    simp only
    cases Event.parseBatch accepted.body with
    | error e => rfl
    | ok batch => exact base_deliver _ batch

theorem Act.base_after (a : Act) (c : Client) : (a.after c).base = c.base := by
  cases a with
  | register key handler => rfl
  | handle key authLevel handler =>
    rw [after, run_register]
    cases c.delivery.subscribe key authLevel handler with
    | ok d => rfl
    | error d => rfl
  | call op =>
    obtain htalk | ⟨key, authLevel, handler, rfl⟩ | rfl := op.cases_talk
    · exact (htalk.talks c).base_eq
    · exact (talked_subscribe c key authLevel handler).base_eq
    · rw [after, run_operation_fetch]
      exact base_fetch c
  | send path payload onSuccess onFailure =>
    exact (talks_send path payload onSuccess onFailure c).base_eq
  | dispatch batch => rfl

theorem performs_deliver (hc : Kept as c.delivery) (batch : List Event) :
    Performs c.delivery (.ok ((deliver batch).run c).2.delivery)
      (Delivery.performed as batch) := by
  have hdispatch := Delivery.performs_dispatch hc batch
  rw [run_deliver]
  cases hd : c.delivery.dispatch batch with
  | ok p =>
    rw [hd] at hdispatch
    exact hdispatch.log (by simp [record])
  | error d =>
    rw [hd] at hdispatch
    exact hdispatch

theorem performs_fetch (hc : Kept as c.delivery) :
    Performs c.delivery (.ok (fetch.run c).2.delivery) (Act.performed as c (.call .fetch)) := by
  have htalked := talked_afterExchange c Path.fetch none
  rw [run_fetch, Act.performed, Act.batch?, fetched?]
  cases outcomeOf (c.exchange Path.fetch none).1 with
  | error e => exact htalked.records.log (by simp [record])
  | ok accepted =>
    simp only
    cases Event.parseBatch accepted.body with
    | error e => exact htalked.records
    | ok batch => exact htalked.records.trans (performs_deliver (htalked.kept hc) batch)

theorem performs_after (hc : Kept as c.delivery) (a : Act) :
    Performs c.delivery (.ok (a.after c).delivery) (a.performed as c) := by
  have htalk : ∀ {op : Operation}, op.IsTalk → Talked c (op.run.run c).2 := fun h => h.talks c
  cases a with
  | register key handler => exact Delivery.records_register c.delivery key handler
  | handle key authLevel handler =>
    have hrecords := Delivery.records_subscribe c.delivery key authLevel handler
    rw [Act.after, run_register]
    cases hd : c.delivery.subscribe key authLevel handler with
    | ok d =>
      rw [hd] at hrecords
      exact hrecords
    | error d =>
      rw [hd] at hrecords
      exact hrecords
  | call op =>
    cases op with
    | subscribe key authLevel handler =>
      exact (Delivery.records_subscribe c.delivery key authLevel handler).trans
        (talked_subscribe c key authLevel handler).records
    | fetch =>
      rw [Act.after, run_operation_fetch]
      exact performs_fetch hc
    | _ => exact Talked.records (htalk trivial)
  | send path payload onSuccess onFailure =>
    exact (talks_send path payload onSuccess onFailure c).records
  | dispatch batch => exact Delivery.performs_dispatch hc batch

theorem fst_run_deliver (hc : Kept as c.delivery) (batch : List Event) :
    ((deliver batch).run c).1 =
      if Ledger.AllUsable ((as.successful.turns batch.reverse).flatMap Turn.made) then
        .ok batch.length
      else .error .unusableKey := by
  have htries := hc.deliverAll batch.reverse
  rw [run_deliver, Delivery.dispatch]
  cases hd : c.delivery.deliverAll batch.reverse with
  | ok p =>
    rw [hd] at htries
    exact (if_pos htries.all_kept.1).symm
  | error d =>
    rw [hd] at htries
    exact (if_neg htries.not_allUsable).symm

end Steps

/-- Two clients of one server whose handlers are the same and have done the same. -/
structure Twins (as : Ledger Handler) (c c' : Client) : Prop where
  kept : Kept as c.delivery
  kept' : Kept as c'.delivery
  base_eq : c.base = c'.base
  calls_eq : c.delivery.calls = c'.delivery.calls
  lines_eq : c.delivery.lines = c'.delivery.lines

namespace Twins

variable {as : Ledger Handler} {c c' : Client}

theorem exchange_eq (h : Twins as c c') (hs : c.agent.server = c'.agent.server) (path : String)
    (body : Option String) : (c.exchange path body).1 = (c'.exchange path body).1 := by
  rw [exchange, exchange, h.base_eq]
  exact Http.Agent.post_congr hs _ body

theorem fst_run_fetch_eq (h : Twins as c c') (hs : c.agent.server = c'.agent.server) :
    (fetch.run c).1 = (fetch.run c').1 := by
  have htalked := talked_afterExchange c Path.fetch none
  have htalked' := talked_afterExchange c' Path.fetch none
  rw [run_fetch, run_fetch, h.exchange_eq hs]
  cases outcomeOf (c'.exchange Path.fetch none).1 with
  | error e => rfl
  | ok accepted =>
    simp only
    cases Event.parseBatch accepted.body with
    | error e => rfl
    | ok batch =>
      simp only
      rw [fst_run_deliver (htalked.kept h.kept), fst_run_deliver (htalked'.kept h.kept')]

theorem fetched?_eq (h : Twins as c c') (hs : c.agent.server = c'.agent.server) :
    c.fetched? = c'.fetched? := by
  rw [fetched?, fetched?, h.exchange_eq hs]

theorem step_eq (h : Twins as c c') {a : Act}
    (hs : a = .call .fetch → c.agent.server = c'.agent.server) :
    a.attempts as c = a.attempts as c' ∧ a.performed as c = a.performed as c' ∧
      a.result? c = a.result? c' := by
  cases a with
  | call op =>
    cases op with
    | fetch =>
      have hserver := hs rfl
      refine ⟨?_, ?_, congrArg some (h.fst_run_fetch_eq hserver)⟩
      · rw [Act.attempts, Operation.attempts, Act.attempts, Operation.attempts,
          h.fetched?_eq hserver]
      · rw [Act.performed, Act.batch?, Act.performed, Act.batch?, h.fetched?_eq hserver]
    | _ => exact ⟨rfl, rfl, rfl⟩
  | _ => exact ⟨rfl, rfl, rfl⟩

theorem facing (h : Twins as c c') (s s' : Surroundings) : Twins as (c.facing s) (c'.facing s') :=
  ⟨h.kept, h.kept', h.base_eq, h.calls_eq, h.lines_eq⟩

theorem after (h : Twins as c c') {a : Act}
    (hs : a = .call .fetch → c.agent.server = c'.agent.server) :
    Twins (as ++ a.attempts as c) (a.after c) (a.after c') := by
  obtain ⟨hattempts, hperformed, _⟩ := h.step_eq hs
  have hstep := performs_after h.kept a
  have hstep' := performs_after h.kept' a
  rw [← hperformed] at hstep'
  refine ⟨kept_after h.kept a, hattempts ▸ kept_after h.kept' a, ?_, ?_, ?_⟩
  · rw [a.base_after, a.base_after, h.base_eq]
  · exact (hstep.calls_eq.trans (congrArg (· ++ _) h.calls_eq)).trans hstep'.calls_eq.symm
  · exact (hstep.lines_eq.trans (congrArg (· ++ _) h.lines_eq)).trans hstep'.lines_eq.symm

theorem withRegistry (h : Twins as c c') {r r' : Registry Handler}
    (hp : r.entries.Perm c.registry.entries) (hp' : r'.entries.Perm c'.registry.entries) :
    Twins as (c.withRegistry r) (c'.withRegistry r') :=
  ⟨⟨h.kept.built.rehashed hp, h.kept.warnings_eq⟩,
    ⟨h.kept'.built.rehashed hp', h.kept'.warnings_eq⟩, h.base_eq, h.calls_eq, h.lines_eq⟩

theorem alike (h : Twins as c c') {x x' : Option (Except Fault ℕ)} (hx : x = x') :
    Alike ⟨c, x⟩ ⟨c', x'⟩ where
  registry_perm := h.kept.built.entries_perm.trans h.kept'.built.entries_perm.symm
  calls_eq := h.calls_eq
  lines_eq := h.lines_eq
  result_eq := hx

/-- Runs of the same steps from twins on stay alike. -/
theorem walks (h : Twins as c c') {steps steps' : List (Act × Surroundings)} {seen seen' : List Sight}
    (hsteps : List.Forall₂ SameStep steps steps') (hc : Walks c steps seen)
    (hc' : Walks c' steps' seen') : List.Forall₂ Alike seen seen' := by
  induction hsteps generalizing as c c' seen seen' with
  | nil =>
    cases hc
    cases hc'
    exact .nil
  | cons hstep _ ih =>
    cases hstep with
    | @mk a s s' hserver =>
      cases hc with
      | cons hp hrest =>
        cases hc' with
        | cons hp' hrest' =>
          have hfacing := h.facing s s'
          have hafter := (hfacing.after hserver).withRegistry hp hp'
          exact .cons (hafter.alike (hfacing.step_eq hserver).2.2) (ih hafter hrest hrest')

end Twins

/-- A fetch that ends in an error has delivered nothing. -/
theorem registry_of_run_fetch {c : Client} {e : ClientError}
    (h : (fetch.run c).1 = .error (.error e)) : (fetch.run c).2.registry = c.registry := by
  rw [run_fetch] at h ⊢
  cases ho : outcomeOf (c.exchange Path.fetch none).1 with
  | error e => rfl
  | ok accepted =>
    simp only [ho] at h ⊢
    cases hp : Event.parseBatch accepted.body with
    | error e => rfl
    | ok batch =>
      simp only [hp] at h
      rw [run_deliver] at h
      cases hd : (c.afterExchange Path.fetch none).delivery.dispatch batch with
      | ok p => simp [hd] at h
      | error d => simp [hd] at h

theorem undisturbed (c : Client) : Undisturbed c where
  subscribe s key authLevel handler :=
    (talked_subscribe (c.facing s) key authLevel handler).registry_eq
  fails s op e hop he := by
    obtain htalk | ⟨key, authLevel, handler, rfl⟩ | rfl := op.cases_talk
    · exact (htalk.talks (c.facing s)).registry_eq
    · exact absurd rfl (hop key authLevel handler)
    · rw [run_operation_fetch] at he ⊢
      cases ho : (fetch.run (c.facing s)).1 with
      | ok n =>
        rw [ho] at he
        cases he
      | error fault =>
        rw [ho] at he
        cases he
        exact registry_of_run_fetch ho
  sends s path payload onSuccess onFailure :=
    (talks_send path payload onSuccess onFailure (c.facing s)).registry_eq

/-- The registry, the calls of handlers and what is fetched depend on what is done and on what the
server answers to fetches, and on nothing else that it does. A failing request changes nothing of
the registry, and a subscription does not wait for its request to succeed. -/
theorem alike_of_sameSteps {config : Config} {agent agent' : Http.Agent} {c c' : Client}
    {steps steps' : List (Act × Surroundings)} {seen seen' : List Sight}
    (hc : connect config agent = .ok c) (hc' : connect config agent' = .ok c')
    (hsteps : List.Forall₂ SameStep steps steps') (hwalks : Walks c steps seen)
    (hwalks' : Walks c' steps' seen') :
    List.Forall₂ Alike seen seen' ∧ ∀ c : Client, Undisturbed c := by
  obtain ⟨hbase, hempty⟩ := of_connect_eq_ok hc
  obtain ⟨hbase', hempty'⟩ := of_connect_eq_ok hc'
  have htwins : Twins [] c c' := by
    refine ⟨?_, ?_, Except.ok.inj (hbase.symm.trans hbase'), ?_, ?_⟩
    · rw [hempty]
      exact Delivery.kept_empty
    · rw [hempty']
      exact Delivery.kept_empty
    · rw [hempty, hempty']
    · rw [hempty, hempty']
  exact ⟨htwins.walks hsteps hwalks hwalks', undisturbed⟩

def walk (c : Client) : List (Act × Surroundings) → List Sight
  | [] => []
  | (a, s) :: steps => ⟨a.after (c.facing s), a.result? (c.facing s)⟩ ::
      (a.after (c.facing s)).walk steps

theorem walks_walk (c : Client) (steps : List (Act × Surroundings)) :
    Walks c steps (c.walk steps) := by
  induction steps generalizing c with
  | nil => exact .nil
  | cons step steps ih =>
    obtain ⟨a, s⟩ := step
    exact .cons (List.Perm.refl (a.after (c.facing s)).registry.entries) (ih _)

def subscribesAndFetches (server server' : Http.Server) : List (Act × Surroundings) :=
  [(.call (.subscribe "t" 0 (.recording (some "a") [.register "t" .logging])), { server }),
    (.call .logout, { server := server' }),
    (.call .fetch, { server := { replies :=
      [.response { body := "[\x7b\"topic\":\"t\"\x7d]".toUTF8.toList }] } })]

theorem connect_susi (agent : Http.Agent) :
    connect (.ofUrl "http://susi.test") agent =
      .ok { config := .ofUrl "http://susi.test", base := "http://susi.test", agent } :=
  connect_ofUrl agent (by decide +kernel) (by decide +kernel)

/-- The handler is called for the event, with a server that accepts everything as with one that
cannot be reached at first and then breaks the connection. -/
theorem alike_subscribesAndFetches : ∃ c seen seen',
    connect (.ofUrl "http://susi.test") { server := {} } = .ok c ∧
      Walks c (subscribesAndFetches {} {}) seen ∧
      Walks c (subscribesAndFetches { isReachable := false } { replies := [.closed] }) seen' ∧
      List.Forall₂ Alike seen seen' ∧
      seen'.map (fun x => x.client.delivery.calls.map Call.handler) = [[], [], [some "a"]] := by
  have hc := connect_susi { server := {} }
  have hsteps : List.Forall₂ SameStep (subscribesAndFetches {} {})
      (subscribesAndFetches { isReachable := false } { replies := [.closed] }) :=
    .cons ⟨nofun⟩ (.cons ⟨nofun⟩ (.cons ⟨fun _ => rfl⟩ .nil))
  exact ⟨_, _, _, hc, walks_walk _ _, walks_walk _ _,
    (alike_of_sameSteps hc hc hsteps (walks_walk _ _) (walks_walk _ _)).1, by decide +kernel⟩

end TopicClient.Client
