import TopicClient.Client.Events
import TopicClient.Proofs.Client.Posting
import TopicClient.Proofs.Message.Batch
import TopicClient.Proofs.Registry.Frame

/-!
# A poll delivers all of a batch or nothing

The events of a poll reach the handlers only after the whole response has come with the status 200
and all of its body has been read as a batch. `fetch_all_or_nothing` says what a poll leaves behind
in either case.
-/

namespace TopicClient.Client

inductive FetchError (c : Client) : ClientError → Prop
  | lost {failure : Http.Failure} (h : (c.exchange Path.fetch none).1 = .error failure) :
      FetchError c (.http failure)
  | cutOff {status : ℕ} {failure : Http.Failure}
      (h : (c.exchange Path.fetch none).1 = .ok ⟨status, .error failure⟩) :
      FetchError c (.http failure)
  | rejected {status : ℕ} {body : String} (hs : status ≠ 200)
      (h : (c.exchange Path.fetch none).1 = .ok ⟨status, .ok body⟩) :
      FetchError c (.status status body)
  | malformed {body : String} {cause : Json.ReadError}
      (h : (c.exchange Path.fetch none).1 = .ok ⟨200, .ok body⟩)
      (hp : Event.parseBatch body = .error cause) :
      FetchError c (.serialization (.reading cause))

/-- A poll has fetched a batch: the last response of the exchange, which leaves the given agent, has
the status 200, all of its body has come, and the body spells the batch. -/
structure Fetched (c : Client) (agent : Http.Agent) (batch : List Event) (url : Url)
    (response : Http.Response) (body : String) : Prop where
  url_eq : Url.parse (endpoint c.base Path.fetch) = .ok url
  leads : Http.Agent.Leads Http.redirectLimit c.agent
    { method := .post, url := url.withoutAccount } response agent
  status_eq : response.status = 200
  complete : response.ending = .complete
  body_eq : body = String.ofList (Text.decodeLossy response.body)
  parse_eq : Event.parseBatch body = .ok batch
  decodes : Event.Decodes body.toList batch

structure Holds (c : Client) (d : Delivery) : Prop where
  registry_eq : c.registry = d.registry
  calls_eq : c.delivery.calls = d.calls
  lines_eq : c.delivery.lines = d.lines

theorem fetched_of_exchange {c : Client} {body : String} {batch : List Event}
    (h : (c.exchange Path.fetch none).1 = .ok ⟨200, .ok body⟩)
    (hp : Event.parseBatch body = .ok batch) :
    ∃ url response, Fetched c (c.exchange Path.fetch none).2 batch url response body := by
  have hpost : c.agent.post (endpoint c.base Path.fetch) none =
      (.ok ⟨200, .ok body⟩, (c.exchange Path.fetch none).2) := Prod.ext h rfl
  obtain ⟨url, response, hurl, hleads, hanswer⟩ := Http.Agent.exists_leads_of_post_eq_ok hpost
  obtain ⟨hstatus, htext⟩ := Http.Answer.mk.inj hanswer
  rcases Http.Response.text_eq_ok_iff.1 htext.symm with ⟨hbodiless, _⟩ | ⟨_, hending, hbody⟩
  · rw [← hstatus] at hbodiless
    cases hbodiless
  · exact ⟨url, response, hurl, hleads, hstatus.symm, hending, hbody, hp,
      Event.decodes_of_parseBatch hp⟩

theorem source_of_mem_postRecords {url : String} {o : Except Http.Failure Http.Answer}
    {r : Log.Record} (hr : r ∈ postRecords url o) : r.source = .transport := by
  unfold postRecords at hr
  split at hr
  · split_ifs at hr
    · obtain rfl := List.mem_singleton.1 hr
      rfl
    · simp only [List.mem_cons, List.not_mem_nil, or_false] at hr
      rcases hr with rfl | rfl
      · rfl
      · rfl
  · obtain rfl := List.mem_singleton.1 hr
    rfl

theorem holds_afterExchange (c : Client) (path : String) (body : Option String) :
    Holds (c.afterExchange path body) c.delivery where
  registry_eq := rfl
  calls_eq := rfl
  lines_eq := by
    have hnil : (postRecords (endpoint c.base path) (c.exchange path body).1).filter
        (fun r => r.source = .polling) = [] := by
      rw [List.filter_eq_nil_iff]
      intro r hr
      simp [source_of_mem_postRecords hr]
    rw [Delivery.lines, Delivery.lines, afterExchange, List.filter_append, hnil, List.append_nil]

theorem Holds.log {c : Client} {d : Delivery} (h : Holds c d) {r : Log.Record}
    (hr : r.source ≠ .polling) : Holds { c with delivery := c.delivery.log r } d where
  registry_eq := h.registry_eq
  calls_eq := h.calls_eq
  lines_eq := by
    rw [← h.lines_eq]
    simp [Delivery.lines, Delivery.log, hr]

theorem run_deliver (c : Client) (batch : List Event) :
    (deliver batch).run c =
      match c.delivery.dispatch batch with
      | .ok (d, n) => (.ok batch.length, { c with delivery := d.log (record .debug .events
          "Dispatched events" [("events", Log.number batch.length), ("invoked", Log.number n)]) })
      | .error d => (.error .unusableKey, { c with delivery := d }) := by
  simp only [deliver, StateT.run_bind, StateT.run_get, pure_bind]
  cases c.delivery.dispatch batch with
  | ok p => rfl
  | error d => rfl

/-- What is held of a client is held of it after the delivery of a batch. -/
theorem Holds.dispatch {c : Client} {d : Delivery} (h : Holds c d) (batch : List Event) :
    match c.delivery.dispatch batch, d.dispatch batch with
    | .ok (d₁, n₁), .ok (d₂, n₂) => n₁ = n₂ ∧ Holds { c with delivery := d₁ } d₂
    | .error d₁, .error d₂ => Holds { c with delivery := d₁ } d₂
    | _, _ => False := by
  have hc : ({ c.delivery with logs := [] } : Delivery) = { d with logs := [] } := by
    rw [Delivery.mk.injEq]
    exact ⟨h.registry_eq, h.calls_eq, rfl⟩
  rw [c.delivery.dispatch_withLogs c.delivery.logs batch, d.dispatch_withLogs d.logs batch, hc]
  have hlines : ∀ d' : Delivery, (d'.prependLogs c.delivery.logs).lines =
      (d'.prependLogs d.logs).lines := by
    intro d'
    rw [Delivery.lines_prependLogs, Delivery.lines_prependLogs]
    exact congrArg (· ++ d'.lines) h.lines_eq
  cases ({ d with logs := [] } : Delivery).dispatch batch with
  | ok p => exact ⟨rfl, rfl, rfl, hlines p.1⟩
  | error d' => exact ⟨rfl, rfl, hlines d'⟩

theorem run_fetch_of_parse {c : Client} {body : String} {batch : List Event}
    (h : (c.exchange Path.fetch none).1 = .ok ⟨200, .ok body⟩)
    (hp : Event.parseBatch body = .ok batch) :
    fetch.run c = (deliver batch).run (c.afterExchange Path.fetch none) := by
  rw [fetch, StateT.run_bind, run_postBody, outcomeOf_eq_ok_iff.2 h]
  simp only [bind, hp]

/-- What a poll comes to when there is no batch: it logs, and ends in an error. -/
theorem run_fetch_of_no_batch (c : Client)
    (h : ∀ body, (c.exchange Path.fetch none).1 = .ok ⟨200, .ok body⟩ →
      ∀ batch, Event.parseBatch body ≠ .ok batch) :
    ∃ e c', fetch.run c = (.error (.error e), c') ∧ FetchError c e ∧ Holds c' c.delivery := by
  have hheld := holds_afterExchange c Path.fetch none
  have hlost : ∀ e, outcomeOf (c.exchange Path.fetch none).1 = .error e → FetchError c e →
      ∃ e c', fetch.run c = (.error (.error e), c') ∧ FetchError c e ∧ Holds c' c.delivery := by
    intro e he herror
    have hrun : fetch.run c = (.error (.error e), { c.afterExchange Path.fetch none with
        delivery := (c.afterExchange Path.fetch none).delivery.log (record .warn .events
          "Failed to fetch events" [("error", .plain e.message)]) }) := by
      rw [fetch, StateT.run_bind, run_postBody, he]
      rfl
    exact ⟨e, _, hrun, herror, hheld.log nofun⟩
  cases ho : (c.exchange Path.fetch none).1 with
  | error failure => exact hlost (.http failure) (by rw [ho]; rfl) (.lost ho)
  | ok answer =>
    obtain ⟨status, answerBody⟩ := answer
    cases answerBody with
    | error failure => exact hlost (.http failure) (by rw [ho]; rfl) (.cutOff ho)
    | ok body =>
      by_cases hs : status = 200
      · subst hs
        cases hp : Event.parseBatch body with
        | ok batch => exact absurd hp (h body ho batch)
        | error cause =>
          refine ⟨.serialization (.reading cause), _, ?_, .malformed ho hp, hheld⟩
          rw [fetch, StateT.run_bind, run_postBody, outcomeOf_eq_ok_iff.2 ho]
          simp only [bind, hp]
          rfl
      · have he : outcomeOf (c.exchange Path.fetch none).1 = .error (.status status body) := by
          rw [ho, outcomeOf, judge, if_neg hs]
        exact hlost _ he (.rejected hs ho)

/-- A poll that ends in an error has called no handler and left the registry as it was; one that
returns a number has fetched a batch of so many events and delivered it as a whole. A poll whose
handlers register a key that cannot be compiled is broken off where the delivery of its batch is. -/
theorem fetch_all_or_nothing (c : Client) :
    match fetch.run c with
    | (.error (.error e), c') => FetchError c e ∧ Holds c' c.delivery
    | (.ok n, c') => ∃ batch url response body d k, Fetched c c'.agent batch url response body ∧
        n = batch.length ∧ c.delivery.dispatch batch = .ok (d, k) ∧ Holds c' d
    | (.error .unusableKey, c') => ∃ batch url response body d,
        Fetched c c'.agent batch url response body ∧ c.delivery.dispatch batch = .error d ∧
          Holds c' d := by
  by_cases h : ∃ body batch, (c.exchange Path.fetch none).1 = .ok ⟨200, .ok body⟩ ∧
      Event.parseBatch body = .ok batch
  · obtain ⟨body, batch, ho, hp⟩ := h
    rw [run_fetch_of_parse ho hp, run_deliver]
    have hheld := (holds_afterExchange c Path.fetch none).dispatch batch
    cases hafter : (c.afterExchange Path.fetch none).delivery.dispatch batch with
    | ok p =>
      cases hd : c.delivery.dispatch batch with
      | ok q =>
        rw [hafter, hd] at hheld
        obtain ⟨url, response, hfetched⟩ := fetched_of_exchange ho hp
        exact ⟨batch, url, response, body, q.1, q.2, hfetched, rfl, hd, hheld.2.log nofun⟩
      | error d => rw [hafter, hd] at hheld; exact hheld.elim
    | error d =>
      cases hd : c.delivery.dispatch batch with
      | ok q => rw [hafter, hd] at hheld; exact hheld.elim
      | error d' =>
        rw [hafter, hd] at hheld
        obtain ⟨url, response, hfetched⟩ := fetched_of_exchange ho hp
        exact ⟨batch, url, response, body, d', hfetched, hd, hheld⟩
  · obtain ⟨e, c', hrun, herror, hheld⟩ := run_fetch_of_no_batch c
      fun body ho batch hp => h ⟨body, batch, ho, hp⟩
    rw [hrun]
    exact ⟨herror, hheld⟩

end TopicClient.Client
