import Mathlib.Data.List.Perm.Subperm
import TopicClient.Proofs.Client.Scene

/-!
# Handlers are in place before the server hears of them

A subscription puts its handler in place at once, and tells the server only when its future is
polled. So however the calls of all copies of a client overlap, every handler that the server may
know of is there: a dispatch that begins after a request of a subscription has been sent finds the
handler of that subscription for every event that its key receives (`inPlace_of_unfolds`).
-/

namespace TopicClient

namespace Ledger

variable {H : Type}

theorem handlers_successful (l : Ledger H) (key : String) :
    l.successful.handlers key = if (Glob.compile key).isUsable then l.handlers key else [] := by
  rw [handlers, successful, List.filter_filter]
  split_ifs with hk
  · rw [handlers]
    congr 1
    apply List.filter_congr
    intro e _
    by_cases he : e.1 = key
    · simp [he, hk]
    · simp [he]
  · rw [List.map_eq_nil_iff, List.filter_eq_nil_iff]
    intro e _
    by_cases he : e.1 = key
    · simp [he, hk]
    · simp [he]

theorem length_handlers (l : Ledger H) (key : String) :
    (l.handlers key).length = l.countP fun e => e.1 = key := by
  rw [handlers, List.length_map, List.countP_eq_length_filter]

end Ledger

namespace Delivery

open Ledger

/-- A dispatch that has not begun yet will find what has been registered by now. -/
theorem Tracked.exists_order_of_lookup {ds more : List Deed} {w w' : World} (h : Tracked ds w)
    (h' : Tracked (ds ++ more) w') {j : ℕ} (hj : w.tasks.length ≤ j) {e : Event}
    {handlers : List Handler} (hl : (e, handlers) ∈ lookups j (ds ++ more)) :
    ∃ later, handlers = ((registrations ds).successful ++ later).order e.topic := by
  rw [lookups, List.flatMap_append, ← lookups, (h.idle j hj).1, List.nil_append] at hl
  obtain ⟨deed, hmem, hdeed⟩ := List.mem_flatMap.1 hl
  obtain ⟨before, after, rfl⟩ := List.append_of_mem hmem
  have hfinds := h'.finds (ds ++ before) deed after (List.append_assoc _ _ _).symm
  cases deed with
  | looks i e' handlers' =>
    rw [Deed.lookups] at hdeed
    split_ifs at hdeed with hi
    · cases List.mem_singleton.1 hdeed
      refine ⟨(registrations before).successful, ?_⟩
      rw [← successful_append, registrations, registrations, ← List.flatMap_append]
      exact hfinds.1
    · cases hdeed
  | registers key handler => cases hdeed
  | begins batch => cases hdeed
  | calls i e' handler => cases hdeed

end Delivery

namespace Announcing

open Client
open Delivery (Deed Task World Tracked registrations batches lookups callsOf)
open Ledger
open Http (Hop Received)

/-- The request tells the server of the subscription, or is made without a body where the answer to
such a request leads. -/
def IsTold (subscription : Subscription) (r : Received) : Prop :=
  r.method = .post ∧ r.contentType = some Http.jsonType ∧ r.body = subscription.body ∨
    r.method = .get ∧ r.contentType = none ∧ r.body = ""

theorem isTold_of_shows {subscription : Subscription} {hop : Hop} {r : Received}
    (hcarries : hop.request.method = .post ∧ hop.request.body = some subscription.body ∨
      hop.request.method = .get ∧ hop.request.body = none)
    (hshows : hop.Shows r) : IsTold subscription r := by
  obtain ⟨cookies, rfl⟩ := hshows
  rw [IsTold, Http.Request.received]
  rcases hcarries with ⟨hmethod, hbody⟩ | ⟨hmethod, hbody⟩
  · rw [hbody]
    exact .inl ⟨hmethod, rfl, rfl⟩
  · rw [hbody]
    exact .inr ⟨hmethod, rfl, rfl⟩

theorem OfPost.isTold {text : String} {subscription : Subscription} {received : List Received}
    (h : OfPost text subscription.body received) : ∀ r ∈ received, IsTold subscription r := by
  obtain ⟨hops, htrail, -, hshows⟩ := h
  have hcarries := htrail.carries
  clear htrail
  induction hshows with
  | nil => nofun
  | cons hshow _ ih =>
    obtain ⟨hfirst, hrest⟩ := List.forall_mem_cons.1 hcarries
    exact List.forall_mem_cons.2 ⟨isTold_of_shows hfirst hshow, ih hrest⟩

theorem Stage.Stands.ofPost {text body : String} {stage : Stage} {n : ℕ} {received : List Received}
    (h : stage.Stands text body n received) :
    OfPost text body received ∧ n ≤ 1 ∧ (n = 0 → received = []) := by
  have hnone : OfPost text body [] := ⟨[], .nil, Nat.zero_le _, .nil⟩
  cases h with
  | fresh => exact ⟨hnone, Nat.zero_le 1, fun _ => rfl⟩
  | posting hf hs => exact ⟨⟨_, hf.trail.1, hf.trail.2, hs⟩, Nat.le_refl 1, nofun⟩
  | done h => exact ⟨h, Nat.le_refl 1, nofun⟩
  | unposted => exact ⟨hnone, Nat.zero_le 1, fun _ => rfl⟩
  | abandoned h => exact ⟨h, Nat.le_refl 1, nofun⟩

theorem move_of_dropped {s : Scene} {i : ℕ} {f : Future} (hf : s.futures[i]? = some f)
    (hd : f.stage = .dropped) (m : Move) : (s.move m).2.futures[i]? = some f ∧
      posted i (s.move m).1 = 0 ∧ sent i (s.move m).1 = [] := by
  cases m with
  | turn m =>
    obtain ⟨hi, _⟩ := List.getElem?_eq_some_iff.1 hf
    refine ⟨?_, (acts_of_turn _ _).2.2.2 i⟩
    rw [Scene.move, List.getElem?_append_left hi]
    exact hf
  | poll j =>
    rw [Scene.move]
    cases hp : s.poll? j with
    | none => exact ⟨hf, rfl, rfl⟩
    | some p =>
      obtain ⟨acts, s'⟩ := p
      obtain ⟨f', client, stage, hf', hs, rfl⟩ := poll?_eq_some_iff.1 hp
      have hj : i ≠ j := by
        rintro rfl
        rw [hf] at hf'
        cases hf'
        rw [hd] at hs
        cases hs
      refine ⟨?_, hs.of_ne.2.2 i hj⟩
      rw [← hf]
      exact List.getElem?_set_ne (Ne.symm hj)
  | drop j =>
    refine ⟨?_, rfl, rfl⟩
    simp only [Scene.move]
    rw [List.getElem?_modify, hf, Option.map_eq_map, Option.map_some]
    split_ifs
    · rw [← hd]
    · rfl

/-- Nothing more comes of a future that has been dropped. -/
theorem Unfolds.of_dropped {as as' : List Act} {s s' : Scene} (h : Unfolds as s as' s') {i : ℕ}
    {f : Future} (hf : s.futures[i]? = some f) (hd : f.stage = .dropped) :
    s'.futures[i]? = some f ∧ posted i as' = posted i as ∧ sent i as' = sent i as := by
  induction h with
  | refl => exact ⟨hf, rfl, rfl⟩
  | move _ m ih =>
    obtain ⟨hfuture, hposted, hsent⟩ := ih
    obtain ⟨hfuture', hposted', hsent'⟩ := move_of_dropped hfuture hd m
    rw [posted_append, sent_append, hposted', hsent', Nat.add_zero, List.append_nil]
    exact ⟨hfuture', hposted, hsent⟩
  | logged _ hr hw ih => exact ih
  | rehashed _ hp ih => exact ih
  | others _ hr ih =>
    rw [posted_append, sent_append]
    exact ⟨ih.1, ih.2.1, (List.append_nil _).trans ih.2.2⟩

/-- A future that is polled alone comes to its end. -/
theorem exists_unfolds_of_completes {i : ℕ} {promise : Promise} {c c' : Client} {stage : Stage}
    {outcome : Outcome Unit} (h : Stage.Completes i promise.subscription c stage outcome c')
    (as : List Act) (s : Scene) (hc : s.client = c)
    (hf : s.futures[i]? = some { promise, stage }) :
    ∃ as' s', Unfolds as s as' s' ∧ s'.client = c' ∧
      s'.futures[i]? = some { promise, stage := .done outcome } := by
  induction h generalizing as s with
  | done => exact ⟨as, s, .refl, hc, hf⟩
  | @step c c₁ c' stage stage₁ acts outcome hs _ ih =>
    subst hc
    obtain ⟨hi, _⟩ := List.getElem?_eq_some_iff.1 hf
    have hp : s.poll? i = some (acts, { s with
        client := c₁, futures := s.futures.set i { promise, stage := stage₁ } }) :=
      poll?_eq_some_iff.2 ⟨_, _, _, hf, hs, rfl⟩
    have hmove := (Unfolds.refl : Unfolds as s as s).move (.poll i)
    rw [Scene.move, hp] at hmove
    obtain ⟨as', s', hrun, hclient, hfuture⟩ := ih (as ++ acts)
      { s with client := c₁, futures := s.futures.set i { promise, stage := stage₁ } } rfl
      (List.getElem?_set_self hi)
    exact ⟨as', s', hmove.trans hrun, hclient, hfuture⟩

/-- Taken alone, a call of `subscribe` whose future is polled to its end is `Client.subscribe`. -/
theorem exists_unfolds_subscribe (as : List Act) (s : Scene) (key : String) (authLevel : UInt8)
    (handler : Handler) : ∃ as' s', Unfolds as s as' s' ∧
      s'.client = ((Client.subscribe key authLevel handler).run s.client).2 := by
  have hmove := (Unfolds.refl : Unfolds as s as s).move (.turn (.subscribe key authLevel handler))
  rw [run_subscribe]
  cases hd : s.client.delivery.subscribe key authLevel handler with
  | error d =>
    refine ⟨_, _, hmove, ?_⟩
    simp only [Scene.move, World.move, Scene.world, hd, Delivery.left]
  | ok d =>
    have hclient : (s.move (.turn (.subscribe key authLevel handler))).2.client =
        { s.client with delivery := d } := by
      simp only [Scene.move, World.move, Scene.world, hd, Delivery.left]
    have hfuture : (s.move (.turn (.subscribe key authLevel handler))).2.futures[s.futures.length]?
        = some { promise := ⟨⟨key, authLevel⟩, handler⟩, stage := .fresh } := by
      simp [Scene.move, Scene.promised, hd]
    obtain ⟨as', s', hrun, hend, _⟩ := exists_unfolds_of_completes
      (Stage.completes_fresh s.futures.length ⟨key, authLevel⟩ { s.client with delivery := d })
      _ _ hclient hfuture
    exact ⟨as', s', hmove.trans hrun, hend⟩

namespace Agrees

variable {c : Client} {as : List Act} {s : Scene}

theorem handlers_eq (h : Agrees c as s) (key : String) :
    s.client.registry.handlers key = (registrations (deeds as)).successful.handlers key :=
  h.tracked.kept.built.handlers_eq key

theorem count_eq (h : Agrees c as s) (key : String) : s.client.registry.count key =
    if (Glob.compile key).isUsable then (registrations (deeds as)).countP fun r => r.1 = key
    else 0 := by
  rw [Registry.count, h.handlers_eq, handlers_successful]
  split_ifs
  · exact length_handlers _ _
  · rfl

/-- The handlers of the futures whose keys have a property are among those registered under such
keys, in the same order. -/
theorem sublist_of_keys (h : Agrees c as s) (p : String → Bool) :
    ((s.futures.filter fun f => p f.promise.subscription.key).map (·.promise.handler)).Sublist
      (((registrations (deeds as)).successful.filter fun r => p r.1).map Prod.snd) := by
  have hsublist := (h.sublist.filter fun r => p r.1).map Prod.snd
  rw [← h.promises_eq, List.map_map, List.filter_map, List.map_map] at hsublist
  exact hsublist

theorem placed (h : Agrees c as s) (key : String) :
    ((s.futures.filter fun f => f.promise.subscription.key = key).map (·.promise.handler)).Sublist
      (s.client.registry.handlers key) := by
  rw [h.handlers_eq]
  exact h.sublist_of_keys fun key' => key' = key

theorem handler_mem (h : Agrees c as s) {f : Future} (hf : f ∈ s.futures) :
    f.promise.handler ∈ s.client.registry.handlers f.promise.subscription.key :=
  (h.placed _).subset (List.mem_map_of_mem (List.mem_filter.2 ⟨hf, by simp⟩))

theorem subscribed (h : Agrees c as s) {key : String} (hk : (Glob.compile key).isUsable = true)
    (authLevel : UInt8) (handler : Handler) :
    (s.move (.turn (.subscribe key authLevel handler))).2.futures =
        s.futures ++ [{ promise := ⟨⟨key, authLevel⟩, handler⟩ }] ∧
      (s.move (.turn (.subscribe key authLevel handler))).2.client.registry.handlers key =
        s.client.registry.handlers key ++ [handler] := by
  have htries := h.tracked.kept.subscribe key authLevel handler
  obtain ⟨d, hd⟩ := htries.exists_ok_iff.2 (List.forall_mem_singleton.2 hk)
  have hd' : s.client.delivery.subscribe key authLevel handler = .ok d := hd
  constructor
  · simp only [Scene.move, Scene.promised, hd', List.map_singleton]
  · have hnext := (h.turn (.subscribe key authLevel handler)).handlers_eq key
    rw [Scene.move, deeds_append, (acts_of_turn _ _).1, registrations, List.flatMap_append,
      successful_append, handlers_append, ← registrations, ← h.handlers_eq] at hnext
    have hlast : (registrations [.registers key handler]).successful.handlers key = [handler] := by
      simp [registrations, Deed.attempts, successful, Ledger.handlers, hk]
    exact hnext.trans (congrArg _ hlast)

theorem refused (h : Agrees c as s) {key : String} (hk : Glob.compile key = .tooDeep)
    (authLevel : UInt8) (handler : Handler) :
    (s.move (.turn (.subscribe key authLevel handler))).2 = s := by
  have hregister : s.client.delivery.register key handler = .error s.client.delivery :=
    Delivery.register_eq_error h.tracked.kept.built hk handler
  have hd : s.client.delivery.subscribe key authLevel handler = .error s.client.delivery := by
    rw [Delivery.subscribe, hregister]
    rfl
  simp only [Scene.move, Scene.promised, World.move, Scene.world, hd, Delivery.left, List.map_nil,
    List.append_nil]

theorem told (h : Agrees c as s) {i : ℕ} {r : Received} (hr : .sends i r ∈ as) :
    ∃ f, s.futures[i]? = some f ∧
      f.promise.handler ∈ s.client.registry.handlers f.promise.subscription.key ∧
      IsTold f.promise.subscription r := by
  have hmem : r ∈ sent i as := List.mem_flatMap.2 ⟨_, hr, by simp [Act.sent]⟩
  have hi : i < s.futures.length := by
    by_contra hi
    rw [(h.idle i (Nat.not_lt.1 hi)).2] at hmem
    cases hmem
  have hf : s.futures[i]? = some s.futures[i] := List.getElem?_eq_getElem hi
  exact ⟨_, hf, h.handler_mem (List.mem_of_getElem? hf), (h.stands i _ hf).ofPost.1.isTold r hmem⟩

/-- Whoever is next, a request is sent for a handler that is in place. -/
theorem sends (h : Agrees c as s) {m : Move} {i : ℕ} {r : Received}
    (hr : .sends i r ∈ (s.move m).1) : ∃ f, s.futures[i]? = some f ∧
      f.promise.handler ∈ s.client.registry.handlers f.promise.subscription.key ∧
      IsTold f.promise.subscription r := by
  obtain ⟨f', hf', -, htold⟩ := (h.move m).told (List.mem_append_right as hr)
  cases m with
  | turn m => simp [Scene.move] at hr
  | drop j => cases hr
  | poll j =>
    rw [Scene.move] at hr hf'
    cases hp : s.poll? j with
    | none =>
      rw [hp] at hr
      cases hr
    | some p =>
      obtain ⟨acts, s'⟩ := p
      rw [hp] at hf'
      obtain ⟨f, client, stage, hf, _, rfl⟩ := poll?_eq_some_iff.1 hp
      have hsame := congrArg (·[i]?) (map_promise_set hf stage)
      simp only [List.getElem?_map, hf', Option.map_some] at hsame
      obtain ⟨f₀, hf₀, heq⟩ := Option.map_eq_some_iff.1 hsame.symm
      rw [← heq] at htold
      exact ⟨f₀, hf₀, h.handler_mem (List.mem_of_getElem? hf₀), htold⟩

/-- A dispatch that has not begun yet will find the handlers of all futures there are. -/
theorem delivers (h : Agrees c as s) {as' : List Act} {s' : Scene} (hrun : Unfolds as s as' s')
    {j : ℕ} (hj : s.tasks.length ≤ j) {e : Event} {handlers : List Handler}
    (hl : (e, handlers) ∈ lookups j (deeds as')) :
    ((s.futures.filter fun f => f.promise.Covers e.topic).map (·.promise.handler)).Subperm
      handlers := by
  obtain ⟨more, rfl⟩ := hrun.exists_append
  have htracked := (hrun.agrees h).tracked
  rw [deeds_append] at htracked hl
  obtain ⟨later, rfl⟩ := h.tracked.exists_order_of_lookup htracked hj hl
  have hnow := h.sublist_of_keys fun key => key = e.topic ∨ Glob.Receives key e.topic
  have hlater := ((List.sublist_append_left (registrations (deeds as)).successful later).filter
    fun r => r.1 = e.topic ∨ Glob.Receives r.1 e.topic).map Prod.snd
  exact (hnow.trans hlater).subperm.trans (order_perm _ _).symm.subperm

/-- When it has returned, it has called these handlers for every event that their keys receive. -/
theorem returns (h : Agrees c as s) {as' : List Act} {s' : Scene} (hrun : Unfolds as s as' s')
    {j n : ℕ} (hj : s.tasks.length ≤ j) (ht : s'.tasks[j]? = some (.between [] n))
    {batch : List Event} (hb : (batches (deeds as'))[j]? = some batch) {e : Event} (he : e ∈ batch)
    {f : Future} (hf : f ∈ s.futures) (hc : f.promise.Covers e.topic) :
    (e, f.promise.handler) ∈ callsOf j (deeds as') := by
  have htracked := (hrun.agrees h).tracked
  have hfollows := htracked.follows j _ batch ht hb
  have hlooks : ∀ handlers, (e, handlers) ∈ lookups j (deeds as') →
      f.promise.handler ∈ handlers := by
    intro handlers hl
    refine (h.delivers hrun hj hl).subset ?_
    exact List.mem_map_of_mem (List.mem_filter.2 ⟨hf, decide_eq_true hc⟩)
  generalize lookups j (deeds as') = turns, callsOf j (deeds as') = calls at hfollows hlooks
  cases hfollows with
  | between hwaiting =>
    rw [List.append_nil] at hwaiting
    rw [← List.mem_reverse, ← hwaiting] at he
    obtain ⟨⟨e', handlers⟩, hturn, rfl⟩ := List.mem_map.1 he
    exact List.mem_flatMap.2 ⟨_, hturn, List.mem_map_of_mem (hlooks handlers hturn)⟩

end Agrees

structure InPlace (c : Client) (as : List Act) (s : Scene) : Prop where
  /-- Under each key there are as many handlers as calls have been made to register one there, by
  whomever and whatever has become of their futures; under a key that cannot be used, none. -/
  count_eq : ∀ key, s.client.registry.count key =
    if (Glob.compile key).isUsable then (registrations (deeds as)).countP fun r => r.1 = key
    else 0
  /-- A call of `subscribe` puts its handler in place and returns a future that nobody has polled. -/
  subscribed : ∀ key authLevel handler, (Glob.compile key).isUsable = true →
    (s.move (.turn (.subscribe key authLevel handler))).2.futures =
        s.futures ++ [{ promise := ⟨⟨key, authLevel⟩, handler⟩ }] ∧
      (s.move (.turn (.subscribe key authLevel handler))).2.client.registry.handlers key =
        s.client.registry.handlers key ++ [handler]
  refused : ∀ key authLevel handler, Glob.compile key = .tooDeep →
    (s.move (.turn (.subscribe key authLevel handler))).2 = s
  /-- The handlers of all futures are in place, each as often as there is a future for it. -/
  placed : ∀ key,
    ((s.futures.filter fun f => f.promise.subscription.key = key).map (·.promise.handler)).Sublist
      (s.client.registry.handlers key)
  /-- When a future sends a request, its handler is in place already. -/
  sends : ∀ m i r, .sends i r ∈ (s.move m).1 → ∃ f, s.futures[i]? = some f ∧
    f.promise.handler ∈ s.client.registry.handlers f.promise.subscription.key ∧
    IsTold f.promise.subscription r
  /-- Every request of a future so far tells of its subscription, whose handler is in place. -/
  told : ∀ i r, .sends i r ∈ as → ∃ f, s.futures[i]? = some f ∧
    f.promise.handler ∈ s.client.registry.handlers f.promise.subscription.key ∧
    IsTold f.promise.subscription r
  /-- What a future has sent are the requests of one post to the path of subscriptions. -/
  posts : ∀ i (f : Future), s.futures[i]? = some f →
    OfPost (endpoint c.base Path.subscribe) f.promise.subscription.body (sent i as)
  received_eq : s.client.agent.received = c.agent.received ++ requests as
  /-- A future posts once at most, and sends nothing before. -/
  posted_le : ∀ i, posted i as ≤ 1 ∧ (posted i as = 0 → sent i as = [])
  /-- Nothing more comes of one that has been dropped. -/
  dropped : ∀ i (f : Future), s.futures[i]? = some f → f.stage = .dropped →
    ∀ as' s', Unfolds as s as' s' → posted i as' = posted i as ∧ sent i as' = sent i as
  /-- One that is dropped before it has been polled never posts at all. -/
  unpolled : ∀ i (f : Future), s.futures[i]? = some f → f.stage = .fresh →
    ∀ as' s', Unfolds as (s.move (.drop i)).2 as' s' → posted i as' = 0 ∧ sent i as' = []
  /-- A dispatch that begins from now on finds the handlers of all futures there are by now, for
  every event that their keys receive. -/
  delivers : ∀ as' s', Unfolds as s as' s' → ∀ j, s.tasks.length ≤ j →
    ∀ e handlers, (e, handlers) ∈ lookups j (deeds as') →
      ((s.futures.filter fun f => f.promise.Covers e.topic).map (·.promise.handler)).Subperm
        handlers
  /-- By the time it returns it has called them for every such event of its batch. -/
  returns : ∀ as' s', Unfolds as s as' s' → ∀ j, s.tasks.length ≤ j →
    ∀ n batch, s'.tasks[j]? = some (.between [] n) → (batches (deeds as'))[j]? = some batch →
      ∀ e ∈ batch, ∀ f ∈ s.futures, f.promise.Covers e.topic →
        (e, f.promise.handler) ∈ callsOf j (deeds as')
  /-- A future that nobody has polled can go on alone to its end, and does so as an announcement. -/
  ends : ∀ (i : ℕ) (f : Future), s.futures[i]? = some f → f.stage = .fresh →
    ∃ as' s', Unfolds as s as' s' ∧ s'.client = ((announce f.promise.subscription).run s.client).2 ∧
      s'.futures[i]? =
        some { f with stage := .done ((announce f.promise.subscription).run s.client).1 }

/-- In every run, however subscriptions, registrations, dispatches and the futures of subscriptions
follow each other, a handler is in place before the server hears of its subscription, and stays. -/
theorem inPlace_of_unfolds {config : Config} {agent : Http.Agent} {c : Client} {as : List Act}
    {s : Scene} (hc : connect config agent = .ok c) (h : Unfolds [] { client := c } as s) :
    InPlace c as s := by
  have hagrees : Agrees c as s := h.agrees (.start (of_connect_eq_ok hc).2)
  refine ⟨hagrees.count_eq, fun key authLevel handler hk => hagrees.subscribed hk authLevel handler,
    fun key authLevel handler hk => hagrees.refused hk authLevel handler, hagrees.placed,
    fun m i r hr => hagrees.sends hr, fun i r hr => hagrees.told hr, ?_, hagrees.received_eq,
    ?_, ?_, ?_,
    fun as' s' hrun j hj e handlers hl => hagrees.delivers hrun hj hl,
    fun as' s' hrun j hj n batch ht hb e he f hf hcovers =>
      hagrees.returns hrun hj ht hb he hf hcovers, ?_⟩
  · intro i f hf
    exact (hagrees.stands i f hf).ofPost.1
  · intro i
    by_cases hi : i < s.futures.length
    · exact (hagrees.stands i _ (List.getElem?_eq_getElem hi)).ofPost.2
    · obtain ⟨hposted, hsent⟩ := hagrees.idle i (Nat.not_lt.1 hi)
      exact ⟨by omega, fun _ => hsent⟩
  · intro i f hf hd as' s' hrun
    exact (hrun.of_dropped hf hd).2
  · intro i f hf hfresh as' s' hrun
    have hstands := hagrees.stands i f hf
    rw [hfresh] at hstands
    have hdropped : (s.move (.drop i)).2.futures[i]? = some { f with stage := .dropped } := by
      simp [Scene.move, hf]
    obtain ⟨_, hposted, hsent⟩ := hrun.of_dropped hdropped rfl
    rw [hposted, hsent]
    generalize posted i as = n, sent i as = received at hstands
    cases hstands with
    | fresh => exact ⟨rfl, rfl⟩
  · intro i f hf hfresh
    refine exists_unfolds_of_completes (Stage.completes_fresh i f.promise.subscription s.client)
      as s rfl ?_
    rw [hf, ← hfresh]

namespace Scene

def run (s : Scene) : List Move → List Act × Scene
  | [] => ([], s)
  | m :: ms => ((s.move m).1 ++ ((s.move m).2.run ms).1, ((s.move m).2.run ms).2)

theorem unfolds_run {as as' : List Act} {s s' : Scene} (h : Unfolds as s as' s')
    (ms : List Move) : Unfolds as s (as' ++ (s'.run ms).1) (s'.run ms).2 := by
  induction ms generalizing as' s' with
  | nil =>
    rw [run, List.append_nil]
    exact h
  | cons m ms ih =>
    rw [run, ← List.append_assoc]
    exact ih (h.move m)

end Scene

def unused : Client where
  config := .ofUrl "http://susi.test"
  base := "http://susi.test"
  agent := { server := {} }

/-- The first future is dropped before it is polled, and the second one after its request has been
sent. A dispatch begins in between. -/
def dropping : List Move :=
  [.turn (.subscribe "t" 0 (.recording (some "a") [])),
    .turn (.subscribe "t" 3 (.recording (some "b") [])), .drop 0, .poll 0, .poll 1, .poll 1,
    .turn (.start [{ topic := "t" }]), .drop 1, .poll 1] ++
    List.replicate 3 (.turn (.proceed 0))

theorem inPlace_dropping : ∃ as s, connect unused.config unused.agent = .ok unused ∧
    Unfolds [] { client := unused } as s ∧ InPlace unused as s ∧
    s.client.registry.count "t" = 2 ∧ posted 0 as = 0 ∧
    s.client.agent.received.map (fun r => (r.target, r.body)) =
      [("/events/subscribe", (Subscription.mk "t" 3).body)] ∧
    s.client.delivery.calls.map Call.handler = [some "b", some "a"] := by
  have hconnect : connect unused.config unused.agent = .ok unused :=
    connect_ofUrl _ (by decide +kernel) (by decide +kernel)
  have hrun := Scene.unfolds_run (.refl : Unfolds [] { client := unused } _ _) dropping
  exact ⟨_, _, hconnect, hrun, inPlace_of_unfolds hconnect hrun, by decide +kernel,
    by decide +kernel, by decide +kernel, by decide +kernel⟩

end Announcing

end TopicClient
