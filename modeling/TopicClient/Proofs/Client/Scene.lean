import TopicClient.Proofs.Client.Future
import TopicClient.Proofs.Client.Operation

/-!
# Clients in use

The copies of a client may be used at the same time: some subscribe, some wait for the futures they
got or drop them, others deliver events. A `Scene` is the client with all that is under way, and
`Unfolds` are the runs in which the steps follow each other in any order, while other calls use the
agent as they like. `Agrees` relates a scene to what has been done before, and holds all along
(`Unfolds.agrees`).
-/

namespace TopicClient

namespace FollowUp

def promise? : FollowUp → Option Announcing.Promise
  | register _ _ => none
  | subscribe key handler => some ⟨⟨key, 0⟩, handler⟩

end FollowUp

namespace Delivery

open Ledger

/-- The futures that a handler gets for the registrations it makes, up to one that fails. -/
def promised (d : Delivery) : List FollowUp → List Announcing.Promise
  | [] => []
  | f :: fs =>
    match d.followUp f with
    | .ok d => f.promise?.toList ++ d.promised fs
    | .error _ => []

theorem Tracked.notes {ds : List Deed} {d : Delivery} {ts : List Task} (h : Tracked ds ⟨d, ts⟩)
    {records : List Log.Record} (hr : ∀ r ∈ records, r.source = .transport) :
    Tracked ds ⟨{ d with logs := d.logs ++ records }, ts⟩ := by
  induction records generalizing d with
  | nil => rwa [List.append_nil]
  | cons r records ih =>
    obtain ⟨hfirst, hrest⟩ := List.forall_mem_cons.1 hr
    have hlogged := h.logged (r := r) (by rw [hfirst]; nofun)
      (not_warnsOf_of_source (by rw [hfirst]; nofun))
    have hnotes := ih hlogged hrest
    simp only [log, List.append_assoc, List.singleton_append] at hnotes
    exact hnotes

theorem World.move_proceed_of_within {w : World} {i : ℕ} {e : Event} {handlers rest : List Handler}
    {next : Handler} {waiting : List Event} {invoked : ℕ}
    (ht : w.tasks[i]? = some (.within e handlers next rest waiting invoked)) :
    (w.move (.proceed i)).1 = [.calls i e next] := by
  have hproceed : ∃ w', w.proceed? i = some (.calls i e next, w') := by
    cases hc : w.delivery.call e next with
    | ok d => exact ⟨_, proceed?_eq_some_iff.2 ⟨_, _, _, ht, by rw [Task.step?, hc], rfl⟩⟩
    | error d => exact ⟨_, proceed?_eq_some_iff.2 ⟨_, _, _, ht, by rw [Task.step?, hc], rfl⟩⟩
  obtain ⟨w', hw⟩ := hproceed
  rw [World.move, hw]

/-- A subscription that a handler has made is one of the registrations of its call. -/
theorem Kept.promised_sublist {as : Ledger Handler} {d : Delivery} (hd : Kept as d)
    (fs : List FollowUp) :
    ((d.promised fs).map Announcing.Promise.registration).Sublist
      (successful (tried (fs.map fun f => (f.key, f.handler)))) := by
  induction fs generalizing as d with
  | nil => exact .slnil
  | cons f fs ih =>
    have htries := hd.followUp f
    rw [promised]
    cases hf : d.followUp f with
    | error d' => exact List.nil_sublist _
    | ok d' =>
      rw [hf] at htries
      obtain ⟨hall, hkept⟩ := htries.all_kept
      have husable := hall _ (List.mem_singleton_self _)
      have hcons : successful ((f.key, f.handler) :: tried (fs.map fun f => (f.key, f.handler))) =
          (f.key, f.handler) :: successful (tried (fs.map fun f => (f.key, f.handler))) :=
        List.filter_cons_of_pos husable
      have hrest := ih hkept
      rw [List.map_cons, tried, if_pos husable, hcons]
      cases f with
      | register key handler => exact hrest.cons _
      | subscribe key handler => exact hrest.cons_cons _

end Delivery

namespace Announcing

open Client
open Delivery (Deed Task World Tracked Kept registrations batches lookups callsOf)
open Ledger
open Http (Received)

structure Future where
  promise : Promise
  stage : Stage := .fresh

/-- A client with the dispatches and the futures of all its copies, in the order in which they came
about. -/
structure Scene where
  client : Client
  tasks : List Task := []
  futures : List Future := []

/-- Who is next: a registration or a dispatch, or the future of a number, which is polled or
dropped. -/
inductive Move where
  | turn (m : Delivery.Move)
  | poll (future : ℕ)
  | drop (future : ℕ)

namespace Scene

def world (s : Scene) : World := ⟨s.client.delivery, s.tasks⟩

def promised (s : Scene) : Delivery.Move → List Promise
  | .subscribe key authLevel handler =>
    match s.client.delivery.subscribe key authLevel handler with
    | .ok _ => [⟨⟨key, authLevel⟩, handler⟩]
    | .error _ => []
  | .proceed i =>
    match s.tasks[i]? with
    | some (.within _ _ (.recording _ followUps) _ _ _) => s.client.delivery.promised followUps
    | _ => []
  | .register _ _ | .start _ => []

def poll? (s : Scene) (i : ℕ) : Option (List Act × Scene) := do
  let f ← s.futures[i]?
  let (acts, client, stage) ← f.stage.step? i f.promise.subscription s.client
  return (acts, { s with client, futures := s.futures.set i { f with stage } })

/-- What is done in a move, and what it leaves. A future that is over does nothing. -/
def move (s : Scene) : Move → List Act × Scene
  | .turn m =>
    ((s.world.move m).1.map .does ++ (s.promised m).map .promises,
      { client := { s.client with delivery := (s.world.move m).2.delivery }
        tasks := (s.world.move m).2.tasks
        futures := s.futures ++ (s.promised m).map fun promise => { promise } })
  | .poll i =>
    match s.poll? i with
    | some (acts, s) => (acts, s)
    | none => ([], s)
  | .drop i =>
    ([], { s with futures := s.futures.modify i fun f => { f with stage := .dropped } })

end Scene

/-- The runs from a scene on, with what has been done so far. Between two moves other calls may use
the agent and log something, and the entries of the registry may change their places. -/
inductive Unfolds (as : List Act) (s : Scene) : List Act → Scene → Prop
  | refl : Unfolds as s as s
  | move {as' : List Act} {s' : Scene} (h : Unfolds as s as' s') (m : Move) :
      Unfolds as s (as' ++ (s'.move m).1) (s'.move m).2
  | logged {as' : List Act} {s' : Scene} (h : Unfolds as s as' s') {r : Log.Record}
      (hr : r.source ≠ .polling) (hw : ∀ key, ¬ Registry.WarnsOf key r) :
      Unfolds as s as' { s' with client := note s'.client [r] }
  | rehashed {as' : List Act} {s' : Scene} (h : Unfolds as s as' s') {registry : Registry Handler}
      (hp : registry.entries.Perm s'.client.registry.entries) :
      Unfolds as s as' { s' with
        client := { s'.client with delivery := { s'.client.delivery with registry } } }
  | others {as' : List Act} {s' : Scene} (h : Unfolds as s as' s') {agent : Http.Agent}
      {received : List Received} (hr : agent.received = s'.client.agent.received ++ received) :
      Unfolds as s (as' ++ [.others received]) { s' with client := { s'.client with agent } }

theorem Unfolds.trans {as as' as'' : List Act} {s s' s'' : Scene} (h : Unfolds as s as' s')
    (h' : Unfolds as' s' as'' s'') : Unfolds as s as'' s'' := by
  induction h' with
  | refl => exact h
  | move _ m ih => exact ih.move m
  | logged _ hr hw ih => exact ih.logged hr hw
  | rehashed _ hp ih => exact ih.rehashed hp
  | others _ hr ih => exact ih.others hr

theorem Unfolds.exists_append {as as' : List Act} {s s' : Scene} (h : Unfolds as s as' s') :
    ∃ more, as' = as ++ more := by
  induction h with
  | refl => exact ⟨[], (List.append_nil as).symm⟩
  | move _ m ih =>
    obtain ⟨more, rfl⟩ := ih
    exact ⟨_, List.append_assoc _ _ _⟩
  | logged _ hr hw ih => exact ih
  | rehashed _ hp ih => exact ih
  | others _ hr ih =>
    obtain ⟨more, rfl⟩ := ih
    exact ⟨_, List.append_assoc _ _ _⟩

section Acts

variable (as bs : List Act) (i : ℕ)

theorem deeds_append : deeds (as ++ bs) = deeds as ++ deeds bs := List.flatMap_append

theorem promises_append : promises (as ++ bs) = promises as ++ promises bs := List.flatMap_append

theorem posted_append : posted i (as ++ bs) = posted i as + posted i bs := List.countP_append

theorem sent_append : sent i (as ++ bs) = sent i as ++ sent i bs := List.flatMap_append

theorem requests_append : requests (as ++ bs) = requests as ++ requests bs :=
  List.flatMap_append

end Acts

theorem acts_of_turn (ds : List Deed) (ps : List Promise) :
    deeds (ds.map .does ++ ps.map .promises) = ds ∧
      promises (ds.map .does ++ ps.map .promises) = ps ∧
      requests (ds.map .does ++ ps.map .promises) = [] ∧
      ∀ i, posted i (ds.map .does ++ ps.map .promises) = 0 ∧
        sent i (ds.map .does ++ ps.map .promises) = [] := by
  have hdeeds : deeds (ds.map .does) = ds := by
    induction ds with
    | nil => rfl
    | cons d ds ih => exact congrArg (d :: ·) ih
  have hpromises : promises (ps.map .promises) = ps := by
    induction ps with
    | nil => rfl
    | cons p ps ih => exact congrArg (p :: ·) ih
  refine ⟨?_, ?_, ?_, fun i => ⟨?_, ?_⟩⟩
  · rw [deeds_append, hdeeds]
    simp [deeds, Act.deeds]
  · rw [promises_append, hpromises]
    simp [promises, Act.promised]
  · simp [requests, Act.requests]
  · simp [posted, Act.isPost, Function.comp_def]
  · simp [sent, Act.sent]

structure Agrees (c : Client) (as : List Act) (s : Scene) : Prop where
  tracked : Tracked (deeds as) s.world
  base_eq : s.client.base = c.base
  promises_eq : s.futures.map Future.promise = promises as
  sublist : ((promises as).map Promise.registration).Sublist (registrations (deeds as)).successful
  stands : ∀ i (f : Future), s.futures[i]? = some f → f.stage.Stands (endpoint c.base Path.subscribe)
    f.promise.subscription.body (posted i as) (sent i as)
  idle : ∀ i, s.futures.length ≤ i → posted i as = 0 ∧ sent i as = []
  received_eq : s.client.agent.received = c.agent.received ++ requests as

theorem poll?_eq_some_iff {s s' : Scene} {i : ℕ} {acts : List Act} :
    s.poll? i = some (acts, s') ↔ ∃ f client stage, s.futures[i]? = some f ∧
      Stage.Step i f.promise.subscription s.client f.stage acts client stage ∧
        s' = { s with client, futures := s.futures.set i { f with stage } } := by
  unfold Scene.poll?
  cases hf : s.futures[i]? with
  | none => simp
  | some f =>
    cases hs : f.stage.step? i f.promise.subscription s.client with
    | none => simp [hs, ← Stage.step?_eq_some_iff]
    | some p => simp [hs, ← Stage.step?_eq_some_iff, Prod.ext_iff, eq_comm, and_assoc]

theorem map_promise_set {futures : List Future} {i : ℕ} {f : Future}
    (hf : futures[i]? = some f) (stage : Stage) :
    (futures.set i { f with stage }).map Future.promise = futures.map Future.promise := by
  obtain ⟨hi, rfl⟩ := List.getElem?_eq_some_iff.1 hf
  apply List.ext_getElem?
  intro j
  rw [List.getElem?_map, List.getElem?_map]
  by_cases hj : i = j
  · subst hj
    rw [List.getElem?_set_self hi, List.getElem?_eq_getElem hi]
    rfl
  · rw [List.getElem?_set_ne hj]

namespace Agrees

variable {c : Client} {as : List Act} {s : Scene}

theorem start (hc : c.delivery = { registry := .empty }) : Agrees c [] { client := c } where
  tracked := by
    have hworld : Scene.world { client := c } = { delivery := { registry := .empty } } := by
      rw [Scene.world, hc]
    rw [hworld]
    exact .start
  base_eq := rfl
  promises_eq := rfl
  sublist := .slnil
  stands i f hf := by simp at hf
  idle _ _ := ⟨rfl, rfl⟩
  received_eq := (List.append_nil _).symm

theorem promised_sublist (h : Agrees c as s) (m : Delivery.Move) :
    ((s.promised m).map Promise.registration).Sublist
      (registrations (s.world.move m).1).successful := by
  cases m with
  | register key handler => exact List.nil_sublist _
  | start batch => exact List.nil_sublist _
  | subscribe key authLevel handler =>
    have htries := h.tracked.kept.subscribe key authLevel handler
    simp only [Scene.promised]
    cases hd : s.client.delivery.subscribe key authLevel handler with
    | error d => exact List.nil_sublist _
    | ok d =>
      have hd' : s.world.delivery.subscribe key authLevel handler = .ok d := hd
      rw [hd'] at htries
      have heq : (registrations (s.world.move (.subscribe key authLevel handler)).1).successful =
        [(key, handler)] := successful_of_allUsable htries.all_kept.1
      rw [heq]
      exact List.Sublist.refl _
  | proceed i =>
    simp only [Scene.promised]
    split
    · next e handlers name followUps rest waiting invoked ht =>
      have hmade := h.tracked.kept.promised_sublist followUps
      rw [World.move_proceed_of_within ht, registrations, List.flatMap_singleton]
      exact hmade
    · exact List.nil_sublist _

theorem turn (h : Agrees c as s) (m : Delivery.Move) :
    Agrees c (as ++ (s.move (.turn m)).1) (s.move (.turn m)).2 := by
  have hlast := h.promised_sublist m
  have htracked := h.tracked.move m
  rw [Scene.move]
  generalize s.promised m = ps at hlast ⊢
  generalize s.world.move m = p at hlast htracked ⊢
  obtain ⟨ds, w⟩ := p
  obtain ⟨hdeeds, hpromises, hrequests, hacts⟩ := acts_of_turn ds ps
  refine ⟨?_, h.base_eq, ?_, ?_, ?_, ?_, ?_⟩
  · rw [deeds_append, hdeeds]
    exact htracked
  · rw [promises_append, hpromises, List.map_append, h.promises_eq, List.map_map]
    exact congrArg _ (List.map_id ps)
  · rw [promises_append, hpromises, deeds_append, hdeeds, registrations, List.flatMap_append,
      successful_append, List.map_append]
    exact h.sublist.append hlast
  · intro i f hf
    rw [posted_append, sent_append, (hacts i).1, (hacts i).2, List.append_nil, Nat.add_zero]
    by_cases hi : i < s.futures.length
    · rw [List.getElem?_append_left hi] at hf
      exact h.stands i f hf
    · -- The new future has not been polled yet.
      obtain ⟨hposted, hsent⟩ := h.idle i (Nat.not_lt.1 hi)
      rw [List.getElem?_append_right (Nat.not_lt.1 hi), List.getElem?_map] at hf
      obtain ⟨p, _, rfl⟩ := Option.map_eq_some_iff.1 hf
      rw [hposted, hsent]
      exact .fresh
  · intro i hi
    rw [List.length_append] at hi
    rw [posted_append, sent_append, (hacts i).1, (hacts i).2, List.append_nil, Nat.add_zero]
    exact h.idle i (by omega)
  · rw [requests_append, hrequests, List.append_nil]
    exact h.received_eq

theorem poll (h : Agrees c as s) {i : ℕ} {acts : List Act} {s' : Scene}
    (hp : s.poll? i = some (acts, s')) : Agrees c (as ++ acts) s' := by
  obtain ⟨f, client, stage, hf, hs, rfl⟩ := poll?_eq_some_iff.1 hp
  obtain ⟨agent, records, hnote, hreceived, hsource⟩ := hs.exists_note
  obtain ⟨hdeeds, hpromises, hothers⟩ := hs.of_ne
  obtain ⟨hi, _⟩ := List.getElem?_eq_some_iff.1 hf
  subst hnote
  refine ⟨?_, h.base_eq, ?_, ?_, ?_, ?_, ?_⟩
  · rw [deeds_append, hdeeds, List.append_nil]
    exact h.tracked.notes hsource
  · rw [promises_append, hpromises, List.append_nil, ← h.promises_eq]
    exact map_promise_set hf stage
  · rw [promises_append, hpromises, deeds_append, hdeeds, List.append_nil, List.append_nil]
    exact h.sublist
  · intro j f' hf'
    rw [posted_append, sent_append]
    by_cases hj : j = i
    · subst hj
      rw [List.getElem?_set_self hi] at hf'
      cases hf'
      have hstands := h.stands j f hf
      rw [← h.base_eq] at hstands ⊢
      exact hstands.step hs
    · obtain ⟨hposted, hsent⟩ := hothers j hj
      rw [List.getElem?_set_ne (Ne.symm hj)] at hf'
      rw [hposted, hsent, List.append_nil, Nat.add_zero]
      exact h.stands j f' hf'
  · intro j hj
    rw [List.length_set] at hj
    obtain ⟨hposted, hsent⟩ := hothers j (by omega)
    rw [posted_append, sent_append, hposted, hsent, List.append_nil, Nat.add_zero]
    exact h.idle j hj
  · rw [requests_append, ← List.append_assoc, ← h.received_eq]
    exact hreceived

theorem drop (h : Agrees c as s) (i : ℕ) :
    Agrees c as
      { s with futures := s.futures.modify i fun f => { f with stage := .dropped } } where
  tracked := h.tracked
  base_eq := h.base_eq
  promises_eq := by
    rw [← h.promises_eq]
    apply List.ext_getElem?
    intro j
    rw [List.getElem?_map, List.getElem?_map, List.getElem?_modify]
    cases s.futures[j]? with
    | none => rfl
    | some f => by_cases hj : i = j <;> simp [hj]
  sublist := h.sublist
  stands j f hf := by
    rw [List.getElem?_modify] at hf
    obtain ⟨f', hf', rfl⟩ := Option.map_eq_some_iff.1 hf
    split_ifs
    · exact (h.stands j f' hf').dropped
    · exact h.stands j f' hf'
  idle j hj := h.idle j (by rwa [List.length_modify] at hj)
  received_eq := h.received_eq

theorem move (h : Agrees c as s) (m : Move) : Agrees c (as ++ (s.move m).1) (s.move m).2 := by
  cases m with
  | turn m => exact h.turn m
  | poll i =>
    rw [Scene.move]
    cases hp : s.poll? i with
    | none =>
      simp only [List.append_nil]
      exact h
    | some p => exact h.poll hp
  | drop i =>
    rw [Scene.move, List.append_nil]
    exact h.drop i

theorem others (h : Agrees c as s) {agent : Http.Agent} {received : List Received}
    (hr : agent.received = s.client.agent.received ++ received) :
    Agrees c (as ++ [.others received]) { s with client := { s.client with agent } } where
  tracked := by
    rw [deeds_append]
    exact (List.append_nil (deeds as)).symm ▸ h.tracked
  base_eq := h.base_eq
  promises_eq := by
    rw [promises_append]
    exact h.promises_eq.trans (List.append_nil _).symm
  sublist := by
    rw [promises_append, deeds_append]
    exact (List.append_nil (promises as)).symm ▸ (List.append_nil (deeds as)).symm ▸ h.sublist
  stands i f hf := by
    rw [posted_append, sent_append]
    exact (List.append_nil (sent i as)).symm ▸ h.stands i f hf
  idle i hi := by
    rw [posted_append, sent_append, (h.idle i hi).1, (h.idle i hi).2]
    exact ⟨rfl, rfl⟩
  received_eq := by
    rw [requests_append, ← List.append_assoc, ← h.received_eq]
    exact hr.trans (congrArg _ (List.append_nil received).symm)

end Agrees

theorem Unfolds.agrees {c : Client} {as as' : List Act} {s s' : Scene} (h : Unfolds as s as' s')
    (hs : Agrees c as s) : Agrees c as' s' := by
  induction h with
  | refl => exact hs
  | move _ m ih => exact ih.move m
  | logged _ hr hw ih =>
    exact ⟨ih.tracked.logged hr hw, ih.base_eq, ih.promises_eq, ih.sublist, ih.stands, ih.idle,
      ih.received_eq⟩
  | rehashed _ hp ih =>
    exact ⟨ih.tracked.rehashed hp, ih.base_eq, ih.promises_eq, ih.sublist, ih.stands, ih.idle,
      ih.received_eq⟩
  | others _ hr ih => exact ih.others hr

end Announcing

end TopicClient
