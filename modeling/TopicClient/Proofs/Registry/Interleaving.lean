import Mathlib.Algebra.GroupWithZero.Nat
import TopicClient.Proofs.Registry.Recording

/-!
# Overlapping dispatches

The copies of a client share one registry, and any number of them may be in the middle of a
dispatch, each of a batch of its own. A `Task` is such a dispatch. It takes one step at a time: it
looks up the handlers of its next event, or it makes one call. `Interleaves` are the runs in which
the steps of all tasks and registrations from outside follow each other in any order, with the deeds
done. Taken alone, the steps of a task are a dispatch (`Task.Step.outcome_eq`). In company each task
still calls what it has looked up, all of it and nothing else: `orderly_of_interleaves`.
-/

namespace TopicClient.Delivery

open Ledger

inductive Task where
  /-- It stands between two turns, or is over when no event waits. The number counts the calls of the
  turns before. -/
  | between (waiting : List Event) (invoked : ℕ)
  /-- It is in the turn of an event, for which handlers have been looked up. The next of them, and
  then the rest, are still to be called. -/
  | within (event : Event) (handlers : List Handler) (next : Handler) (rest : List Handler)
    (waiting : List Event) (invoked : ℕ)
  /-- A handler has failed. -/
  | broken

/-- Something that is done in a run, by the task of a number where it is a step of one. -/
inductive Deed where
  | registers (key : String) (handler : Handler)
  | begins (batch : List Event)
  | looks (task : ℕ) (event : Event) (handlers : List Handler)
  | calls (task : ℕ) (event : Event) (handler : Handler)

namespace Task

def ofBatch (batch : List Event) : Task := .between batch.reverse 0

/-- A turn in which the rest of the handlers is still to be called. When nothing is left it is over,
and its calls count. -/
def resume (e : Event) (handlers rest : List Handler) (waiting : List Event) (invoked : ℕ) : Task :=
  match rest with
  | [] => .between waiting (invoked + handlers.length)
  | next :: rest => .within e handlers next rest waiting invoked

/-- The next step of a task: what it does, and what becomes of the delivery and of the task. -/
def step? (i : ℕ) (d : Delivery) : Task → Option (Deed × Delivery × Task)
  | .between [] _ => none
  | .between (e :: waiting) invoked =>
    let handlers := d.registry.order e.topic
    let d := if handlers.isEmpty then d.log (unhandled e.topic) else d
    some (.looks i e handlers, d, .resume e handlers handlers waiting invoked)
  | .within e handlers next rest waiting invoked =>
    match d.call e next with
    | .ok d => some (.calls i e next, d, .resume e handlers rest waiting invoked)
    | .error d => some (.calls i e next, d, .broken)
  | .broken => none

inductive Step (i : ℕ) (d : Delivery) : Task → Deed → Delivery → Task → Prop
  | looks {e : Event} {waiting : List Event} {invoked : ℕ} :
      Step i d (.between (e :: waiting) invoked) (.looks i e (d.registry.order e.topic))
        (if (d.registry.order e.topic).isEmpty then d.log (unhandled e.topic) else d)
        (.resume e (d.registry.order e.topic) (d.registry.order e.topic) waiting invoked)
  | calls {d' : Delivery} {e : Event} {handlers rest : List Handler} {next : Handler}
      {waiting : List Event} {invoked : ℕ} (hc : d.call e next = .ok d') :
      Step i d (.within e handlers next rest waiting invoked) (.calls i e next) d'
        (.resume e handlers rest waiting invoked)
  | fails {d' : Delivery} {e : Event} {handlers rest : List Handler} {next : Handler}
      {waiting : List Event} {invoked : ℕ} (hc : d.call e next = .error d') :
      Step i d (.within e handlers next rest waiting invoked) (.calls i e next) d' .broken

theorem step_of_step? {i : ℕ} {d d' : Delivery} {t t' : Task} {deed : Deed}
    (h : t.step? i d = some (deed, d', t')) : Step i d t deed d' t' := by
  cases t with
  | broken => cases h
  | between waiting invoked =>
    cases waiting with
    | nil => cases h
    | cons e waiting =>
      cases h
      exact .looks
  | within e handlers next rest waiting invoked =>
    rw [step?] at h
    cases hc : d.call e next with
    | ok d₁ =>
      rw [hc] at h
      cases h
      exact .calls hc
    | error d₁ =>
      rw [hc] at h
      cases h
      exact .fails hc

/-- What a task comes to when nothing comes in between any more. -/
def outcome (d : Delivery) : Task → Except Delivery (Delivery × ℕ)
  | .between waiting invoked => do
    let (d, n) ← d.deliverAll waiting
    return (d, invoked + n)
  | .within e handlers next rest waiting invoked => do
    let d ← (next :: rest).foldlM (fun d h => d.call e h) d
    let (d, n) ← d.deliverAll waiting
    return (d, invoked + handlers.length + n)
  | .broken => .error d

def ofOutcome : Except Delivery (Delivery × ℕ) → Delivery × Task
  | .ok (d, n) => (d, .between [] n)
  | .error d => (d, .broken)

theorem outcome_ofBatch (d : Delivery) (batch : List Event) :
    (ofBatch batch).outcome d = d.dispatch batch := by
  rw [ofBatch, outcome, dispatch]
  cases d.deliverAll batch.reverse with
  | ok p => exact congrArg (fun n => Except.ok (p.1, n)) (Nat.zero_add p.2)
  | error d' => rfl

theorem outcome_resume (d : Delivery) (e : Event) (handlers rest : List Handler)
    (waiting : List Event) (invoked : ℕ) :
    (resume e handlers rest waiting invoked).outcome d = (do
      let d ← rest.foldlM (fun d h => d.call e h) d
      let (d, n) ← d.deliverAll waiting
      return (d, invoked + handlers.length + n)) := by
  cases rest with
  | nil => rfl
  | cons next rest => rfl

/-- The turn of an event is a look at the registry followed by the calls. -/
theorem deliver_eq (d : Delivery) (e : Event) :
    d.deliver e = (do
      let d' ← (d.registry.order e.topic).foldlM (fun d h => d.call e h)
        (if (d.registry.order e.topic).isEmpty then d.log (unhandled e.topic) else d)
      return (d', (d.registry.order e.topic).length)) := by
  rw [deliver]
  cases d.registry.order e.topic with
  | nil => rfl
  | cons h hs => rfl

/-- A step taken alone is a part of the dispatch. -/
theorem Step.outcome_eq {i : ℕ} {d d' : Delivery} {t t' : Task} {deed : Deed}
    (h : Step i d t deed d' t') : t'.outcome d' = t.outcome d := by
  cases h with
  | looks =>
    rw [outcome_resume, outcome, deliverAll, deliver_eq]
    simp only [bind_assoc, pure_bind, Nat.add_assoc]
  | calls hc =>
    rw [outcome_resume, outcome, List.foldlM_cons, hc]
    rfl
  | fails hc =>
    rw [outcome, outcome, List.foldlM_cons, hc]
    rfl

theorem eq_ofOutcome_of_step?_eq_none {i : ℕ} {d : Delivery} {t : Task}
    (h : t.step? i d = none) : ofOutcome (t.outcome d) = (d, t) := by
  cases t with
  | broken => rfl
  | between waiting invoked =>
    cases waiting with
    | nil => rfl
    | cons e waiting => cases h
  | within e handlers next rest waiting invoked =>
    rw [step?] at h
    cases hd : d.call e next with
    | ok d₁ => rw [hd] at h; cases h
    | error d₁ => rw [hd] at h; cases h

end Task

abbrev Lookups := List (Event × List Handler)

namespace Lookups

def due (turns : Lookups) : List (Event × Handler) := turns.flatMap fun t => t.2.map (t.1, ·)

def total (turns : Lookups) : ℕ := (turns.map fun t => t.2.length).sum

theorem due_concat (turns : Lookups) (e : Event) (handlers : List Handler) :
    due (turns ++ [(e, handlers)]) = turns.due ++ handlers.map (e, ·) := by
  simp only [due, List.flatMap_append, List.flatMap_singleton]

theorem total_concat (turns : Lookups) (e : Event) (handlers : List Handler) :
    total (turns ++ [(e, handlers)]) = turns.total + handlers.length := by
  simp only [total, List.map_append, List.sum_append, List.map_singleton, List.sum_singleton]

end Lookups

open Lookups

namespace Deed

def lookups (i : ℕ) : Deed → Lookups
  | looks j e handlers => if j = i then [(e, handlers)] else []
  | _ => []

def callsOf (i : ℕ) : Deed → List (Event × Handler)
  | calls j e h => if j = i then [(e, h)] else []
  | _ => []

def batches : Deed → List (List Event)
  | begins batch => [batch]
  | _ => []

def attempts : Deed → Ledger Handler
  | registers key h => [(key, h)]
  | calls _ _ h => h.made.tried
  | _ => []

def records : Deed → List Call
  | calls _ e h => h.calls e
  | _ => []

def lines : Deed → List Log.Record
  | calls _ e h => h.lines e
  | _ => []

end Deed

/-- How far the dispatch of a batch has come when it has made these lookups and these calls. The
events of its lookups are those of the batch from the last one on; the calls are those of the
lookups in their order, all of them up to the present turn and the first ones in it. -/
inductive Task.Follows (batch : List Event) : Lookups → List (Event × Handler) → Task → Prop
  | between {turns : Lookups} {waiting : List Event}
      (hb : turns.map Prod.fst ++ waiting = batch.reverse) :
      Follows batch turns turns.due (.between waiting turns.total)
  | within {turns : Lookups} {e : Event} {done : List Handler} {next : Handler}
      {rest : List Handler} {waiting : List Event}
      (hb : turns.map Prod.fst ++ e :: waiting = batch.reverse) :
      Follows batch (turns ++ [(e, done ++ next :: rest)]) (turns.due ++ done.map (e, ·))
        (.within e (done ++ next :: rest) next rest waiting turns.total)
  /-- Only a handler that registers an unusable key breaks a dispatch off, at its own call. -/
  | broken {turns : Lookups} {e : Event} {done : List Handler} {last : Handler}
      {rest : List Handler} {waiting : List Event}
      (hb : turns.map Prod.fst ++ e :: waiting = batch.reverse) (hl : ¬ AllUsable last.made) :
      Follows batch (turns ++ [(e, done ++ last :: rest)])
        (turns.due ++ (done ++ [last]).map (e, ·)) .broken

namespace Task

theorem follows_resume {batch : List Event} {turns : Lookups} {e : Event} {waiting : List Event}
    (hb : turns.map Prod.fst ++ e :: waiting = batch.reverse) (done rest : List Handler) :
    Follows batch (turns ++ [(e, done ++ rest)]) (turns.due ++ done.map (e, ·))
      (.resume e (done ++ rest) rest waiting turns.total) := by
  cases rest with
  | nil =>
    rw [resume, List.append_nil, ← due_concat, ← total_concat]
    refine .between ?_
    rw [List.map_append, List.append_assoc]
    exact hb
  | cons next rest => exact .within hb

section Steps

variable {i : ℕ} {d d' : Delivery} {t t' : Task} {deed : Deed} {as : Ledger Handler}

/-- A step of a task goes on with its dispatch. -/
theorem Step.follows {batch : List Event} {turns : Lookups} {calls : List (Event × Handler)}
    (h : Step i d t deed d' t') (hd : Kept as d) (hf : Follows batch turns calls t) :
    Follows batch (turns ++ deed.lookups i) (calls ++ deed.callsOf i) t' := by
  cases h with
  | looks =>
    cases hf with
    | between hb =>
      simp only [Deed.lookups, Deed.callsOf, if_true]
      exact follows_resume hb [] _
  | @calls _ e _ rest next _ _ hc =>
    cases hf with
    | @within turns _ done _ _ _ hb =>
      have hresume := follows_resume hb (done ++ [next]) rest
      simpa [Deed.lookups, Deed.callsOf] using hresume
  | @fails _ e _ rest next _ _ hc =>
    cases hf with
    | @within turns _ done _ _ _ hb =>
      have hl : ¬ AllUsable next.made := (hc ▸ hd.call e next).not_allUsable
      have hbroken : Follows batch (turns ++ [(e, done ++ next :: rest)])
          (turns.due ++ (done ++ [next]).map (e, ·)) .broken := .broken hb hl
      simpa [Deed.lookups, Deed.callsOf] using hbroken

theorem Step.kept (h : Step i d t deed d' t') (hd : Kept as d) : Kept (as ++ deed.attempts) d' := by
  cases h with
  | looks =>
    change Kept (as ++ []) _
    rw [List.append_nil]
    split_ifs
    · exact hd.log (not_warnsOf_of_message (by simp [unhandled]))
    · exact hd
  | @calls d' e _ _ next _ _ hc =>
    have hcall := (hd.call e next).kept
    rwa [hc] at hcall
  | @fails d' e _ _ next _ _ hc =>
    have hcall := (hd.call e next).kept
    rwa [hc] at hcall

theorem Step.records (h : Step i d t deed d' t') : Records d d' deed.records deed.lines := by
  cases h with
  | looks =>
    split_ifs
    · exact (Records.refl d).log nofun
    · exact .refl d
  | @calls d' e _ _ next _ _ hc =>
    have hcall := records_call d e next
    rwa [hc] at hcall
  | @fails d' e _ _ next _ _ hc =>
    have hcall := records_call d e next
    rwa [hc] at hcall

theorem Step.of_ne (h : Step i d t deed d' t') {j : ℕ} (hj : j ≠ i) :
    deed.lookups j = [] ∧ deed.callsOf j = [] := by
  cases h with
  | looks => exact ⟨if_neg hj.symm, rfl⟩
  | calls hc => exact ⟨rfl, if_neg hj.symm⟩
  | fails hc => exact ⟨rfl, if_neg hj.symm⟩

theorem Step.batches_eq (h : Step i d t deed d' t') : deed.batches = [] := by
  cases h with
  | looks => rfl
  | calls hc => rfl
  | fails hc => rfl

end Steps

end Task

structure World where
  delivery : Delivery
  tasks : List Task := []

/-- Who is next: a registration from outside, at the registry or through a client, a dispatch that
begins, or the task of a number. -/
inductive Move where
  | register (key : String) (handler : Handler)
  | subscribe (key : String) (authLevel : UInt8) (handler : Handler)
  | start (batch : List Event)
  | proceed (task : ℕ)

namespace World

def proceed? (w : World) (i : ℕ) : Option (Deed × World) := do
  let t ← w.tasks[i]?
  let (deed, delivery, t) ← t.step? i w.delivery
  return (deed, { delivery, tasks := w.tasks.set i t })

/-- What is done in a move, and what it leaves. A task that is over does nothing. -/
def move (w : World) : Move → List Deed × World
  | .register key handler =>
    ([.registers key handler], { w with delivery := left (w.delivery.register key handler) })
  | .subscribe key authLevel handler =>
    ([.registers key handler],
      { w with delivery := left (w.delivery.subscribe key authLevel handler) })
  | .start batch => ([.begins batch], { w with tasks := w.tasks ++ [.ofBatch batch] })
  | .proceed i =>
    match w.proceed? i with
    | some (deed, w) => ([deed], w)
    | none => ([], w)

theorem proceed?_eq_some_iff {w w' : World} {i : ℕ} {deed : Deed} :
    w.proceed? i = some (deed, w') ↔
      ∃ t d t', w.tasks[i]? = some t ∧ t.step? i w.delivery = some (deed, d, t') ∧
        w' = ⟨d, w.tasks.set i t'⟩ := by
  unfold proceed?
  cases ht : w.tasks[i]? with
  | none => simp
  | some t =>
    cases hs : t.step? i w.delivery with
    | none => simp [hs]
    | some p => simp [hs, Prod.ext_iff, eq_comm]

end World

/-- The runs from a world on, with the deeds done so far. Between two moves other parts of the
program may log something, and the entries of the registry may change their places. -/
inductive Interleaves (ds : List Deed) (w : World) : List Deed → World → Prop
  | refl : Interleaves ds w ds w
  | move {ds' : List Deed} {w' : World} (h : Interleaves ds w ds' w') (m : Move) :
      Interleaves ds w (ds' ++ (w'.move m).1) (w'.move m).2
  | logged {ds' : List Deed} {w' : World} (h : Interleaves ds w ds' w') {r : Log.Record}
      (hr : r.source ≠ .polling) (hw : ∀ key, ¬ Registry.WarnsOf key r) :
      Interleaves ds w ds' { w' with delivery := w'.delivery.log r }
  | rehashed {ds' : List Deed} {w' : World} (h : Interleaves ds w ds' w')
      {registry : Registry Handler} (hp : registry.entries.Perm w'.delivery.registry.entries) :
      Interleaves ds w ds' { w' with delivery := { w'.delivery with registry } }

def registrations (ds : List Deed) : Ledger Handler := ds.flatMap Deed.attempts

def batches (ds : List Deed) : List (List Event) := ds.flatMap Deed.batches

def lookups (i : ℕ) (ds : List Deed) : Lookups := ds.flatMap (Deed.lookups i)

def callsOf (i : ℕ) (ds : List Deed) : List (Event × Handler) := ds.flatMap (Deed.callsOf i)

/-- A lookup finds the handlers of all registrations made before it that receive the event, and of
no others. By then the task has made the calls of its earlier lookups. -/
def Finds (before : List Deed) : Deed → Prop
  | .looks i e handlers =>
    handlers = (registrations before).successful.order e.topic ∧
      callsOf i before = (lookups i before).due
  | _ => True

structure Tracked (ds : List Deed) (w : World) : Prop where
  kept : Kept (registrations ds) w.delivery
  length_eq : (batches ds).length = w.tasks.length
  follows : ∀ i t batch, w.tasks[i]? = some t → (batches ds)[i]? = some batch →
    Task.Follows batch (lookups i ds) (callsOf i ds) t
  idle : ∀ i, w.tasks.length ≤ i → lookups i ds = [] ∧ callsOf i ds = []
  finds : ∀ before deed after, ds = before ++ deed :: after → Finds before deed
  records : Records { registry := .empty } w.delivery (ds.flatMap Deed.records)
    (ds.flatMap Deed.lines)

theorem finds_concat {ds : List Deed} {deed : Deed}
    (h : ∀ before deed after, ds = before ++ deed :: after → Finds before deed)
    (hd : Finds ds deed) (before : List Deed) (x : Deed) (after : List Deed)
    (heq : ds ++ [deed] = before ++ x :: after) : Finds before x := by
  rcases List.eq_nil_or_concat after with rfl | ⟨after, y, rfl⟩
  · obtain ⟨rfl, hx⟩ := List.append_inj' heq rfl
    cases hx
    exact hd
  · rw [List.concat_eq_append, ← List.cons_append, ← List.append_assoc] at heq
    exact h before x after (List.append_inj' heq rfl).1

namespace Tracked

variable {ds : List Deed} {w : World}

theorem start : Tracked [] { delivery := { registry := .empty } } where
  kept := kept_empty
  length_eq := rfl
  follows i t batch ht := by simp at ht
  idle i _ := ⟨rfl, rfl⟩
  finds before deed after h := by simp at h
  records := .refl _

theorem registers (h : Tracked ds w) {d : Delivery} {key : String} {handler : Handler}
    (hk : Kept (registrations ds ++ [(key, handler)]) d) (hr : Records w.delivery d [] []) :
    Tracked (ds ++ [.registers key handler]) { w with delivery := d } where
  kept := by rwa [registrations, List.flatMap_append]
  length_eq := by
    rw [← h.length_eq, batches, List.flatMap_append]
    simp [Deed.batches, batches]
  follows i t batch ht hb := by
    have hf := h.follows i t batch ht (by simpa [batches, Deed.batches] using hb)
    simpa [lookups, callsOf, Deed.lookups, Deed.callsOf] using hf
  idle i hi := by simpa [lookups, callsOf, Deed.lookups, Deed.callsOf] using h.idle i hi
  finds := finds_concat h.finds trivial
  records := by simpa [Deed.records, Deed.lines] using h.records.trans hr

theorem starts (h : Tracked ds w) (batch : List Event) :
    Tracked (ds ++ [.begins batch]) { w with tasks := w.tasks ++ [.ofBatch batch] } where
  kept := by simpa [registrations, Deed.attempts] using h.kept
  length_eq := by simp [batches, Deed.batches, ← h.length_eq]
  follows i t batch' ht hb := by
    have hsame : lookups i (ds ++ [.begins batch]) = lookups i ds ∧
        callsOf i (ds ++ [.begins batch]) = callsOf i ds := by
      simp [lookups, callsOf, Deed.lookups, Deed.callsOf]
    have hbatches : batches (ds ++ [.begins batch]) = batches ds ++ [batch] := by
      simp [batches, Deed.batches]
    rw [hsame.1, hsame.2]
    rw [hbatches] at hb
    rcases Nat.lt_trichotomy i w.tasks.length with hi | rfl | hi
    · rw [List.getElem?_append_left hi] at ht
      rw [List.getElem?_append_left (h.length_eq ▸ hi)] at hb
      exact h.follows i t batch' ht hb
    · -- The new task has done nothing yet.
      rw [List.getElem?_concat_length] at ht
      rw [← h.length_eq, List.getElem?_concat_length] at hb
      cases ht
      cases hb
      obtain ⟨hlookups, hcalls⟩ := h.idle w.tasks.length (Nat.le_refl _)
      rw [hlookups, hcalls]
      exact .between (List.nil_append _)
    · rw [List.getElem?_eq_none (by simpa using Nat.succ_le_of_lt hi)] at ht
      cases ht
  idle i hi := by
    have hi' : w.tasks.length ≤ i := by
      rw [List.length_append] at hi
      omega
    simpa [lookups, callsOf, Deed.lookups, Deed.callsOf] using h.idle i hi'
  finds := finds_concat h.finds trivial
  records := by simpa [Deed.records, Deed.lines] using h.records

/-- A task follows the batch of its number. -/
theorem exists_follows (h : Tracked ds w) {i : ℕ} {t : Task} (ht : w.tasks[i]? = some t) :
    ∃ batch, (batches ds)[i]? = some batch ∧ t.Follows batch (lookups i ds) (callsOf i ds) := by
  obtain ⟨hi, _⟩ := List.getElem?_eq_some_iff.1 ht
  obtain ⟨batch, hb⟩ : ∃ batch, (batches ds)[i]? = some batch :=
    ⟨_, List.getElem?_eq_getElem (h.length_eq ▸ hi)⟩
  exact ⟨batch, hb, h.follows i t batch ht hb⟩

/-- What a task finds when it takes a step. -/
theorem finds_step (h : Tracked ds w) {i : ℕ} {t t' : Task} {deed : Deed} {d : Delivery}
    (ht : w.tasks[i]? = some t) (hs : t.Step i w.delivery deed d t') : Finds ds deed := by
  obtain ⟨batch, hb, hf⟩ := h.exists_follows ht
  cases hs with
  | looks =>
    refine ⟨h.kept.built.order_eq _, ?_⟩
    generalize lookups i ds = turns, callsOf i ds = calls at hf
    cases hf with
    | between hb => rfl
  | calls hc => trivial
  | fails hc => trivial

theorem proceeds (h : Tracked ds w) {i : ℕ} {t t' : Task} {deed : Deed} {d : Delivery}
    (ht : w.tasks[i]? = some t) (hs : t.Step i w.delivery deed d t') :
    Tracked (ds ++ [deed]) ⟨d, w.tasks.set i t'⟩ where
  kept := by
    rw [registrations, List.flatMap_append, List.flatMap_singleton]
    exact hs.kept h.kept
  length_eq := by
    rw [List.length_set, ← h.length_eq, batches, List.flatMap_append, List.flatMap_singleton,
      hs.batches_eq, List.append_nil, batches]
  follows j u batch hu hb := by
    have hb' : (batches ds)[j]? = some batch := by
      rwa [batches, List.flatMap_append, List.flatMap_singleton, hs.batches_eq,
        List.append_nil] at hb
    rw [lookups, callsOf, List.flatMap_append, List.flatMap_append, List.flatMap_singleton,
      List.flatMap_singleton]
    by_cases hj : j = i
    · subst hj
      obtain ⟨hi, _⟩ := List.getElem?_eq_some_iff.1 ht
      rw [List.getElem?_set_self hi] at hu
      cases hu
      exact hs.follows h.kept (h.follows j t batch ht hb')
    · obtain ⟨hlookups, hcalls⟩ := hs.of_ne hj
      rw [List.getElem?_set_ne (Ne.symm hj)] at hu
      rw [hlookups, hcalls, List.append_nil, List.append_nil]
      exact h.follows j u batch hu hb'
  idle j hj := by
    rw [List.length_set] at hj
    obtain ⟨hi, _⟩ := List.getElem?_eq_some_iff.1 ht
    obtain ⟨hlookups, hcalls⟩ := hs.of_ne (show j ≠ i by omega)
    rw [lookups, callsOf, List.flatMap_append, List.flatMap_append, List.flatMap_singleton,
      List.flatMap_singleton, hlookups, hcalls, List.append_nil, List.append_nil]
    exact h.idle j hj
  finds := finds_concat h.finds (h.finds_step ht hs)
  records := by
    rw [List.flatMap_append, List.flatMap_append, List.flatMap_singleton, List.flatMap_singleton]
    exact h.records.trans hs.records

theorem logged (h : Tracked ds w) {r : Log.Record} (hr : r.source ≠ .polling)
    (hw : ∀ key, ¬ Registry.WarnsOf key r) :
    Tracked ds { w with delivery := w.delivery.log r } where
  kept := h.kept.log hw
  length_eq := h.length_eq
  follows := h.follows
  idle := h.idle
  finds := h.finds
  records := h.records.log hr

theorem rehashed (h : Tracked ds w) {registry : Registry Handler}
    (hp : registry.entries.Perm w.delivery.registry.entries) :
    Tracked ds { w with delivery := { w.delivery with registry } } where
  kept := ⟨h.kept.built.rehashed hp, h.kept.warnings_eq⟩
  length_eq := h.length_eq
  follows := h.follows
  idle := h.idle
  finds := h.finds
  records := ⟨h.records.calls_eq, h.records.lines_eq⟩

theorem move (h : Tracked ds w) (m : Move) : Tracked (ds ++ (w.move m).1) (w.move m).2 := by
  cases m with
  | register key handler =>
    have hkept := (h.kept.register key handler).kept
    rw [tried_singleton] at hkept
    exact h.registers hkept (records_register _ _ _)
  | subscribe key authLevel handler =>
    have hkept := (h.kept.subscribe key authLevel handler).kept
    rw [tried_singleton] at hkept
    exact h.registers hkept (records_subscribe _ _ _ _)
  | start batch => exact h.starts batch
  | proceed i =>
    rw [World.move]
    cases hp : w.proceed? i with
    | none =>
      simp only [List.append_nil]
      exact h
    | some p =>
      obtain ⟨t, d, t', ht, hs, hw⟩ := World.proceed?_eq_some_iff.1 hp
      simp only [hw]
      exact h.proceeds ht (Task.step_of_step? hs)

end Tracked

theorem Interleaves.tracked {ds ds' : List Deed} {w w' : World} (h : Interleaves ds w ds' w')
    (hw : Tracked ds w) : (∃ more, ds' = ds ++ more) ∧ Tracked ds' w' := by
  induction h with
  | refl => exact ⟨⟨[], (List.append_nil ds).symm⟩, hw⟩
  | move _ m ih =>
    obtain ⟨⟨more, rfl⟩, htracked⟩ := ih
    exact ⟨⟨_, List.append_assoc _ _ _⟩, htracked.move m⟩
  | logged _ hr hn ih => exact ⟨ih.1, ih.2.logged hr hn⟩
  | rehashed _ hp ih => exact ⟨ih.1, ih.2.rehashed hp⟩

theorem Interleaves.trans {ds ds' ds'' : List Deed} {w w' w'' : World}
    (h : Interleaves ds w ds' w') (h' : Interleaves ds' w' ds'' w'') :
    Interleaves ds w ds'' w'' := by
  induction h' with
  | refl => exact h
  | move _ m ih => exact ih.move m
  | logged _ hr hw ih => exact ih.logged hr hw
  | rehashed _ hp ih => exact ih.rehashed hp

namespace Task

/-- The turns that a task has before it, and the calls left in the present one. -/
def size : Task → ℕ × ℕ
  | between waiting _ => (waiting.length, 0)
  | within _ _ _ rest waiting _ => (waiting.length, rest.length + 1)
  | broken => (0, 0)

theorem size_resume (e : Event) (handlers rest : List Handler) (waiting : List Event)
    (invoked : ℕ) :
    (resume e handlers rest waiting invoked).size = (waiting.length, rest.length) := by
  cases rest with
  | nil => rfl
  | cons next rest => rfl

theorem Step.size_lt {i : ℕ} {d d' : Delivery} {t t' : Task} {deed : Deed}
    (h : Step i d t deed d' t') : Prod.Lex (· < ·) (· < ·) t'.size t.size := by
  cases h with
  | looks =>
    rw [size_resume, size]
    exact .left _ _ (Nat.lt_succ_self _)
  | calls hc =>
    rw [size_resume, size]
    exact .right _ (Nat.lt_succ_self _)
  | @fails _ _ _ rest _ waiting _ hc =>
    rw [size, size]
    rcases Nat.eq_zero_or_pos waiting.length with hzero | hpos
    · rw [hzero]
      exact .right _ (Nat.succ_pos _)
    · exact .left _ _ hpos

/-- A task that goes on alone comes to the end of its dispatch. -/
theorem exists_end (ds : List Deed) (w : World) (i : ℕ) (t : Task) (ht : w.tasks[i]? = some t) :
    ∃ ds' w', Interleaves ds w ds' w' ∧
      w'.delivery = (ofOutcome (t.outcome w.delivery)).1 ∧
      w'.tasks[i]? = some (ofOutcome (t.outcome w.delivery)).2 := by
  cases hs : t.step? i w.delivery with
  | none =>
    rw [eq_ofOutcome_of_step?_eq_none hs]
    exact ⟨ds, w, .refl, rfl, ht⟩
  | some p =>
    obtain ⟨deed, d, t'⟩ := p
    have hstep : Step i w.delivery t deed d t' := step_of_step? hs
    have hproceed : w.proceed? i = some (deed, ⟨d, w.tasks.set i t'⟩) :=
      World.proceed?_eq_some_iff.2 ⟨t, d, t', ht, hs, rfl⟩
    have hmove : Interleaves ds w (ds ++ [deed]) ⟨d, w.tasks.set i t'⟩ := by
      have hm : Interleaves ds w (ds ++ (w.move (.proceed i)).1) (w.move (.proceed i)).2 :=
        Interleaves.refl.move _
      rwa [World.move, hproceed] at hm
    obtain ⟨hi, _⟩ := List.getElem?_eq_some_iff.1 ht
    obtain ⟨ds', w', hrun, hd, ht'⟩ := exists_end (ds ++ [deed]) ⟨d, w.tasks.set i t'⟩ i t'
      (List.getElem?_set_self hi)
    rw [hstep.outcome_eq] at hd ht'
    exact ⟨ds', w', hmove.trans hrun, hd, ht'⟩
termination_by t.size
decreasing_by exact hstep.size_lt

end Task

namespace Task

variable {batch : List Event} {turns : Lookups} {calls : List (Event × Handler)} {t : Task}

theorem Follows.events_prefix (h : Follows batch turns calls t) :
    turns.map Prod.fst <+: batch.reverse := by
  cases h with
  | between hb => exact ⟨_, hb⟩
  | within hb =>
    rw [← hb, List.map_append]
    exact (List.prefix_append_right_inj _).2 ⟨_, rfl⟩
  | broken hb hl =>
    rw [← hb, List.map_append]
    exact (List.prefix_append_right_inj _).2 ⟨_, rfl⟩

theorem Follows.calls_prefix (h : Follows batch turns calls t) : calls <+: turns.due := by
  cases h with
  | between hb => exact List.prefix_rfl
  | @within _ _ done next rest _ hb =>
    rw [due_concat, List.map_append]
    exact (List.prefix_append_right_inj _).2 (List.prefix_append _ _)
  | @broken _ e done last rest _ hb hl =>
    have hsplit : (done ++ last :: rest).map (e, ·) =
        (done ++ [last]).map (e, ·) ++ rest.map (e, ·) := by simp
    rw [due_concat, hsplit]
    exact (List.prefix_append_right_inj _).2 (List.prefix_append _ _)

theorem Follows.mem_batch (h : Follows batch turns calls t) {e : Event} {handler : Handler}
    (hc : (e, handler) ∈ calls) : e ∈ batch := by
  obtain ⟨turn, hturn, hmem⟩ := List.mem_flatMap.1 (h.calls_prefix.subset hc)
  obtain ⟨_, _, heq⟩ := List.mem_map.1 hmem
  obtain rfl : turn.1 = e := congrArg Prod.fst heq
  exact List.mem_reverse.1 (h.events_prefix.subset (List.mem_map_of_mem hturn))

end Task

structure Orderly (ds : List Deed) (w : World) : Prop where
  /-- The registry represents the registrations that succeeded, with its keys numbered from zero in
  the order of their first ones. -/
  represents : Registry.Represents (registrations ds).successful w.delivery.registry
  /-- An entry stays as it is, but for the handlers that later registrations add at its end. -/
  stays : ∀ ds' w', Interleaves ds w ds' w' → ∃ more, ds' = ds ++ more ∧
    ∀ e ∈ w.delivery.registry.entries,
      { e with handlers := e.handlers ++ (registrations more).successful.handlers e.key } ∈
        w'.delivery.registry.entries
  /-- A lookup finds the handlers of all registrations made before it that receive the event, and of
  no others, in the order of delivery. By then the task has made all calls of its earlier ones. -/
  looks : ∀ before i e handlers after, ds = before ++ .looks i e handlers :: after →
    handlers = (registrations before).successful.order e.topic ∧
    handlers.Perm (((registrations before).successful.filter fun r =>
      r.1 = e.topic ∨ Glob.Receives r.1 e.topic).map Prod.snd) ∧
    callsOf i before = (lookups i before).due
  /-- Each task is the dispatch of a batch of its own: it looks up its events from last to first, and
  calls what it has looked up, in that order. -/
  follows : ∀ i t, w.tasks[i]? = some t → ∃ batch, (batches ds)[i]? = some batch ∧
    t.Follows batch (lookups i ds) (callsOf i ds) ∧
    (lookups i ds).map Prod.fst <+: batch.reverse ∧ callsOf i ds <+: (lookups i ds).due
  /-- A task that has returned has looked up every event of its batch and made every call, and the
  number it returns is that of the handlers looked up. -/
  returns : ∀ i n, w.tasks[i]? = some (.between [] n) → ∃ batch, (batches ds)[i]? = some batch ∧
    (lookups i ds).map Prod.fst = batch.reverse ∧ callsOf i ds = (lookups i ds).due ∧
    n = ((lookups i ds).map fun turn => turn.2.length).sum
  /-- What a task calls, it calls for an event of its own batch. -/
  own : ∀ i e h, .calls i e h ∈ ds → ∃ batch, (batches ds)[i]? = some batch ∧ e ∈ batch
  /-- No handler is called but by the tasks. -/
  calls_eq : w.delivery.calls = ds.flatMap Deed.records
  lines_eq : w.delivery.lines = ds.flatMap Deed.lines
  /-- Every task can go on to its end, and does so alone as a dispatch of what it has left. -/
  ends : ∀ (i : ℕ) (t : Task), w.tasks[i]? = some t → ∃ ds' w', Interleaves ds w ds' w' ∧
    w'.delivery = (Task.ofOutcome (t.outcome w.delivery)).1 ∧
    w'.tasks[i]? = some (Task.ofOutcome (t.outcome w.delivery)).2

namespace Tracked

variable {ds : List Deed} {w : World}

theorem exists_mem_batch (h : Tracked ds w) {i : ℕ} {e : Event} {handler : Handler}
    (hc : .calls i e handler ∈ ds) : ∃ batch, (batches ds)[i]? = some batch ∧ e ∈ batch := by
  have hmem : (e, handler) ∈ callsOf i ds :=
    List.mem_flatMap.2 ⟨_, hc, by simp [Deed.callsOf]⟩
  by_cases hi : i < w.tasks.length
  · obtain ⟨batch, hb, hf⟩ := h.exists_follows (List.getElem?_eq_getElem hi)
    exact ⟨batch, hb, hf.mem_batch hmem⟩
  · rw [(h.idle i (Nat.not_lt.1 hi)).2] at hmem
    cases hmem

end Tracked

/-- In every run, whatever the order of its steps, the registry keeps its numbering and only grows,
every dispatch finds exactly what has been registered before it looks and calls exactly what it has
found, for the events of its own batch, and what it returns is the number of these calls. -/
theorem orderly_of_interleaves {ds : List Deed} {w : World}
    (h : Interleaves [] { delivery := { registry := .empty } } ds w) : Orderly ds w := by
  obtain ⟨_, htracked⟩ := h.tracked .start
  refine ⟨htracked.kept.built.represents, ?_, ?_, ?_, ?_, fun i e handler hc =>
    htracked.exists_mem_batch hc, htracked.records.calls_eq, htracked.records.lines_eq,
    fun i t ht => Task.exists_end ds w i t ht⟩
  · intro ds' w' hrun
    obtain ⟨⟨more, rfl⟩, htracked'⟩ := hrun.tracked htracked
    refine ⟨more, rfl, fun e he => ?_⟩
    have hbuilt := htracked'.kept.built
    rw [registrations, List.flatMap_append, successful_append] at hbuilt
    exact htracked.kept.built.mem_entries_append hbuilt he
  · intro before i e handlers after heq
    obtain ⟨hfound, hcalls⟩ := htracked.finds before _ after heq
    exact ⟨hfound, hfound ▸ order_perm _ _, hcalls⟩
  · intro i t ht
    obtain ⟨batch, hb, hf⟩ := htracked.exists_follows ht
    exact ⟨batch, hb, hf, hf.events_prefix, hf.calls_prefix⟩
  · intro i n ht
    obtain ⟨batch, hb, hf⟩ := htracked.exists_follows ht
    generalize lookups i ds = turns, callsOf i ds = calls at hf
    cases hf with
    | between hwaiting =>
      rw [List.append_nil] at hwaiting
      exact ⟨batch, hb, hwaiting, rfl, rfl⟩

namespace World

def run (w : World) : List Move → List Deed × World
  | [] => ([], w)
  | m :: ms => ((w.move m).1 ++ ((w.move m).2.run ms).1, ((w.move m).2.run ms).2)

theorem interleaves_run {ds ds' : List Deed} {w w' : World} (h : Interleaves ds w ds' w')
    (ms : List Move) : Interleaves ds w (ds' ++ (w'.run ms).1) (w'.run ms).2 := by
  induction ms generalizing ds' w' with
  | nil =>
    rw [run, List.append_nil]
    exact h
  | cons m ms ih =>
    rw [run, ← List.append_assoc]
    exact ih (h.move m)

end World

def Task.returned? : Task → Option ℕ
  | .between [] invoked => some invoked
  | _ => none

/-- The first of two overlapping dispatches has looked up one handler when the second one begins. It
looks again after its call, after a subscription from outside and after the call of the other. -/
def overlapping : List Move :=
  [.register "t" registersTwo, .start [{ topic := "t" }, { topic := "t" }], .proceed 0,
    .start [{ topic := "t" }], .proceed 1, .proceed 0, .subscribe "t" 0 (.recording (some "c") []),
    .proceed 1] ++ List.replicate 7 (.proceed 0)

theorem orderly_overlapping : ∃ ds w,
    Interleaves [] { delivery := { registry := .empty } } ds w ∧ Orderly ds w ∧
    w.tasks.map Task.returned? = [some 7, some 1] ∧
    w.delivery.calls.map Call.handler =
      [some "a", some "a", some "b", some "c", some "b", some "a"] := by
  have hrun := World.interleaves_run
    (.refl : Interleaves [] { delivery := { registry := .empty } } _ _) overlapping
  exact ⟨_, _, hrun, orderly_of_interleaves hrun, by decide +kernel, by decide +kernel⟩

end TopicClient.Delivery
