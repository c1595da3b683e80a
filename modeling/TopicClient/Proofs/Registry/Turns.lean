import TopicClient.Proofs.Registry.Order
import TopicClient.Registry.Dispatch

/-!
# Deliveries whose handlers register handlers

While a batch is delivered, each event has its turn, and the handlers called in it may register
others. On the ledger a turn is the order of delivery at its start followed by the registrations
of the handlers called. `Delivery.Reachable` relates the states of a delivery to their ledgers, and
`dispatch_refines_ledger` says that a dispatch never fails and runs turn by turn as on the ledger.
-/

namespace TopicClient

/-- The keys a handler registers can be compiled, and so can those of the handlers it registers. -/
inductive Handler.Usable : Handler → Prop
  | logging : Usable .logging
  | recording {name : Option String} {followUps : List FollowUp}
      (keys : ∀ f ∈ followUps, Glob.compile f.key ≠ .tooDeep)
      (handlers : ∀ f ∈ followUps, Usable f.handler) : Usable (.recording name followUps)

namespace Handler

def made : Handler → Ledger Handler
  | .logging => []
  | .recording _ followUps => followUps.map fun f => (f.key, f.handler)

def calls (e : Event) : Handler → List Call
  | .logging => []
  | .recording name _ => [⟨name, e.topic, e.payload⟩]

def lines (e : Event) : Handler → List Log.Record
  | .logging => [{ level := .info, source := .polling, message := Delivery.eventLine e }]
  | .recording _ _ => []

end Handler

structure Turn where
  before : Ledger Handler
  event : Event

namespace Turn

def handlers (t : Turn) : List Handler := t.before.order t.event.topic

def made (t : Turn) : Ledger Handler := t.handlers.flatMap Handler.made

def calls (t : Turn) : List Call := t.handlers.flatMap (Handler.calls t.event)

def lines (t : Turn) : List Log.Record := t.handlers.flatMap (Handler.lines t.event)

end Turn

namespace Ledger

/-- The turns of events in the order given: each one sees the registrations of those before. -/
def turns (l : Ledger Handler) : List Event → List Turn
  | [] => []
  | e :: es => ⟨l, e⟩ :: turns (l ++ Turn.made ⟨l, e⟩) es

def afterTurns (l : Ledger Handler) (es : List Event) : Ledger Handler :=
  l ++ (l.turns es).flatMap Turn.made

theorem afterTurns_cons (l : Ledger Handler) (e : Event) (es : List Event) :
    l.afterTurns (e :: es) = (l ++ Turn.made ⟨l, e⟩).afterTurns es := by
  simp only [afterTurns, turns, List.flatMap_cons, List.append_assoc]

theorem map_event_turns (l : Ledger Handler) (es : List Event) :
    (l.turns es).map Turn.event = es := by
  induction es generalizing l with
  | nil => rfl
  | cons e es ih => simp only [turns, List.map_cons, ih]

theorem prefix_before_of_mem_turns {l : Ledger Handler} {es : List Event} {t : Turn}
    (ht : t ∈ l.turns es) : l <+: t.before := by
  induction es generalizing l with
  | nil => cases ht
  | cons e es ih =>
    rcases List.mem_cons.1 ht with rfl | ht
    · exact List.prefix_rfl
    · exact (List.prefix_append _ _).trans (ih ht)

/-- What is registered in one turn stands in the ledger of every later one. -/
theorem pairwise_turns (l : Ledger Handler) (es : List Event) :
    (l.turns es).Pairwise fun t u => t.before ++ t.made <+: u.before := by
  induction es generalizing l with
  | nil => exact .nil
  | cons e es ih => exact .cons (fun _ hu => prefix_before_of_mem_turns hu) (ih _)

end Ledger

namespace Delivery

def lines (d : Delivery) : List Log.Record := d.logs.filter fun r => r.source = .polling

structure Tracks (l : Ledger Handler) (d : Delivery) : Prop where
  built : Registry.Built l d.registry
  usable : ∀ e ∈ l, e.2.Usable

structure Grows (d d' : Delivery) (made : Ledger Handler) (calls : List Call)
    (lines : List Log.Record) : Prop where
  tracks : ∀ l, Tracks l d → Tracks (l ++ made) d'
  calls_eq : d'.calls = d.calls ++ calls
  lines_eq : d'.lines = d.lines ++ lines

namespace Grows

theorem refl (d : Delivery) : Grows d d [] [] [] where
  tracks l hl := by rwa [List.append_nil]
  calls_eq := (List.append_nil _).symm
  lines_eq := (List.append_nil _).symm

theorem trans {d d' d'' : Delivery} {made made' : Ledger Handler} {calls calls' : List Call}
    {lines lines' : List Log.Record} (h : Grows d d' made calls lines)
    (h' : Grows d' d'' made' calls' lines') :
    Grows d d'' (made ++ made') (calls ++ calls') (lines ++ lines') where
  tracks l hl := by
    rw [← List.append_assoc]
    exact h'.tracks _ (h.tracks l hl)
  calls_eq := by rw [h'.calls_eq, h.calls_eq, List.append_assoc]
  lines_eq := by rw [h'.lines_eq, h.lines_eq, List.append_assoc]

theorem log {d d' : Delivery} {made : Ledger Handler} {calls : List Call}
    {lines : List Log.Record} (h : Grows d d' made calls lines) {r : Log.Record}
    (hr : r.source ≠ .polling) : Grows d (d'.log r) made calls lines where
  tracks l hl := ⟨(h.tracks l hl).built, (h.tracks l hl).usable⟩
  calls_eq := h.calls_eq
  lines_eq := by
    rw [← h.lines_eq]
    simp [Delivery.lines, Delivery.log, hr]

end Grows

theorem exists_register (d : Delivery) {key : String} {h : Handler}
    (hk : Glob.compile key ≠ .tooDeep) (hh : h.Usable) :
    ∃ d', d.register key h = .ok d' ∧ Grows d d' [(key, h)] [] [] := by
  have hgrows : ∀ registry, (d.registry.register key h).result? = some registry →
      Grows d { d with registry } [(key, h)] [] [] := by
    intro registry hr
    refine ⟨?_, (List.append_nil _).symm, (List.append_nil _).symm⟩
    rintro l ⟨hb, hu⟩
    refine ⟨hb.registered hr, ?_⟩
    intro e he
    rcases List.mem_append.1 he with he | he
    · exact hu e he
    · obtain rfl := List.mem_singleton.1 he
      exact hh
  cases hr : d.registry.register key h with
  | done registry =>
    exact ⟨_, by simp only [register, hr], hgrows registry (by rw [hr]; rfl)⟩
  | literal registry cause =>
    refine ⟨_, by simp only [register, hr]; rfl, (hgrows registry (by rw [hr]; rfl)).log ?_⟩
    exact nofun
  | refused =>
    have hnone : (d.registry.register key h).result? = none := by rw [hr]; rfl
    exact absurd (Registry.result?_register_eq_none_iff.1 hnone).2 hk

theorem exists_followUp (d : Delivery) {f : FollowUp} (hk : Glob.compile f.key ≠ .tooDeep)
    (hh : f.handler.Usable) :
    ∃ d', d.followUp f = .ok d' ∧ Grows d d' [(f.key, f.handler)] [] [] := by
  cases f with
  | register key h => exact exists_register d hk hh
  | subscribe key h =>
    obtain ⟨d', heq, hg⟩ : ∃ d', d.register key h = .ok d' ∧ Grows d d' [(key, h)] [] [] :=
      exists_register d hk hh
    refine ⟨d'.log (registered key 0), ?_, hg.log nofun⟩
    rw [followUp, subscribe, heq]
    rfl

theorem exists_followUps (d : Delivery) {fs : List FollowUp}
    (hk : ∀ f ∈ fs, Glob.compile f.key ≠ .tooDeep) (hh : ∀ f ∈ fs, f.handler.Usable) :
    ∃ d', fs.foldlM followUp d = .ok d' ∧
      Grows d d' (fs.map fun f => (f.key, f.handler)) [] [] := by
  induction fs generalizing d with
  | nil => exact ⟨d, rfl, .refl d⟩
  | cons f fs ih =>
    obtain ⟨d₁, h₁, hg₁⟩ := exists_followUp d (hk f List.mem_cons_self) (hh f List.mem_cons_self)
    obtain ⟨d₂, h₂, hg₂⟩ := ih d₁ (fun f hf => hk f (List.mem_cons_of_mem _ hf))
      (fun f hf => hh f (List.mem_cons_of_mem _ hf))
    refine ⟨d₂, ?_, hg₁.trans hg₂⟩
    rw [List.foldlM_cons, h₁]
    exact h₂

theorem exists_call (d : Delivery) (e : Event) {h : Handler} (hh : h.Usable) :
    ∃ d', d.call e h = .ok d' ∧ Grows d d' h.made (h.calls e) (h.lines e) := by
  cases hh with
  | logging =>
    refine ⟨_, rfl, ?_, (List.append_nil _).symm, ?_⟩
    · rintro l ⟨hb, hu⟩
      exact ⟨by rwa [Handler.made, List.append_nil], by rwa [Handler.made, List.append_nil]⟩
    · simp [lines, log, Handler.lines]
  | @recording name fs hk hh =>
    obtain ⟨d', heq, hg⟩ :=
      exists_followUps { d with calls := d.calls ++ [⟨name, e.topic, e.payload⟩] } hk hh
    refine ⟨d', heq, fun l hl => hg.tracks l ⟨hl.built, hl.usable⟩, ?_, hg.lines_eq⟩
    rw [hg.calls_eq, List.append_nil]
    rfl

theorem exists_calls (d : Delivery) (e : Event) {hs : List Handler} (hu : ∀ h ∈ hs, h.Usable) :
    ∃ d', hs.foldlM (fun d h => d.call e h) d = .ok d' ∧
      Grows d d' (hs.flatMap Handler.made) (hs.flatMap (Handler.calls e))
        (hs.flatMap (Handler.lines e)) := by
  induction hs generalizing d with
  | nil => exact ⟨d, rfl, .refl d⟩
  | cons h hs ih =>
    obtain ⟨d₁, h₁, hg₁⟩ := exists_call d e (hu h List.mem_cons_self)
    obtain ⟨d₂, h₂, hg₂⟩ := ih d₁ fun h hh => hu h (List.mem_cons_of_mem _ hh)
    refine ⟨d₂, ?_, hg₁.trans hg₂⟩
    rw [List.foldlM_cons, h₁]
    exact h₂

structure TurnRuns (t : Turn) (d d' : Delivery) : Prop where
  built : Registry.Built t.before d.registry
  order_eq : d.registry.order t.event.topic = t.handlers
  delivered : d.deliver t.event = .ok (d', t.handlers.length)
  built_made : Registry.Built (t.before ++ t.made) d'.registry
  calls_eq : d'.calls = d.calls ++ t.calls
  lines_eq : d'.lines = d.lines ++ t.lines

inductive TurnsRun : List Turn → Delivery → Delivery → Prop
  | done {d : Delivery} : TurnsRun [] d d
  | turn {t : Turn} {ts : List Turn} {d d₁ d₂ : Delivery} (ht : TurnRuns t d d₁)
      (hts : TurnsRun ts d₁ d₂) : TurnsRun (t :: ts) d d₂

def callCount (ts : List Turn) : ℕ := (ts.flatMap Turn.handlers).length

theorem callCount_cons (t : Turn) (ts : List Turn) :
    callCount (t :: ts) = t.handlers.length + callCount ts := by
  rw [callCount, callCount, List.flatMap_cons, List.length_append]

theorem exists_deliver {l : Ledger Handler} {d : Delivery} (hd : Tracks l d) (e : Event) :
    ∃ d', TurnRuns ⟨l, e⟩ d d' ∧ Tracks (l ++ Turn.made ⟨l, e⟩) d' := by
  have horder : d.registry.order e.topic = Turn.handlers ⟨l, e⟩ := hd.built.order_eq e.topic
  have husable : ∀ h ∈ Turn.handlers ⟨l, e⟩, h.Usable := by
    intro h hh
    obtain ⟨r, hr, rfl, _⟩ := Ledger.mem_order.1 hh
    exact hd.usable r hr
  obtain ⟨d', hcalls, hg⟩ : ∃ d', d.deliver e = .ok (d', (Turn.handlers ⟨l, e⟩).length) ∧
      Grows d d' (Turn.made ⟨l, e⟩) (Turn.calls ⟨l, e⟩) (Turn.lines ⟨l, e⟩) := by
    cases hhs : Turn.handlers ⟨l, e⟩ with
    | nil =>
      refine ⟨d.log (unhandled e.topic), by simp only [deliver, horder, hhs]; rfl, ?_⟩
      simp only [Turn.made, Turn.calls, Turn.lines, hhs]
      exact (Grows.refl d).log nofun
    | cons h hs =>
      obtain ⟨d', heq, hg⟩ := exists_calls d e husable
      refine ⟨d', ?_, hg⟩
      rw [hhs] at heq
      simp only [deliver, horder, hhs, heq]
      rfl
  exact ⟨d', ⟨hd.built, horder, hcalls, (hg.tracks l hd).built, hg.calls_eq, hg.lines_eq⟩,
    hg.tracks l hd⟩

theorem exists_deliverAll {l : Ledger Handler} {d : Delivery} (hd : Tracks l d)
    (es : List Event) :
    ∃ d', d.deliverAll es = .ok (d', callCount (l.turns es)) ∧ TurnsRun (l.turns es) d d' ∧
      Tracks (l.afterTurns es) d' := by
  induction es generalizing l d with
  | nil => exact ⟨d, rfl, .done, by rwa [Ledger.afterTurns, Ledger.turns, List.flatMap_nil,
      List.append_nil]⟩
  | cons e es ih =>
    obtain ⟨d₁, hturn, hd₁⟩ := exists_deliver hd e
    obtain ⟨d₂, heq, hturns, hd₂⟩ := ih hd₁
    refine ⟨d₂, ?_, .turn hturn hturns, by rwa [Ledger.afterTurns_cons]⟩
    have hdeliver : d.deliver e = .ok (d₁, (Turn.handlers ⟨l, e⟩).length) := hturn.delivered
    rw [deliverAll, hdeliver]
    change (d₁.deliverAll es >>= fun p => pure (p.1, _ + p.2)) = _
    rw [heq, Ledger.turns, callCount_cons]
    rfl

theorem TurnsRun.calls_eq {ts : List Turn} {d d' : Delivery} (h : TurnsRun ts d d') :
    d'.calls = d.calls ++ ts.flatMap Turn.calls := by
  induction h with
  | done => exact (List.append_nil _).symm
  | turn ht _ ih => rw [ih, ht.calls_eq, List.flatMap_cons, List.append_assoc]

theorem TurnsRun.lines_eq {ts : List Turn} {d d' : Delivery} (h : TurnsRun ts d d') :
    d'.lines = d.lines ++ ts.flatMap Turn.lines := by
  induction h with
  | done => exact (List.append_nil _).symm
  | turn ht _ ih => rw [ih, ht.lines_eq, List.flatMap_cons, List.append_assoc]

/-- The states that registrations and dispatches lead to from an empty registry, each with its
ledger. Between two of them the entries of the registry may change their places. -/
inductive Reachable : Ledger Handler → Delivery → Prop
  | start (calls : List Call) (logs : List Log.Record) :
      Reachable [] { registry := .empty, calls, logs }
  | registered {l : Ledger Handler} {d d' : Delivery} {key : String} {h : Handler}
      (hd : Reachable l d) (hh : h.Usable) (hr : d.register key h = .ok d') :
      Reachable (l ++ [(key, h)]) d'
  | dispatched {l : Ledger Handler} {d d' : Delivery} {batch : List Event} {n : ℕ}
      (hd : Reachable l d) (hr : d.dispatch batch = .ok (d', n)) :
      Reachable (l.afterTurns batch.reverse) d'
  | rehashed {l : Ledger Handler} {d : Delivery} {registry : Registry Handler}
      (hd : Reachable l d) (hp : registry.entries.Perm d.registry.entries) :
      Reachable l { d with registry }

theorem result?_of_register_eq_ok {d d' : Delivery} {key : String} {h : Handler}
    (hr : d.register key h = .ok d') :
    (d.registry.register key h).result? = some d'.registry := by
  rw [register] at hr
  cases hreg : d.registry.register key h with
  | done registry =>
    simp only [hreg] at hr
    cases hr
    rfl
  | literal registry cause =>
    simp only [hreg] at hr
    cases hr
    rfl
  | refused =>
    simp only [hreg] at hr
    cases hr

theorem Reachable.tracks {l : Ledger Handler} {d : Delivery} (hd : Reachable l d) :
    Tracks l d := by
  induction hd with
  | start => exact ⟨.empty, nofun⟩
  | registered _ hh hr ih =>
    refine ⟨ih.built.registered (result?_of_register_eq_ok hr), ?_⟩
    intro e he
    rcases List.mem_append.1 he with he | he
    · exact ih.usable e he
    · obtain rfl := List.mem_singleton.1 he
      exact hh
  | @dispatched l d d' batch n _ hr ih =>
    obtain ⟨d₁, heq, _, hd₁⟩ := exists_deliverAll ih batch.reverse
    rw [dispatch, heq] at hr
    cases hr
    exact hd₁
  | rehashed _ hp ih => exact ⟨ih.built.rehashed hp, ih.usable⟩

/-- From every reachable state a dispatch ends, and runs as on the ledger. The events have their
turns from last to first; each turn calls the handlers of the registry as it stands at its start,
which are those of the registrations made before it; what it registers takes part in every later
turn; afterwards the ledger has grown by the registrations of all calls, in the order of the
calls; and the number returned is the number of calls. -/
theorem dispatch_refines_ledger {l : Ledger Handler} {d : Delivery} (hd : Reachable l d)
    (batch : List Event) :
    ∃ d' ts, ts = l.turns batch.reverse ∧ d.dispatch batch = .ok (d', callCount ts) ∧
      TurnsRun ts d d' ∧ ts.map Turn.event = batch.reverse ∧
      (∀ t ∈ ts, t.handlers.Perm ((t.before.filter fun e =>
        e.1 = t.event.topic ∨ Glob.Receives e.1 t.event.topic).map Prod.snd)) ∧
      (ts.Pairwise fun t u => t.before ++ t.made <+: u.before ∧ ∀ e ∈ t.made,
        e.1 = u.event.topic ∨ Glob.Receives e.1 u.event.topic → e.2 ∈ u.handlers) ∧
      Registry.Built (l ++ ts.flatMap Turn.made) d'.registry ∧
      d'.calls = d.calls ++ ts.flatMap Turn.calls ∧
      d'.lines = d.lines ++ ts.flatMap Turn.lines := by
  obtain ⟨d', heq, hrun, hd'⟩ := exists_deliverAll hd.tracks batch.reverse
  refine ⟨d', _, rfl, heq, hrun, l.map_event_turns _, fun t _ => t.before.order_perm _, ?_,
    hd'.built, hrun.calls_eq, hrun.lines_eq⟩
  refine (l.pairwise_turns batch.reverse).imp ?_
  intro t u hpre
  refine ⟨hpre, ?_⟩
  intro e he hcovers
  exact Ledger.mem_order.2 ⟨e, hpre.subset (List.mem_append_right _ he), rfl, hcovers⟩

def registersTwo : Handler :=
  .recording (some "a") [.register "t" (.recording (some "b") []), .subscribe "*" .logging]

/-- For the last of two events it is called alone, and for the first one together with them. -/
theorem dispatch_of_registersTwo :
    ∃ d d', Reachable [("t", registersTwo)] d ∧
      d.dispatch [{ topic := "t" }, { topic := "t" }] = .ok (d', 4) ∧
      d'.calls.map Call.handler = [some "a", some "b", some "a"] := by
  have hh : registersTwo.Usable := by
    refine .recording ?_ ?_
    · simp only [List.forall_mem_cons]
      exact ⟨nofun, nofun, nofun⟩
    · simp only [List.forall_mem_cons]
      exact ⟨.recording nofun nofun, .logging, nofun⟩
  have hkey : Glob.compile "t" ≠ .tooDeep := nofun
  obtain ⟨d, heq, hg⟩ := exists_register { registry := .empty } hkey hh
  have hd : Reachable [("t", registersTwo)] d := (Reachable.start [] []).registered hh heq
  obtain ⟨d', ts, rfl, hrun, _, _, _, _, _, hcalls, _⟩ :=
    dispatch_refines_ledger hd [{ topic := "t" }, { topic := "t" }]
  refine ⟨d, d', hd, ?_, ?_⟩
  · rw [hrun]
    congr
  · rw [hcalls, hg.calls_eq]
    decide +kernel

end Delivery

end TopicClient
