import TopicClient.Proofs.Registry.Turns

/-!
# Deliveries and the log

A delivery adds to the log and never reads it: with other records in front it does the same.
-/

namespace TopicClient.Delivery

def prependLogs (logs : List Log.Record) (d : Delivery) : Delivery :=
  { d with logs := logs ++ d.logs }

def prependLogsTo (logs : List Log.Record) : Except Delivery Delivery → Except Delivery Delivery
  | .ok d => .ok (d.prependLogs logs)
  | .error d => .error (d.prependLogs logs)

def prependLogsToCount (logs : List Log.Record) :
    Except Delivery (Delivery × ℕ) → Except Delivery (Delivery × ℕ)
  | .ok (d, n) => .ok (d.prependLogs logs, n)
  | .error d => .error (d.prependLogs logs)

variable (logs : List Log.Record) (d : Delivery)

theorem log_prependLogs (r : Log.Record) :
    (d.prependLogs logs).log r = (d.log r).prependLogs logs := by
  simp only [prependLogs, log, List.append_assoc]

theorem register_prependLogs (key : String) (h : Handler) :
    (d.prependLogs logs).register key h = prependLogsTo logs (d.register key h) := by
  have hreg : (d.prependLogs logs).registry.register key h = d.registry.register key h := rfl
  rw [register, register, hreg]
  cases d.registry.register key h with
  | done registry => rfl
  | literal registry cause => exact congrArg Except.ok (log_prependLogs logs { d with registry } _)
  | refused => rfl

theorem followUp_prependLogs (f : FollowUp) :
    (d.prependLogs logs).followUp f = prependLogsTo logs (d.followUp f) := by
  cases f with
  | register key h => exact register_prependLogs logs d key h
  | subscribe key h =>
    simp only [followUp, subscribe, register_prependLogs]
    cases d.register key h with
    | ok d' => exact congrArg Except.ok (log_prependLogs logs d' _)
    | error d' => rfl

theorem foldlM_prependLogs {α : Type} {step : Delivery → α → Except Delivery Delivery}
    (hstep : ∀ d a, step (d.prependLogs logs) a = prependLogsTo logs (step d a)) (as : List α) :
    as.foldlM step (d.prependLogs logs) = prependLogsTo logs (as.foldlM step d) := by
  induction as generalizing d with
  | nil => rfl
  | cons a as ih =>
    rw [List.foldlM_cons, List.foldlM_cons, hstep]
    cases step d a with
    | ok d' => exact ih d'
    | error d' => rfl

theorem call_prependLogs (e : Event) (h : Handler) :
    (d.prependLogs logs).call e h = prependLogsTo logs (d.call e h) := by
  cases h with
  | logging => exact congrArg Except.ok (log_prependLogs logs d _)
  | recording name fs =>
    exact foldlM_prependLogs logs { d with calls := d.calls ++ [⟨name, e.topic, e.payload⟩] }
      (fun d f => followUp_prependLogs logs d f) fs

theorem deliver_prependLogs (e : Event) :
    (d.prependLogs logs).deliver e = prependLogsToCount logs (d.deliver e) := by
  have horder : (d.prependLogs logs).registry.order e.topic = d.registry.order e.topic := rfl
  have hcalls : ∀ hs : List Handler,
      hs.foldlM (fun d h => d.call e h) (d.prependLogs logs) =
        prependLogsTo logs (hs.foldlM (fun d h => d.call e h) d) :=
    foldlM_prependLogs logs d (fun d h => call_prependLogs logs d e h)
  rw [deliver, deliver, horder]
  cases d.registry.order e.topic with
  | nil => exact congrArg (fun d => Except.ok (d, 0)) (log_prependLogs logs d _)
  | cons h hs =>
    simp only [hcalls]
    cases (h :: hs).foldlM (fun d h => d.call e h) d with
    | ok d' => rfl
    | error d' => rfl

theorem deliverAll_prependLogs (es : List Event) :
    (d.prependLogs logs).deliverAll es = prependLogsToCount logs (d.deliverAll es) := by
  induction es generalizing d with
  | nil => rfl
  | cons e es ih =>
    rw [deliverAll, deliverAll, deliver_prependLogs]
    cases d.deliver e with
    | error d₁ => rfl
    | ok p =>
      obtain ⟨d₁, n⟩ := p
      change ((d₁.prependLogs logs).deliverAll es >>= fun p => pure (p.1, n + p.2)) =
        prependLogsToCount logs (d₁.deliverAll es >>= fun p => pure (p.1, n + p.2))
      rw [ih]
      cases d₁.deliverAll es with
      | ok p => rfl
      | error d₂ => rfl

theorem dispatch_prependLogs (batch : List Event) :
    (d.prependLogs logs).dispatch batch = prependLogsToCount logs (d.dispatch batch) :=
  deliverAll_prependLogs logs d batch.reverse

theorem lines_prependLogs :
    (d.prependLogs logs).lines = logs.filter (fun r => r.source = .polling) ++ d.lines :=
  List.filter_append logs d.logs

/-- A dispatch is the same whatever the log holds before it. -/
theorem dispatch_withLogs (batch : List Event) :
    ({ d with logs } : Delivery).dispatch batch =
      prependLogsToCount logs (({ d with logs := [] } : Delivery).dispatch batch) := by
  rw [← dispatch_prependLogs, prependLogs, List.append_nil]

end TopicClient.Delivery
