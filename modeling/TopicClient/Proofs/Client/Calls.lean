import TopicClient.Proofs.Client.Runs

/-!
# Calls in a row

What a program does with a client is a list of calls, each made by the client as the ones before have
left it (`Calls`). A client is steady if none of its handlers breaks off a delivery; its fetches then
deliver whatever they bring (`Steady.run_fetch`).
-/

namespace TopicClient.Client

open Delivery (Tracks)

structure Made where
  operation : Operation
  client : Client

section Settled

variable {α : Type} {call : Action (Outcome α)} {c c' : Client}

theorem run_settle_of_run {o : Outcome α} (h : call.run c = (o, c')) :
    (settle call).run c = ((o.map fun _ => ()).mapError .error, c') := by
  rw [settle, run_bind_of_run h]
  rfl

end Settled

inductive Calls : Client → List Made → Client → Prop
  | nil {c : Client} : Calls c [] c
  | call {c c' : Client} {ms : List Made} (op : Operation)
      (h : Calls (op.run.run c).2 ms c') : Calls c (⟨op, c⟩ :: ms) c'
  | logged {c c' : Client} {ms : List Made} (r : Log.Record)
      (h : Calls ((Client.log r).run c).2 ms c') : Calls c ms c'

namespace Calls

variable {c c' c'' : Client} {ms ms' : List Made}

theorem append (h : Calls c ms c') (h' : Calls c' ms' c'') : Calls c (ms ++ ms') c'' := by
  induction h with
  | nil => exact h'
  | call op _ ih => exact .call op (ih h')
  | logged r _ ih => exact .logged r (ih h')

theorem of_run {op : Operation} {o : Except Fault Unit} (h : op.run.run c = (o, c')) :
    Calls c [⟨op, c⟩] c' := by
  refine .call op ?_
  rw [h]
  exact .nil

theorem log (h : Calls c ms c') (r : Log.Record) : Calls c ms ((Client.log r).run c').2 := by
  have hmore := h.append (.logged r .nil)
  rwa [List.append_nil] at hmore

end Calls

/-! ## Steady clients -/

/-- No handler of the client breaks off a delivery. -/
def Steady (c : Client) : Prop := ∃ l, Tracks l c.delivery

namespace Steady

variable {c c' : Client}

theorem congr (h : Steady c) (hregistry : c'.registry = c.registry) : Steady c' := by
  obtain ⟨l, hl⟩ := h
  refine ⟨l, ?_, hl.usable⟩
  have heq : c'.delivery.registry = c.delivery.registry := hregistry
  rw [heq]
  exact hl.built

theorem log (h : Steady c) (r : Log.Record) : Steady ((Client.log r).run c).2 := h.congr rfl

theorem talked (h : Steady c) (ht : Talked c c') : Steady c' := h.congr ht.registry_eq

theorem run_subscribe (h : Steady c) {key : String} (hk : Glob.compile key ≠ .tooDeep)
    (authLevel : UInt8) {handler : Handler} (hh : handler.Usable) :
    ((subscribe key authLevel handler).run c).1 ≠ .error .unusableKey ∧
      Steady ((subscribe key authLevel handler).run c).2 := by
  obtain ⟨l, hl⟩ := h
  obtain ⟨d, hregister, hgrows⟩ := Delivery.exists_register c.delivery hk hh
  have hsubscribe : c.delivery.subscribe key authLevel handler =
      .ok (d.log (Delivery.registered key authLevel)) := by
    rw [Delivery.subscribe, hregister]
    rfl
  have hlogged : Delivery.Grows c.delivery (d.log (Delivery.registered key authLevel))
      [(key, handler)] [] [] := hgrows.log (by simp [Delivery.registered])
  have hplaced : Steady { c with delivery := d.log (Delivery.registered key authLevel) } :=
    ⟨_, hlogged.tracks l hl⟩
  rw [Client.run_subscribe, hsubscribe]
  refine ⟨?_, hplaced.talked ((talks_announce _).map _ _)⟩
  have hrun : ∀ c', (StateT.run (do return (← announce ⟨key, authLevel⟩).mapError Fault.error)
      c' : Except Fault Unit × Client).1 = ((announce ⟨key, authLevel⟩).run c').1.mapError .error :=
    fun _ => rfl
  rw [hrun]
  cases ((announce ⟨key, authLevel⟩).run _).1 with
  | ok a =>
    intro h
    cases h
  | error e =>
    intro h
    cases h

/-- A fetch delivers the batch that it brings in full. -/
theorem run_fetch (h : Steady c) :
    (fetch.run c).1 ≠ .error .unusableKey ∧ Steady (fetch.run c).2 ∧
      ∀ batch, c.fetched? = some batch →
        ∃ d n, c.delivery.dispatch batch = .ok (d, n) ∧ Holds (fetch.run c).2 d := by
  have hposted : Steady (c.afterExchange Path.fetch none) :=
    h.talked (talked_afterExchange c Path.fetch none)
  rw [Client.run_fetch, fetched?]
  cases outcomeOf (c.exchange Path.fetch none).1 with
  | error e =>
    refine ⟨?_, hposted.congr rfl, ?_⟩
    · intro h
      cases h
    · intro batch h
      cases h
  | ok accepted =>
    simp only
    cases Event.parseBatch accepted.body with
    | error e =>
      refine ⟨?_, hposted, ?_⟩
      · intro h
        cases h
      · intro batch h
        cases h
    | ok batch =>
      obtain ⟨l, hl⟩ := h
      obtain ⟨l', hl'⟩ := hposted
      obtain ⟨d, hd, -, -⟩ := Delivery.exists_deliverAll hl batch.reverse
      obtain ⟨d', hd', -, htracks⟩ := Delivery.exists_deliverAll hl' batch.reverse
      have hdispatch : c.delivery.dispatch batch = _ := hd
      have hdispatch' : (c.afterExchange Path.fetch none).delivery.dispatch batch = _ := hd'
      have hheld := (holds_afterExchange c Path.fetch none).dispatch batch
      rw [hdispatch, hdispatch'] at hheld
      simp only [run_deliver, hdispatch']
      refine ⟨?_, ⟨_, htracks.built, htracks.usable⟩, ?_⟩
      · intro h
        cases h
      · intro batch' hbatch
        obtain rfl : batch = batch' := Option.some.inj hbatch
        exact ⟨d, _, hdispatch, hheld.2.log (by simp [record])⟩

end Steady

end TopicClient.Client
