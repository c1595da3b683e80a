import TopicClient.Proofs.Registry.Attempts

/-!
# What a delivery records

A call that registers handlers may fail half-way, but it has recorded itself before. `Records` says
what a part of a delivery adds to the calls and to the lines logged for events, whether it succeeds
or fails. A delivery that is broken off calls its handlers up to the one that fails (`reached`), so
what is called for a batch follows from the registrations tried before: `performs_dispatch`.
-/

namespace TopicClient

def Turn.due (t : Turn) : List (Event × Handler) := t.handlers.map (t.event, ·)

namespace Delivery

open Ledger

structure Records (d d' : Delivery) (calls : List Call) (lines : List Log.Record) : Prop where
  calls_eq : d'.calls = d.calls ++ calls
  lines_eq : d'.lines = d.lines ++ lines

namespace Records

theorem refl (d : Delivery) : Records d d [] [] :=
  ⟨(List.append_nil _).symm, (List.append_nil _).symm⟩

theorem trans {d d' d'' : Delivery} {calls calls' : List Call} {lines lines' : List Log.Record}
    (h : Records d d' calls lines) (h' : Records d' d'' calls' lines') :
    Records d d'' (calls ++ calls') (lines ++ lines') where
  calls_eq := by rw [h'.calls_eq, h.calls_eq, List.append_assoc]
  lines_eq := by rw [h'.lines_eq, h.lines_eq, List.append_assoc]

theorem log {d d' : Delivery} {calls : List Call} {lines : List Log.Record}
    (h : Records d d' calls lines) {r : Log.Record} (hr : r.source ≠ .polling) :
    Records d (d'.log r) calls lines where
  calls_eq := h.calls_eq
  lines_eq := by
    rw [← h.lines_eq]
    simp [Delivery.lines, Delivery.log, hr]

end Records

theorem records_register (d : Delivery) (key : String) (h : Handler) :
    Records d (left (d.register key h)) [] [] := by
  unfold register
  cases d.registry.register key h with
  | done registry => exact ⟨(Records.refl d).calls_eq, (Records.refl d).lines_eq⟩
  | literal registry cause =>
    have hsame : Records d { d with registry } [] [] :=
      ⟨(Records.refl d).calls_eq, (Records.refl d).lines_eq⟩
    exact hsame.log nofun
  | refused => exact .refl d

theorem records_subscribe (d : Delivery) (key : String) (authLevel : UInt8) (h : Handler) :
    Records d (left (d.subscribe key authLevel h)) [] [] := by
  have hregister := records_register d key h
  rw [subscribe]
  cases hd : d.register key h with
  | ok d' =>
    rw [hd] at hregister
    exact hregister.log (by simp [registered])
  | error d' =>
    rw [hd] at hregister
    exact hregister

theorem records_followUp (d : Delivery) (f : FollowUp) :
    Records d (left (d.followUp f)) [] [] := by
  cases f with
  | register key h => exact records_register d key h
  | subscribe key h => exact records_subscribe d key 0 h

theorem records_followUps (d : Delivery) (fs : List FollowUp) :
    Records d (left (fs.foldlM followUp d)) [] [] := by
  induction fs generalizing d with
  | nil => exact .refl d
  | cons f fs ih =>
    have hfirst := records_followUp d f
    rw [List.foldlM_cons]
    cases hd : d.followUp f with
    | ok d' =>
      rw [hd] at hfirst
      exact hfirst.trans (ih d')
    | error d' =>
      rw [hd] at hfirst
      exact hfirst

theorem records_call (d : Delivery) (e : Event) (h : Handler) :
    Records d (left (d.call e h)) (h.calls e) (h.lines e) := by
  cases h with
  | logging =>
    refine ⟨(List.append_nil _).symm, ?_⟩
    simp [call, left, lines, log, Handler.lines]
  | recording name followUps =>
    have hcall : Records d { d with calls := d.calls ++ [⟨name, e.topic, e.payload⟩] }
        (Handler.calls e (.recording name followUps)) [] := ⟨rfl, (List.append_nil _).symm⟩
    exact hcall.trans (records_followUps _ followUps)

instance (as : Ledger Handler) : Decidable (AllUsable as) :=
  inferInstanceAs (Decidable (∀ a ∈ as, (Glob.compile a.1).isUsable = true))

/-- Of calls made one after the other, those that are made: none after one that registers an unusable
key. -/
def reached : List (Event × Handler) → List (Event × Handler)
  | [] => []
  | p :: ps => if AllUsable p.2.made then p :: reached ps else [p]

theorem reached_append_of_forall {ps : List (Event × Handler)}
    (h : ∀ p ∈ ps, AllUsable p.2.made) (qs : List (Event × Handler)) :
    reached (ps ++ qs) = ps ++ reached qs := by
  induction ps with
  | nil => rfl
  | cons p ps ih =>
    obtain ⟨hp, hps⟩ := List.forall_mem_cons.1 h
    rw [List.cons_append, reached, if_pos hp, ih hps, List.cons_append]

theorem reached_append_of_not_forall {ps : List (Event × Handler)}
    (h : ¬ ∀ p ∈ ps, AllUsable p.2.made) (qs : List (Event × Handler)) :
    reached (ps ++ qs) = reached ps := by
  induction ps with
  | nil => exact absurd nofun h
  | cons p ps ih =>
    by_cases hp : AllUsable p.2.made
    · have hps : ¬ ∀ p ∈ ps, AllUsable p.2.made := fun hps => h (List.forall_mem_cons.2 ⟨hp, hps⟩)
      rw [List.cons_append, reached, reached, if_pos hp, if_pos hp, ih hps]
    · rw [List.cons_append, reached, reached, if_neg hp, if_neg hp]

theorem allUsable_made_iff {t : Turn} : AllUsable t.made ↔ ∀ p ∈ t.due, AllUsable p.2.made := by
  simp only [AllUsable, Turn.made, Turn.due, List.mem_flatMap, List.forall_mem_map]
  constructor
  · exact fun h g hg a ha => h a ⟨g, hg, ha⟩
  · rintro h a ⟨g, hg, ha⟩
    exact h g hg a ha

/-- A part of a delivery makes these calls, as far as it comes. -/
def Performs (d : Delivery) (x : Except Delivery Delivery) (ps : List (Event × Handler)) : Prop :=
  Records d (left x) (ps.flatMap fun p => p.2.calls p.1) (ps.flatMap fun p => p.2.lines p.1)

theorem Performs.trans {d d' : Delivery} {x : Except Delivery Delivery}
    {ps qs : List (Event × Handler)} (h : Performs d (.ok d') ps) (h' : Performs d' x qs) :
    Performs d x (ps ++ qs) := by
  rw [Performs, List.flatMap_append, List.flatMap_append]
  exact Records.trans h h'

section Calls

variable {as : Ledger Handler} {d : Delivery}

theorem performs_call (d : Delivery) (e : Event) (h : Handler) :
    Performs d (d.call e h) [(e, h)] := by
  rw [Performs, List.flatMap_singleton, List.flatMap_singleton]
  exact records_call d e h

theorem performs_calls (hd : Kept as d) (e : Event) (hs : List Handler) :
    Performs d (hs.foldlM (fun d h => d.call e h) d) (reached (hs.map (e, ·))) := by
  induction hs generalizing as d with
  | nil => exact .refl d
  | cons h hs ih =>
    have hcall := performs_call d e h
    have htries := hd.call e h
    rw [List.foldlM_cons, List.map_cons, reached]
    cases hx : d.call e h with
    | ok d' =>
      rw [hx] at hcall htries
      obtain ⟨hall, hkept⟩ := htries.all_kept
      rw [if_pos hall]
      exact hcall.trans (ih hkept)
    | error d' =>
      rw [hx] at hcall htries
      rw [if_neg htries.not_allUsable]
      exact hcall

/-- An event has its turn with the handlers of the successful registrations. -/
theorem performs_deliver (hd : Kept as d) (e : Event) :
    Performs d ((d.deliver e).map Prod.fst) (reached (Turn.due ⟨as.successful, e⟩)) := by
  have horder : d.registry.order e.topic = Turn.handlers ⟨as.successful, e⟩ :=
    hd.built.order_eq e.topic
  rw [Delivery.deliver, horder, Turn.due]
  cases hhs : Turn.handlers ⟨as.successful, e⟩ with
  | nil => exact (Records.refl d).log (by simp [unhandled])
  | cons h hs =>
    have hcalls := performs_calls hd e (h :: hs)
    simp only
    cases hx : (h :: hs).foldlM (fun d h => d.call e h) d with
    | ok d' =>
      rw [hx] at hcalls
      exact hcalls
    | error d' =>
      rw [hx] at hcalls
      exact hcalls

theorem performs_deliverAll (hd : Kept as d) (es : List Event) :
    Performs d ((d.deliverAll es).map Prod.fst)
      (reached ((as.successful.turns es).flatMap Turn.due)) := by
  induction es generalizing as d with
  | nil => exact .refl d
  | cons e es ih =>
    have hturn := performs_deliver hd e
    have htries := hd.deliver e
    rw [map_fst_deliverAll_cons, turns, List.flatMap_cons]
    cases hx : (d.deliver e).map Prod.fst with
    | ok d' =>
      rw [hx] at hturn htries
      obtain ⟨hall, hkept⟩ := htries.all_kept
      have hdue := allUsable_made_iff.1 hall
      have hrest := ih hkept
      rw [successful_append, successful_of_allUsable hall] at hrest
      rw [← List.append_nil (Turn.due _), reached_append_of_forall hdue, reached,
        List.append_nil] at hturn
      rw [reached_append_of_forall hdue]
      exact hturn.trans hrest
    | error d' =>
      rw [hx] at hturn htries
      rw [reached_append_of_not_forall (mt allUsable_made_iff.2 htries.not_allUsable)]
      exact hturn

def performed (as : Ledger Handler) (batch : List Event) : List (Event × Handler) :=
  reached ((as.successful.turns batch.reverse).flatMap Turn.due)

/-- What a dispatch calls, even if it is broken off, follows from the registrations tried before. -/
theorem performs_dispatch (hd : Kept as d) (batch : List Event) :
    Performs d ((d.dispatch batch).map Prod.fst) (performed as batch) :=
  performs_deliverAll hd batch.reverse

end Calls

end Delivery

end TopicClient
