import TopicClient.Proofs.Registry.Representation
import TopicClient.Proofs.Registry.Turns

/-!
# Registrations that may fail

A registration fails if its key nests too deeply, and what it is part of is broken off. Here a
ledger lists the registrations tried, whether they succeed or fail. `Kept` says what a delivery
holds after them: the registry of the successful ones, and in its log one report on every key among
them that is an unreadable pattern. `Tries` says that a part of a delivery tries the registrations
of a list, up to the first that fails, and `kept_dispatch` what that comes to for a whole batch.
-/

namespace TopicClient

namespace Glob

def Compiled.isUsable : Compiled → Bool
  | .tooDeep => false
  | _ => true

theorem Compiled.isUsable_iff {c : Compiled} : c.isUsable = true ↔ c ≠ .tooDeep := by
  cases c <;> simp [isUsable]

end Glob

namespace Registry

def WarnsOf (key : String) (r : Log.Record) : Prop :=
  r.source = .events ∧ r.message = "Invalid glob pattern, matching it literally" ∧
    ("key", .quoted key) ∈ r.fields

instance (key : String) (r : Log.Record) : Decidable (WarnsOf key r) :=
  inferInstanceAs (Decidable (_ ∧ _ ∧ _))

theorem warnsOf_unreadableKey_iff {key key' : String} {cause : Glob.SyntaxError} :
    WarnsOf key' (unreadableKey key cause) ↔ key' = key := by
  simp [WarnsOf, unreadableKey]

/-- What is logged when a handler is registered under a key: a new one that is an unreadable pattern
is reported. -/
def reports {H : Type} (r : Registry H) (key : String) : List Log.Record :=
  match r.find? key, Glob.compile key with
  | none, .invalid cause => [unreadableKey key cause]
  | _, _ => []

end Registry

namespace Ledger

variable {H : Type}

def successful (as : Ledger H) : Ledger H := as.filter fun a => (Glob.compile a.1).isUsable

/-- Of registrations made one after the other, those that are tried: none after one that fails. -/
def tried : Ledger H → Ledger H
  | [] => []
  | a :: as => if (Glob.compile a.1).isUsable then a :: tried as else [a]

def AllUsable (as : Ledger H) : Prop := ∀ a ∈ as, (Glob.compile a.1).isUsable = true

def warnings (l : Ledger H) (key : String) : List Log.Record :=
  match Glob.compile key with
  | .invalid cause => if key ∈ l.keys then [Registry.unreadableKey key cause] else []
  | _ => []

theorem successful_append (as bs : Ledger H) :
    successful (as ++ bs) = as.successful ++ bs.successful :=
  List.filter_append as bs

theorem successful_of_allUsable {as : Ledger H} (h : AllUsable as) : as.successful = as :=
  List.filter_eq_self.2 h

theorem allUsable_append {as bs : Ledger H} :
    AllUsable (as ++ bs) ↔ AllUsable as ∧ AllUsable bs := by
  simp only [AllUsable, List.forall_mem_append]

theorem tried_singleton (a : String × H) : tried [a] = [a] := by simp [tried]

theorem tried_of_allUsable {as : Ledger H} (h : AllUsable as) : as.tried = as := by
  induction as with
  | nil => rfl
  | cons a as ih =>
    obtain ⟨ha, has⟩ := List.forall_mem_cons.1 h
    rw [tried, if_pos ha, ih has]

theorem tried_append_of_allUsable {as : Ledger H} (h : AllUsable as) (bs : Ledger H) :
    tried (as ++ bs) = as ++ bs.tried := by
  induction as with
  | nil => rfl
  | cons a as ih =>
    obtain ⟨ha, has⟩ := List.forall_mem_cons.1 h
    rw [List.cons_append, tried, if_pos ha, ih has, List.cons_append]

theorem tried_append_of_not_allUsable {as : Ledger H} (h : ¬ AllUsable as) (bs : Ledger H) :
    tried (as ++ bs) = as.tried := by
  induction as with
  | nil => exact absurd nofun h
  | cons a as ih =>
    by_cases ha : (Glob.compile a.1).isUsable = true
    · have has : ¬ AllUsable as := fun has => h (List.forall_mem_cons.2 ⟨ha, has⟩)
      rw [List.cons_append, tried, tried, if_pos ha, if_pos ha, ih has]
    · rw [List.cons_append, tried, tried, if_neg ha, if_neg ha]

theorem warnings_of_not_mem {l : Ledger H} {key : String} (hk : key ∉ l.keys) :
    l.warnings key = [] := by
  rw [warnings]
  split
  · rw [if_neg hk]
  · rfl

theorem warnings_concat_of_ne (l : Ledger H) {key key' : String} (hne : key' ≠ key) (h : H) :
    warnings (l ++ [(key, h)]) key' = l.warnings key' := by
  have hiff : key' ∈ keys (l ++ [(key, h)]) ↔ key' ∈ l.keys := by
    rw [keys_concat]
    split_ifs <;> simp [hne]
  simp only [warnings, hiff]

theorem warnings_concat_self (l : Ledger H) (key : String) (h : H) :
    warnings (l ++ [(key, h)]) key =
      match Glob.compile key with
      | .invalid cause => [Registry.unreadableKey key cause]
      | _ => [] := by
  have hmem : key ∈ keys (l ++ [(key, h)]) := mem_keys_iff.2 ⟨h, by simp⟩
  simp only [warnings, if_pos hmem]

end Ledger

namespace Delivery

open Ledger

def warnings (d : Delivery) (key : String) : List Log.Record :=
  d.logs.filter fun r => Registry.WarnsOf key r

def left : Except Delivery Delivery → Delivery
  | .ok d => d
  | .error d => d

structure Kept (as : Ledger Handler) (d : Delivery) : Prop where
  built : Registry.Built as.successful d.registry
  warnings_eq : ∀ key, d.warnings key = as.successful.warnings key

/-- The outcome of trying further registrations: it is a success if all their keys can be used, and
else leaves the state in which the first has failed. -/
structure Tries (as bs : Ledger Handler) (x : Except Delivery Delivery) : Prop where
  kept : Kept (as ++ bs.tried) (left x)
  exists_ok_iff : (∃ d, x = .ok d) ↔ AllUsable bs

variable {as bs cs : Ledger Handler} {d : Delivery} {x : Except Delivery Delivery}

theorem kept_empty : Kept [] { registry := .empty } where
  built := .empty
  warnings_eq _ := (warnings_of_not_mem List.not_mem_nil).symm

theorem Kept.log (hd : Kept as d) {r : Log.Record} (hr : ∀ key, ¬ Registry.WarnsOf key r) :
    Kept as (d.log r) where
  built := hd.built
  warnings_eq key := by
    rw [← hd.warnings_eq]
    simp [warnings, Delivery.log, hr]

theorem Kept.tries (hd : Kept as d) : Tries as [] (.ok d) where
  kept := by rwa [tried, List.append_nil]
  exists_ok_iff := ⟨fun _ => nofun, fun _ => ⟨d, rfl⟩⟩

theorem Tries.all_kept (h : Tries as bs (.ok d)) : AllUsable bs ∧ Kept (as ++ bs) d := by
  have hbs : AllUsable bs := h.exists_ok_iff.1 ⟨d, rfl⟩
  have hkept := h.kept
  rw [tried_of_allUsable hbs] at hkept
  exact ⟨hbs, hkept⟩

theorem Tries.not_allUsable (h : Tries as bs (.error d)) : ¬ AllUsable bs :=
  mt h.exists_ok_iff.2 nofun

theorem Tries.bind (h : Tries as bs x) {f : Delivery → Except Delivery Delivery}
    (hf : ∀ d, AllUsable bs → Kept (as ++ bs) d → Tries (as ++ bs) cs (f d)) :
    Tries as (bs ++ cs) (x >>= f) := by
  cases x with
  | ok d =>
    obtain ⟨hbs, hd⟩ := h.all_kept
    have hcs : Tries (as ++ bs) cs (f d) := hf d hbs hd
    refine ⟨?_, ?_⟩
    · rw [tried_append_of_allUsable hbs, ← List.append_assoc]
      exact hcs.kept
    · rw [allUsable_append]
      exact hcs.exists_ok_iff.trans ⟨fun hall => ⟨hbs, hall⟩, And.right⟩
  | error d =>
    have hbs : ¬ AllUsable bs := h.not_allUsable
    refine ⟨?_, ?_⟩
    · rw [tried_append_of_not_allUsable hbs]
      exact h.kept
    · refine ⟨?_, fun hall => absurd (allUsable_append.1 hall).1 hbs⟩
      rintro ⟨d', hd'⟩
      cases hd'

/-- A registration under a key that cannot be used changes nothing. -/
theorem register_eq_error {l : Ledger Handler} (hd : Registry.Built l d.registry) {key : String}
    (hc : Glob.compile key = .tooDeep) (h : Handler) : d.register key h = .error d := by
  have hnone : (d.registry.register key h).result? = none :=
    hd.result?_register_eq_none_iff_tooDeep.2 hc
  unfold register
  cases hr : d.registry.register key h with
  | done registry =>
    rw [hr] at hnone
    cases hnone
  | literal registry cause =>
    rw [hr] at hnone
    cases hnone
  | refused => rfl

/-- Any other registration succeeds, with a report if there is need of one. -/
theorem exists_register_eq_ok (d : Delivery) {key : String} (hc : Glob.compile key ≠ .tooDeep)
    (h : Handler) :
    ∃ registry, (d.registry.register key h).result? = some registry ∧
      d.register key h =
        .ok { d with registry, logs := d.logs ++ d.registry.reports key } := by
  unfold register Registry.register Registry.reports
  cases hf : d.registry.find? key with
  | some e => exact ⟨_, rfl, by simp⟩
  | none =>
    cases hcompile : Glob.compile key with
    | literal => exact ⟨_, rfl, by simp⟩
    | glob pattern => exact ⟨_, rfl, by simp⟩
    | invalid cause => exact ⟨_, rfl, rfl⟩
    | tooDeep => exact absurd hcompile hc

/-- The report on a key comes with its first registration. -/
theorem warnings_reports {l : Ledger Handler} {r : Registry Handler} (hb : Registry.Built l r)
    (key : String) (h : Handler) (key' : String) :
    l.warnings key' ++ (r.reports key).filter (fun record => Registry.WarnsOf key' record) =
      Ledger.warnings (l ++ [(key, h)]) key' := by
  have hfind : r.find? key = none ↔ key ∉ l.keys := by
    rw [← hb.mem_map_key_iff, ← Registry.find?_isSome_iff]
    simp
  by_cases hne : key' = key
  · subst hne
    rw [warnings_concat_self]
    by_cases hk : key' ∈ l.keys
    · obtain ⟨e, he⟩ := Option.ne_none_iff_exists'.1 (mt hfind.1 (not_not.2 hk))
      simp [Ledger.warnings, Registry.reports, he, hk]
    · rw [warnings_of_not_mem hk, Registry.reports, hfind.2 hk]
      cases Glob.compile key' <;> simp [Registry.warnsOf_unreadableKey_iff]
  · rw [warnings_concat_of_ne l hne]
    unfold Registry.reports
    split
    · simp [Registry.warnsOf_unreadableKey_iff, hne]
    · simp

theorem Kept.register (hd : Kept as d) (key : String) (h : Handler) :
    Tries as [(key, h)] (d.register key h) := by
  by_cases hc : Glob.compile key = .tooDeep
  · have husable : (Glob.compile key).isUsable = false := by rw [hc]; rfl
    rw [register_eq_error hd.built hc]
    refine ⟨?_, ?_⟩
    · have hsuccessful : successful (as ++ tried [(key, h)]) = as.successful := by
        rw [successful_append]
        simp [tried, successful, husable]
      refine ⟨?_, ?_⟩
      · rw [hsuccessful]
        exact hd.built
      · rw [hsuccessful]
        exact hd.warnings_eq
    · simp [AllUsable, husable]
  · have husable : (Glob.compile key).isUsable = true := Glob.Compiled.isUsable_iff.2 hc
    obtain ⟨registry, hr, heq⟩ := exists_register_eq_ok d hc h
    rw [heq]
    refine ⟨?_, ?_⟩
    · have hsuccessful : successful (as ++ tried [(key, h)]) = as.successful ++ [(key, h)] := by
        rw [successful_append]
        simp [tried, successful, husable]
      refine ⟨?_, fun key' => ?_⟩
      · rw [hsuccessful]
        exact hd.built.registered hr
      · rw [hsuccessful, ← warnings_reports hd.built, ← hd.warnings_eq]
        exact List.filter_append _ _
    · simp [AllUsable, husable]

theorem not_warnsOf_of_message {r : Log.Record}
    (hr : r.message ≠ "Invalid glob pattern, matching it literally") (key : String) :
    ¬ Registry.WarnsOf key r :=
  fun h => hr h.2.1

theorem not_warnsOf_of_source {r : Log.Record} (hr : r.source ≠ .events) (key : String) :
    ¬ Registry.WarnsOf key r :=
  fun h => hr h.1

theorem Kept.subscribe (hd : Kept as d) (key : String) (authLevel : UInt8) (h : Handler) :
    Tries as [(key, h)] (d.subscribe key authLevel h) := by
  have hlog : ∀ d, AllUsable [(key, h)] → Kept (as ++ [(key, h)]) d →
      Tries (as ++ [(key, h)]) [] (.ok (d.log (registered key authLevel))) :=
    fun d _ hd => (hd.log (not_warnsOf_of_message (by simp [registered]))).tries
  exact (hd.register key h).bind hlog

theorem Kept.followUp (hd : Kept as d) (f : FollowUp) :
    Tries as [(f.key, f.handler)] (d.followUp f) := by
  cases f with
  | register key h => exact hd.register key h
  | subscribe key h => exact hd.subscribe key 0 h

theorem Kept.foldlM {α : Type} {step : Delivery → α → Except Delivery Delivery}
    {tries : α → Ledger Handler}
    (hstep : ∀ {as d}, Kept as d → ∀ a, Tries as (tries a) (step d a)) (hd : Kept as d)
    (xs : List α) : Tries as (xs.flatMap tries) (xs.foldlM step d) := by
  induction xs generalizing as d with
  | nil => exact hd.tries
  | cons a xs ih =>
    rw [List.foldlM_cons, List.flatMap_cons]
    exact (hstep hd a).bind fun d _ hd => ih hd

theorem Kept.call (hd : Kept as d) (e : Event) (h : Handler) : Tries as h.made (d.call e h) := by
  cases h with
  | logging => exact (hd.log (not_warnsOf_of_source (by simp))).tries
  | recording name followUps =>
    have hcalls : Kept as { d with calls := d.calls ++ [⟨name, e.topic, e.payload⟩] } :=
      ⟨hd.built, hd.warnings_eq⟩
    have htries := hcalls.foldlM Kept.followUp followUps
    rwa [← List.map_eq_flatMap] at htries

/-- An event has its turn with the handlers of the successful registrations. -/
theorem Kept.deliver (hd : Kept as d) (e : Event) :
    Tries as (Turn.made ⟨as.successful, e⟩) ((d.deliver e).map Prod.fst) := by
  have horder : d.registry.order e.topic = Turn.handlers ⟨as.successful, e⟩ :=
    hd.built.order_eq e.topic
  rw [Delivery.deliver, horder, Turn.made]
  cases hhs : Turn.handlers ⟨as.successful, e⟩ with
  | nil => exact (hd.log (not_warnsOf_of_message (by simp [unhandled]))).tries
  | cons h hs =>
    have htries := hd.foldlM (fun hd h => Kept.call hd e h) (h :: hs)
    convert htries using 1
    simp only
    cases (h :: hs).foldlM (fun d h => d.call e h) d <;> rfl

/-- But for the count, a delivery of events is one turn after the other. -/
theorem map_fst_deliverAll_cons (d : Delivery) (e : Event) (es : List Event) :
    (d.deliverAll (e :: es)).map Prod.fst =
      (d.deliver e).map Prod.fst >>= fun d => (d.deliverAll es).map Prod.fst := by
  rw [Delivery.deliverAll]
  rcases d.deliver e with d' | ⟨d', n⟩
  · rfl
  · rcases hes : d'.deliverAll es with d'' | ⟨d'', m⟩
    · simp [bind, Except.bind, Except.map, hes]
    · simp [bind, Except.bind, Except.map, hes, pure, Except.pure]

/-- The registrations that the delivery of events tries. -/
theorem Kept.deliverAll (hd : Kept as d) (es : List Event) :
    Tries as ((as.successful.turns es).flatMap Turn.made) ((d.deliverAll es).map Prod.fst) := by
  induction es generalizing as d with
  | nil => exact hd.tries
  | cons e es ih =>
    rw [map_fst_deliverAll_cons, turns, List.flatMap_cons]
    refine (hd.deliver e).bind fun d' hall hd' => ?_
    have hrest := ih hd'
    rwa [successful_append, successful_of_allUsable hall] at hrest

def attempts (as : Ledger Handler) (batch : List Event) : Ledger Handler :=
  tried ((as.successful.turns batch.reverse).flatMap Turn.made)

theorem kept_dispatch (hd : Kept as d) (batch : List Event) :
    Kept (as ++ attempts as batch) (left ((d.dispatch batch).map Prod.fst)) :=
  (hd.deliverAll batch.reverse).kept

end Delivery

end TopicClient
