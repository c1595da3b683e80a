import Mathlib.Data.List.TakeDrop
import Mathlib.Data.List.TakeWhile
import TopicClient.Proofs.CommandLine.Reading

/-!
# Shared switches

The switches that every command knows, each as it is written on a command line (`Given`), and what
reading one does to a level (`readLevel?_words`): it is the same for every level, wherever the
switch stands in it.
-/

namespace TopicClient.CommandLine

structure Given where
  switch : Switch
  shared : switch ∈ Switch.shared
  value : String
  attached : Bool

namespace Given

def words (g : Given) : List String :=
  if g.switch.takesValue then
    if g.attached then ["--" ++ g.switch.long ++ "=" ++ g.value]
    else ["--" ++ g.switch.long, g.value]
  else ["--" ++ g.switch.long]

/-- What it sets its switch to, if it can be read. What looks like a switch itself cannot follow. -/
def read? (g : Given) : Option Value :=
  if g.switch.takesValue then
    if g.attached ∨ Shape.of g.value = .plain then (g.switch.read g.value).toOption else none
  else some (.flag true)

def setting? (g : Given) : Option Setting := g.read?.map fun v => ⟨g.switch, v, false⟩

theorem switch_of_setting? {g : Given} {t : Setting} (h : g.setting? = some t) :
    t.switch = g.switch ∧ t.fromEnvironment = false := by
  obtain ⟨v, -, rfl⟩ := Option.map_eq_some_iff.1 h
  exact ⟨rfl, rfl⟩

end Given

def Readable (gs : List Given) : Prop := ∀ g ∈ gs, g.read?.isSome = true

instance (gs : List Given) : Decidable (Readable gs) :=
  List.decidableBAll (fun g : Given => g.read?.isSome = true) gs

theorem readable_cons {g : Given} {gs : List Given} :
    Readable (g :: gs) ↔ g.setting?.isSome = true ∧ Readable gs := by
  rw [Given.setting?, Option.isSome_map]
  exact List.forall_mem_cons

theorem Switch.shape_long (s : Switch) : Shape.of ("--" ++ s.long) = .long s.long none := by
  cases s <;> decide +kernel

theorem Switch.ne_of_mem_long (s : Switch) : ∀ c ∈ s.long.toList, decide (c ≠ '=') = true :=
  List.all_eq_true.1 (by cases s <;> decide +kernel)

theorem Switch.shape_attached (s : Switch) (value : String) :
    Shape.of ("--" ++ s.long ++ "=" ++ value) = .long s.long (some value) := by
  have hspan : (s.long.toList ++ '=' :: value.toList).span (· ≠ '=') =
      (s.long.toList, '=' :: value.toList) := by
    rw [List.span_eq_takeWhile_dropWhile, List.takeWhile_append_of_pos s.ne_of_mem_long,
      List.dropWhile_append_of_pos s.ne_of_mem_long]
    simp
  have htext : ("--" ++ s.long ++ "=" ++ value).toList =
      '-' :: '-' :: (s.long.toList ++ '=' :: value.toList) := by
    simp
  rw [Shape.of, htext]
  cases hcs : s.long.toList ++ '=' :: value.toList with
  | nil => simp at hcs
  | cons c cs =>
    rw [hcs] at hspan
    simp only [hspan, String.ofList_toList]

theorem Level.findLong?_of_mem (l : Level) {s : Switch} (h : s ∈ Switch.shared) :
    l.findLong? s.long = some s := by
  cases l with
  | top => cases s <;> first | rfl | exact absurd h (by decide)
  | command verb => cases verb <;> cases s <;> first | rfl | exact absurd h (by decide)

section Reading

variable {l : Level} {r : Reading} {s : Switch}

theorem toOption_add (value : Except NumberError Value) (text : String) (h : r.has s = false) :
    (r.add s value text).toOption =
      value.toOption.map fun v => { r with settings := r.settings ++ [⟨s, v, false⟩] } := by
  unfold Reading.add
  rw [h]
  cases value <;> rfl

theorem readArgument_long (hs : s ∈ Switch.shared) {arg : String} {attached : Option String}
    (hshape : Shape.of arg = .long s.long attached)
    (hattached : (attached.isNone || s.takesValue) = true) :
    (readArgument l r arg).toOption = (r.meet s attached).toOption := by
  rw [readArgument_of_isSwitch (hshape ▸ rfl), hshape, Shape.met?, l.findLong?_of_mem hs,
    Option.bind_some, if_pos hattached, Option.bind_some]

theorem readLevel?_long (hs : s ∈ Switch.shared) {arg : String} {attached : Option String}
    (hshape : Shape.of arg = .long s.long attached)
    (hattached : (attached.isNone || s.takesValue) = true) (args : List String) :
    readLevel? l false r (arg :: args) =
      (r.meet s attached).toOption.bind fun r => readLevel? l false r args := by
  rw [readLevel?_cons (startsCommand?_of_shape r (hshape ▸ nofun)) (hshape ▸ nofun),
    readArgument_long hs hshape hattached]

/-- A switch that waits for its value takes what follows it, unless that looks like a switch. -/
theorem readLevel?_value (hr : r.pending = none) (hnew : r.has s = false) (value : String)
    (args : List String) :
    readLevel? l false { r with pending := some (s, none) } (value :: args) =
      (if Shape.of value = .plain then (s.read value).toOption else none).bind fun v =>
        readLevel? l false { r with settings := r.settings ++ [⟨s, v, false⟩] } args := by
  have hstarts : startsCommand? l { r with pending := some (s, none) } value = none :=
    startsCommand?_of_awaitsValue rfl
  by_cases hplain : Shape.of value = .plain
  · rw [if_pos hplain, readLevel?_cons hstarts (hplain ▸ nofun), readArgument_plain hplain rfl]
    have hsettle : { r with pending := some (s, some value) }.settle =
        r.add s (s.read value) value := by
      rw [Reading.settle, ← hr]
    have hadd := toOption_add (s.read value) value hnew
    rw [← hsettle] at hadd
    cases hread : s.read value with
    | error cause =>
      rw [hread] at hadd
      exact readLevel?_of_unsettled hadd (.inr rfl) args
    | ok v =>
      rw [hread] at hadd
      exact readLevel?_of_settle (eq_ok_of_toOption hadd) false args
  · rw [if_neg hplain]
    by_cases hdivider : Shape.of value = .divider
    · rw [readLevel?_divider hdivider]
      exact readLevel?_of_unsettled rfl (.inl rfl) args
    · rw [readLevel?_cons hstarts hdivider, readArgument_of_unsettled rfl (.inr hplain) hdivider]
      rfl

theorem readLevel?_words (g : Given) (hr : r.pending = none) (hnew : r.has g.switch = false)
    (args : List String) :
    readLevel? l false r (g.words ++ args) = g.setting?.bind fun t =>
      readLevel? l false { r with settings := r.settings ++ [t] } args := by
  have hsettle := Reading.settle_of_pending hr
  unfold Given.words Given.setting? Given.read?
  cases htakes : g.switch.takesValue with
  | false =>
    have hmeet : r.meet g.switch none = r.add g.switch (.ok (.flag true)) "" := by
      rw [Reading.meet, hsettle, htakes]
      rfl
    rw [if_neg Bool.false_ne_true, if_neg Bool.false_ne_true, List.singleton_append,
      readLevel?_long g.shared g.switch.shape_long rfl, hmeet, toOption_add _ _ hnew]
    rfl
  | true =>
    rw [if_pos rfl, if_pos rfl]
    cases g.attached with
    | true =>
      have hmeet : r.meet g.switch (some g.value) =
          r.add g.switch (g.switch.read g.value) g.value := by
        rw [Reading.meet, hsettle, htakes]
        rfl
      rw [if_pos rfl, List.singleton_append,
        readLevel?_long g.shared (g.switch.shape_attached g.value) htakes, hmeet,
        if_pos (.inl rfl)]
      rw [toOption_add _ _ hnew, Option.bind_map, Option.bind_map]
      rfl
    | false =>
      have hmeet : r.meet g.switch none = .ok { r with pending := some (g.switch, none) } := by
        rw [Reading.meet, hsettle, htakes]
        rfl
      rw [if_neg Bool.false_ne_true, List.cons_append, List.singleton_append,
        readLevel?_long g.shared g.switch.shape_long rfl, hmeet]
      simp only [Bool.false_eq_true, false_or]
      rw [Option.bind_map]
      exact readLevel?_value hr hnew g.value args

/-- Shared switches set what they say, if all of them can be read and none is given twice. -/
theorem readLevel?_options {gs : List Given} (hr : r.pending = none)
    (hnew : ∀ g ∈ gs, r.has g.switch = false) (hnodup : (gs.map (·.switch)).Nodup)
    (args : List String) :
    readLevel? l false r (gs.flatMap Given.words ++ args) =
      if Readable gs then
        readLevel? l false { r with settings := r.settings ++ gs.filterMap Given.setting? } args
      else none := by
  induction gs generalizing r with
  | nil => simp [Readable]
  | cons g gs ih =>
    obtain ⟨hnewg, hnew⟩ := List.forall_mem_cons.1 hnew
    obtain ⟨hnotMem, hnodup⟩ := List.nodup_cons.1 hnodup
    rw [List.flatMap_cons, List.append_assoc, readLevel?_words g hr hnewg]
    cases hsetting : g.setting? with
    | none => simp [readable_cons, hsetting]
    | some t =>
      have hfresh : ∀ g' ∈ gs,
          { r with settings := r.settings ++ [t] }.has g'.switch = false := by
        intro g' hg'
        have hne : t.switch ≠ g'.switch := by
          rw [(Given.switch_of_setting? hsetting).1]
          exact fun heq => hnotMem (List.mem_map.2 ⟨g', hg', heq.symm⟩)
        rw [Reading.has_eq_false_iff, Reading.given_concat, if_neg hne, List.append_nil]
        exact Reading.has_eq_false_iff.1 (hnew g' hg')
      rw [Option.bind_some, ih (r := { r with settings := r.settings ++ [t] }) hr hfresh hnodup]
      simp [readable_cons, hsetting]

end Reading

end TopicClient.CommandLine
