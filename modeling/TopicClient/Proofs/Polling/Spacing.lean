import Mathlib.Data.List.Chain
import Mathlib.Logic.Function.Basic
import TopicClient.Proofs.Polling.Schedule

/-!
# How far apart the calls of the loop are

A timer that is looked at late is set ahead by a whole period, so a slow call is never made up for.
As long as nothing coincides and no call takes longer than some delay, the loop keeps its pace
(`KeepsPace`): from one poll to the next, and from one sign of life to the next, it is a period, but
for the tolerance of the timers below it and for one call above it.

The invariant `OnPace` relates the deadlines of the timers to the moments at which their tasks were
last begun. `Pace` is what it says of the turns that are taken.
-/

namespace TopicClient.Polling

open Client

def starts (task : Task) (turns : List Turn) : List ℕ :=
  (turns.filter fun turn => turn.task = task).map fun turn => turn.start

/-- When a task was begun last; the loop itself begins at 0. -/
def lastStart (task : Task) (turns : List Turn) : ℕ := (starts task turns).getLastD 0

/-- Two moments are a period apart, less the tolerance or more by a delay. -/
def Apart (period delay : ℕ) (moment later : ℕ) : Prop :=
  moment + period ≤ later + Timer.tolerance ∧ later ≤ moment + period + delay

def periodOf (poll keepAlive : ℕ) : Task → ℕ
  | .poll => poll
  | .keepAlive => keepAlive

/-- Each turn begins in time after the turn of its task before it, and none begins while a task has
been waiting for longer than a call takes. -/
def Pace (period : Task → ℕ) (delay : ℕ) : (Task → ℕ) → List Turn → Prop
  | _, [] => True
  | last, turn :: turns =>
    (∀ task, turn.start ≤ last task + period task + delay) ∧
      last turn.task + period turn.task ≤ turn.start + Timer.tolerance ∧
      Pace period delay (Function.update last turn.task turn.start) turns

section Turns

variable {period : Task → ℕ} {delay : ℕ} {last : Task → ℕ} {turns : List Turn} {task : Task}

theorem starts_cons (task : Task) (turn : Turn) (turns : List Turn) :
    starts task (turn :: turns) =
      if turn.task = task then turn.start :: starts task turns else starts task turns := by
  rw [starts, List.filter_cons]
  split_ifs with h
  · rfl
  · exact absurd (of_decide_eq_true h) ‹_›
  · exact absurd (decide_eq_true ‹_›) h
  · rfl

/-- The turns of one task are apart from each other, and the first of them from the one before. -/
theorem Pace.isChain (h : Pace period delay last turns) (task : Task) :
    (last task :: starts task turns).IsChain (Apart (period task) delay) := by
  induction turns generalizing last with
  | nil => exact .singleton _
  | cons turn turns ih =>
    obtain ⟨hlate, hearly, hrest⟩ := h
    have hchain := ih hrest
    rw [starts_cons]
    split_ifs with htask
    · subst htask
      rw [Function.update_self] at hchain
      exact .cons_cons ⟨hearly, hlate _⟩ hchain
    · rwa [Function.update_of_ne (Ne.symm htask)] at hchain

theorem getLastD_starts_cons (last : Task → ℕ) (turn : Turn) (turns : List Turn) (task : Task) :
    (starts task (turn :: turns)).getLastD (last task) =
      (starts task turns).getLastD (Function.update last turn.task turn.start task) := by
  rw [starts_cons]
  split_ifs with htask
  · subst htask
    rw [Function.update_self, List.getLastD_cons]
  · rw [Function.update_of_ne (Ne.symm htask)]

/-- No turn begins while a task has been waiting for longer than a call takes. -/
theorem Pace.start_le {before after : List Turn} {turn : Turn}
    (h : Pace period delay last (before ++ turn :: after)) (task : Task) :
    turn.start ≤ (starts task before).getLastD (last task) + period task + delay := by
  induction before generalizing last with
  | nil => exact h.1 task
  | cons first before ih =>
    rw [getLastD_starts_cons]
    exact ih h.2.2

end Turns

/-! ## The invariant -/

def Task.branch : Task → Branch
  | .poll => .poll
  | .keepAlive => .keepAlive

theorem Task.branch_injective : Function.Injective Task.branch := by
  intro task task' h
  cases task <;> cases task' <;> first | rfl | cases h

theorem Task.branch_ne_shutdown (task : Task) : task.branch ≠ .shutdown := by
  cases task <;> decide

namespace Timer

structure OnPace (timer : Timer) (period delay now last : ℕ) : Prop where
  period_eq : timer.period = period
  deadline_le : timer.deadline ≤ last + period
  le_deadline : last + period ≤ timer.deadline + tolerance
  now_le : now ≤ last + period + delay

variable {timer : Timer} {period delay now last moment duration : ℕ}

theorem onPace_of_deadline_eq (hperiod : timer.period = period)
    (hdeadline : timer.deadline = last + period) (hnow : now ≤ last + period + delay) :
    timer.OnPace period delay now last :=
  ⟨hperiod, hdeadline.le, hdeadline.ge.trans (Nat.le_add_right _ _), hnow⟩

/-- A timer that is looked at in time, or a little late, keeps its pace; one that is looked at too
late is set ahead from then on. -/
theorem OnPace.take (h : timer.OnPace period delay now last) (hdue : timer.deadline ≤ moment)
    (hduration : duration ≤ delay) :
    (timer.take moment).OnPace period delay (moment + duration) moment := by
  have hperiod := h.period_eq
  have hlate : (timer.take moment).deadline =
      if timer.deadline + tolerance < moment then moment + timer.period
      else timer.deadline + timer.period := rfl
  refine ⟨h.period_eq, ?_, ?_, by omega⟩
  · split_ifs at hlate <;> omega
  · split_ifs at hlate <;> omega

/-- A timer that is not due yet has one call at most to wait for. -/
theorem OnPace.wait (h : timer.OnPace period delay now last) (hwaits : moment < timer.deadline)
    (hduration : duration ≤ delay) : timer.OnPace period delay (moment + duration) last := by
  have hdeadline := h.deadline_le
  exact ⟨h.period_eq, h.deadline_le, h.le_deadline, by omega⟩

end Timer

namespace Timers

def timer (t : Timers) : Task → Timer
  | .poll => t.poll
  | .keepAlive => t.keepAlive

def OnPace (period : Task → ℕ) (delay : ℕ) (t : Timers) (now : ℕ) (last : Task → ℕ) : Prop :=
  ∀ task, (t.timer task).OnPace (period task) delay now (last task)

section Steps

variable {period : Task → ℕ} {delay : ℕ} {t : Timers} {now : ℕ} {last : Task → ℕ}
  {shutdown : Option ℕ} {duration : ℕ} {durations : List ℕ}

theorem timer_take_self (t : Timers) (moment : ℕ) (task : Task) :
    (t.take moment task).timer task = (t.timer task).take moment := by
  cases task <;> rfl

theorem timer_take_of_ne (t : Timers) (moment : ℕ) {task task' : Task} (h : task' ≠ task) :
    (t.take moment task).timer task' = t.timer task' := by
  cases task <;> cases task' <;> first | exact absurd rfl h | rfl

theorem isDue_turn (t : Timers) (now : ℕ) :
    (t.timer (t.turn now).1).deadline ≤ t.soonest now := by
  rcases deadlines_take (due?_turn t now) with ⟨htask, hdue, -⟩ | ⟨htask, hdue, -⟩
  · rw [htask]
    exact hdue
  · rw [htask]
    exact hdue

theorem now_le_soonest (t : Timers) (now : ℕ) : now ≤ t.soonest now := Nat.le_max_left _ _

theorem wakes_of_running (h : ∀ told, shutdown = some told → t.soonest now < told) :
    t.wakes shutdown now = t.soonest now := by
  cases shutdown with
  | none => rfl
  | some told => exact min_eq_left ((h told rfl).le.trans (le_max_right _ _))

/-- A loop that is told to stop by then does not wake up for its next turn. -/
theorem wakes_of_told {told : ℕ} (h : told ≤ t.soonest now) :
    t.wakes (some told) now = max now told :=
  min_eq_right (max_le (t.now_le_soonest now) h)

theorem branch_mem_ready (task : Task) (moment : ℕ) :
    task.branch ∈ t.ready shutdown moment ↔ (t.timer task).deadline ≤ moment := by
  cases task <;> simp [ready, Task.branch, timer, Timer.isDue]

theorem shutdown_mem_ready (moment : ℕ) :
    .shutdown ∈ t.ready shutdown moment ↔ shutdown.any (· ≤ moment) = true := by
  simp [ready]

theorem NoTies.eq_of_mem (h : t.NoTies shutdown now (duration :: durations)) {b b' : Branch}
    (hb : b ∈ t.ready shutdown (t.wakes shutdown now))
    (hb' : b' ∈ t.ready shutdown (t.wakes shutdown now)) : b = b' := by
  have hlength := h.1
  revert hb hb' hlength
  generalize t.ready shutdown (t.wakes shutdown now) = ready
  intro hb hb' hlength
  match ready, hlength with
  | [_], _ => exact (List.mem_singleton.1 hb).trans (List.mem_singleton.1 hb').symm

/-- When the loop takes a turn, and nothing coincides, nothing else is due. -/
theorem NoTies.lt_deadline (h : t.NoTies shutdown now (duration :: durations))
    (hrunning : ∀ told, shutdown = some told → t.soonest now < told) {task : Task}
    (htask : task ≠ (t.turn now).1) : t.soonest now < (t.timer task).deadline := by
  by_contra hdue
  have hwakes := wakes_of_running hrunning
  have hturn : (t.turn now).1.branch ∈ t.ready shutdown (t.wakes shutdown now) := by
    rw [hwakes, branch_mem_ready]
    exact t.isDue_turn now
  have hother : task.branch ∈ t.ready shutdown (t.wakes shutdown now) := by
    rw [hwakes, branch_mem_ready]
    exact Nat.le_of_not_lt hdue
  exact htask (Task.branch_injective (h.eq_of_mem hother hturn))

theorem NoTies.rest (h : t.NoTies shutdown now (duration :: durations))
    (hrunning : ∀ told, shutdown = some told → t.soonest now < told) :
    (t.turn now).2.2.NoTies shutdown ((t.turn now).2.1 + duration) durations := by
  refine h.2 fun hready => ?_
  rw [wakes_of_running hrunning, shutdown_mem_ready] at hready
  obtain ⟨told, htold, hle⟩ := (Option.any_eq_true _ _).1 hready
  exact absurd (of_decide_eq_true hle) (Nat.not_le.2 (hrunning told htold))

/-- When the loop is told to stop, and nothing coincides, no task is due. -/
theorem NoTies.max_lt_deadline {told : ℕ} (h : t.NoTies (some told) now (duration :: durations))
    (htold : told ≤ t.soonest now) (task : Task) : max now told < (t.timer task).deadline := by
  by_contra hdue
  have hwakes := wakes_of_told htold
  have hstop : .shutdown ∈ t.ready (some told) (t.wakes (some told) now) := by
    rw [hwakes, shutdown_mem_ready]
    exact decide_eq_true (Nat.le_max_right _ _)
  have htask : task.branch ∈ t.ready (some told) (t.wakes (some told) now) := by
    rw [hwakes, branch_mem_ready]
    exact Nat.le_of_not_lt hdue
  exact Task.branch_ne_shutdown task (h.eq_of_mem htask hstop)

/-- No turn begins while a task has been due for longer than a call takes. -/
theorem OnPace.soonest_le (h : t.OnPace period delay now last) (task : Task) :
    t.soonest now ≤ last task + period task + delay := by
  have hdeadline := (h task).deadline_le
  have hmin : min t.poll.deadline t.keepAlive.deadline ≤ (t.timer task).deadline := by
    cases task with
    | poll => exact Nat.min_le_left _ _
    | keepAlive => exact Nat.min_le_right _ _
  exact max_le (h task).now_le (by omega)

theorem OnPace.le_soonest (h : t.OnPace period delay now last) :
    last (t.turn now).1 + period (t.turn now).1 ≤ t.soonest now + Timer.tolerance :=
  (h _).le_deadline.trans (Nat.add_le_add_right (t.isDue_turn now) _)

/-- A turn keeps the pace if nothing else is due when it is taken. -/
theorem OnPace.turn (h : t.OnPace period delay now last) (hduration : duration ≤ delay)
    (hnone : ∀ task, task ≠ (t.turn now).1 → t.soonest now < (t.timer task).deadline) :
    (t.turn now).2.2.OnPace period delay (t.soonest now + duration)
      (Function.update last (t.turn now).1 (t.soonest now)) := by
  have htake : (t.turn now).2.2 = t.take (t.soonest now) (t.turn now).1 := rfl
  intro task
  by_cases htask : task = (t.turn now).1
  · rw [htask, Function.update_self, htake, timer_take_self]
    exact (h _).take (t.isDue_turn now) hduration
  · rw [Function.update_of_ne htask, htake, timer_take_of_ne _ _ htask]
    exact (h _).wait (hnone task htask) hduration

end Steps

end Timers

/-! ## The loop -/

/-- The loop keeps the pace from wherever its timers do, and when it ends no task is due. -/
theorem Loops.pace {period : Task → ℕ} {delay : ℕ} {t : Timers} {now : ℕ} {last : Task → ℕ}
    {shutdown : Option ℕ} {durations : List ℕ} {c c' : Client} {taken : List (Turn × Client)}
    {ended : Option ℕ}
    (hloops : Loops (fun _ => shutdown) now (t.turns now durations) c taken ended c')
    (hpace : t.OnPace period delay now last) (hties : t.NoTies shutdown now durations)
    (hdelay : ∀ duration ∈ durations, duration ≤ delay) :
    Pace period delay last (taken.map Prod.fst) ∧
      ∀ moment, ended = some moment → ∀ task,
        moment < (starts task (taken.map Prod.fst)).getLastD (last task) + period task := by
  induction durations generalizing t now last c taken with
  | nil =>
    cases hloops
    exact ⟨trivial, nofun⟩
  | cons duration durations ih =>
    rw [Timers.turns_cons] at hloops
    obtain ⟨hduration, hrest⟩ := List.forall_mem_cons.1 hdelay
    cases hloops with
    | @stopped _ told _ _ _ hs hm =>
      obtain rfl : shutdown = some told := hs
      refine ⟨trivial, fun moment hmoment task => ?_⟩
      rw [← Option.some.inj hmoment]
      exact (hties.max_lt_deadline hm task).trans_le (hpace task).deadline_le
    | taken hs _ _ hloops =>
      obtain ⟨hturns, hend⟩ := ih hloops
        (hpace.turn hduration fun task htask => hties.lt_deadline hs htask)
        (hties.rest hs) hrest
      refine ⟨⟨hpace.soonest_le, hpace.le_soonest, hturns⟩, fun moment hmoment task => ?_⟩
      rw [List.map_cons, getLastD_starts_cons]
      exact hend moment hmoment task

structure KeepsPace (poll keepAlive delay : ℕ) (taken : List Turn) (ended : Option ℕ) : Prop where
  polls : (starts .poll taken).IsChain (Apart poll delay)
  first : ∀ start ∈ (starts .keepAlive taken).head?,
    keepAlive ≤ start ∧ start ≤ keepAlive + delay
  keepAlives : (starts .keepAlive taken).IsChain (Apart keepAlive delay)
  /-- No call begins while a task has been waiting for longer than a call takes. -/
  waits : ∀ before turn after, taken = before ++ turn :: after →
    ∀ task, turn.start ≤ lastStart task before + periodOf poll keepAlive task + delay
  /-- When the loop ends nothing is overdue. -/
  ends : ∀ moment, ended = some moment →
    ∀ task, moment < lastStart task taken + periodOf poll keepAlive task

section Start

variable (poll keepAlive : ℕ) (hp : 0 < poll) (hk : 0 < keepAlive)

/-- The first poll begins with the loop, and sets the pace for both timers. -/
theorem onPace_turn_start {delay duration : ℕ} (hduration : duration ≤ delay) :
    ((Timers.start poll keepAlive hp hk).turn 0).2.2.OnPace (periodOf poll keepAlive) delay
      (0 + duration) fun _ => 0 := by
  obtain ⟨htask, hstart⟩ := Timers.turn_start poll keepAlive hp hk
  have htake : ((Timers.start poll keepAlive hp hk).turn 0).2.2 =
      (Timers.start poll keepAlive hp hk).take ((Timers.start poll keepAlive hp hk).turn 0).2.1
        ((Timers.start poll keepAlive hp hk).turn 0).1 := rfl
  rw [htake, htask, hstart]
  intro task
  refine Timer.onPace_of_deadline_eq ?_ ?_ (by omega)
  · cases task <;> rfl
  · cases task with
    | poll => rfl
    | keepAlive => exact (Nat.zero_add keepAlive).symm

theorem keepAlive_le_of_mem_starts {durations : List ℕ} {taken : List Turn}
    (hsublist : taken.Sublist ((Timers.start poll keepAlive hp hk).turns 0 durations))
    {moment : ℕ} (h : moment ∈ starts .keepAlive taken) : keepAlive ≤ moment := by
  obtain ⟨turn, hmem, rfl⟩ := List.mem_map.1 h
  obtain ⟨hmem, htask⟩ := List.mem_filter.1 hmem
  exact Timers.deadline_le_of_mem_turns (hsublist.subset hmem) (of_decide_eq_true htask)

theorem lastStart_poll_cons (task : Task) (finish : ℕ) (turns : List Turn) :
    lastStart task (⟨.poll, 0, finish⟩ :: turns) = lastStart task turns := by
  cases task with
  | poll => exact List.getLastD_cons
  | keepAlive => rfl

theorem keepsPace_of_loops {delay : ℕ} {shutdown : Option ℕ} {durations : List ℕ} {c c' : Client}
    {taken : List (Turn × Client)} {ended : Option ℕ}
    (hties : (Timers.start poll keepAlive hp hk).NoTies shutdown 0 durations)
    (hdelay : ∀ duration ∈ durations, duration ≤ delay)
    (h : Loops (fun _ => shutdown) 0 ((Timers.start poll keepAlive hp hk).turns 0 durations) c
      taken ended c') :
    KeepsPace poll keepAlive delay (taken.map Prod.fst) ended := by
  have hsublist : (taken.map Prod.fst).Sublist
      ((Timers.start poll keepAlive hp hk).turns 0 durations) := by
    rw [h.taken_eq]
    exact List.takeWhile_sublist _
  have hkeep : ∀ moment ∈ starts .keepAlive (taken.map Prod.fst), keepAlive ≤ moment :=
    fun _ hmem => keepAlive_le_of_mem_starts poll keepAlive hp hk hsublist hmem
  cases durations with
  | nil =>
    cases h
    exact ⟨.nil, nofun, .nil, fun _ _ _ heq => absurd heq (by simp), nofun⟩
  | cons duration durations =>
    obtain ⟨htask, hstart⟩ := Timers.turn_start poll keepAlive hp hk
    obtain ⟨hduration, hrest⟩ := List.forall_mem_cons.1 hdelay
    rw [Timers.turns_cons, htask, hstart] at h
    cases h with
    | @stopped _ told _ _ _ hs hm =>
      obtain rfl : shutdown = some told := hs
      exact absurd hm (Nat.not_le.2 (Timers.pos_of_noTies poll keepAlive hp hk hties))
    | @taken _ _ _ _ _ _ taken _ hs _ _ hloops =>
      have hrest' := hties.rest hs
      rw [hstart] at hrest'
      obtain ⟨hpace, hend⟩ := hloops.pace (onPace_turn_start poll keepAlive hp hk hduration)
        hrest' hrest
      have hchain : (0 :: starts .keepAlive (taken.map Prod.fst)).IsChain (Apart keepAlive delay) :=
        hpace.isChain .keepAlive
      refine ⟨hpace.isChain .poll, fun moment hmoment => ?_, hchain.of_cons, ?_, ?_⟩
      · have hmem := List.mem_of_mem_head? hmoment
        have hapart := List.isChain_cons.1 hchain |>.1 moment hmoment
        exact ⟨hkeep moment hmem, by simpa using hapart.2⟩
      · intro before turn after heq task
        cases before with
        | nil =>
          obtain ⟨rfl, -⟩ := List.cons.inj heq
          exact Nat.zero_le _
        | cons first before =>
          obtain ⟨rfl, htail⟩ := List.cons.inj heq
          rw [htail] at hpace
          rw [lastStart_poll_cons]
          exact hpace.start_le task
      · intro moment hmoment task
        rw [List.map_cons, lastStart_poll_cons]
        exact hend moment hmoment task

end Start

/-- For all periods, servers, moments at which it is told to stop and durations of calls up to a
delay, as long as nothing coincides, the loop keeps its pace: a slow call is not made up for, and no
call is put off by more than another. -/
theorem exists_keepsPace {c : Client} (hc : Steady c) {poll keepAlive : ℕ} (hp : 0 < poll)
    (hk : 0 < keepAlive) {shutdown : Option ℕ} {delay : ℕ} {durations : List ℕ}
    (hties : (Timers.start poll keepAlive hp hk).NoTies shutdown 0 durations)
    (hdelay : ∀ duration ∈ durations, duration ≤ delay) :
    ∃ taken ms ended c',
      (run (fun _ => shutdown) 0 ((Timers.start poll keepAlive hp hk).turns 0 durations)).run c =
          (.ok ended, c') ∧
        taken = ((Timers.start poll keepAlive hp hk).turns 0 durations).takeWhile
          (fun turn => shutdown.all (turn.start < ·)) ∧
        Calls c ms c' ∧ ms.map (·.operation) = taken.map (·.task.operation) ∧
        KeepsPace poll keepAlive delay taken ended := by
  obtain ⟨taken, ended, c', hrun, hloops⟩ := loops_of_run (fun _ => shutdown) 0
    ((Timers.start poll keepAlive hp hk).turns 0 durations) hc
  refine ⟨taken.map Prod.fst, Loops.made taken, ended, c', hrun, hloops.taken_eq, hloops.calls, ?_,
    keepsPace_of_loops poll keepAlive hp hk hties hdelay hloops⟩
  simp [Loops.made]

/-- A poll takes so long that the session is kept alive late, and from then on later. -/
theorem keepsPace_slow_poll : ∃ taken ended c',
    (run (fun _ => some 210) 0
      ((Timers.start 50 70 (by decide) (by decide)).turns 0 [10, 40, 5, 0, 0, 30, 0, 0])).run
        unwelcome = (.ok ended, c') ∧
      starts .poll taken = [0, 50, 100, 150, 200] ∧ starts .keepAlive taken = [90, 160] ∧
      KeepsPace 50 70 40 taken ended := by
  have hsteady : Steady unwelcome := ⟨[], .empty, nofun⟩
  have hties : (Timers.start 50 70 (by decide) (by decide)).NoTies (some 210) 0
      [10, 40, 5, 0, 0, 30, 0, 0] := by decide
  obtain ⟨taken, ms, ended, c', hrun, htaken, -, -, hpace⟩ :=
    exists_keepsPace hsteady (by decide) (by decide) hties (by decide : ∀ duration ∈ _, _ ≤ 40)
  refine ⟨taken, ended, c', hrun, ?_, ?_, hpace⟩
  · rw [htaken]
    decide
  · rw [htaken]
    decide

end TopicClient.Polling
