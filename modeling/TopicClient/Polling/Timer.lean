/-!
# Timers

A timer is due at a sequence of moments, one period apart. When one is missed by more than a short
while the next comes a whole period after the timer was looked at, so missed moments are not made
up for. Two timers drive the client: one for polling and one for keeping the session. Times are in
milliseconds from the start of the loop.
-/

namespace TopicClient.Polling

structure Timer where
  period : Nat
  /-- The next moment at which the timer is due. -/
  deadline : Nat
  positive : 0 < period

namespace Timer

/-- How late a timer may be looked at and still keep its pace. -/
def tolerance : Nat := 5

def isDue (t : Timer) (now : Nat) : Bool := t.deadline ≤ now

def take (t : Timer) (now : Nat) : Timer :=
  { t with
    deadline := if t.deadline + tolerance < now then now + t.period else t.deadline + t.period }

theorem deadline_lt_take (t : Timer) (now : Nat) (h : t.isDue now = true) :
    t.deadline < (t.take now).deadline := by
  have hp := t.positive
  simp only [isDue, decide_eq_true_eq] at h
  simp only [take]
  split <;> omega

end Timer

inductive Task where
  | poll | keepAlive
deriving DecidableEq, Repr

structure Turn where
  task : Task
  start : Nat
  finish : Nat
deriving DecidableEq, Repr

structure Timers where
  poll : Timer
  keepAlive : Timer

namespace Timers

/-- The first poll is due at once, and the first sign of life after its period. -/
def start (poll keepAlive : Nat) (hp : 0 < poll) (hk : 0 < keepAlive) : Timers :=
  ⟨⟨poll, 0, hp⟩, ⟨keepAlive, keepAlive, hk⟩⟩

/-- The task that is due. If both are, polling goes first. -/
def due? (t : Timers) (now : Nat) : Option Task :=
  if t.poll.isDue now then some .poll
  else if t.keepAlive.isDue now then some .keepAlive
  else none

def take (t : Timers) (now : Nat) : Task → Timers
  | .poll => { t with poll := t.poll.take now }
  | .keepAlive => { t with keepAlive := t.keepAlive.take now }

/-- The next moment at which something is due, if nothing is done before `now`. -/
def soonest (t : Timers) (now : Nat) : Nat := max now (min t.poll.deadline t.keepAlive.deadline)

def turn (t : Timers) (now : Nat) : Task × Nat × Timers :=
  let start := t.soonest now
  let task := if t.poll.isDue start then .poll else .keepAlive
  (task, start, t.take start task)

theorem due?_soonest (t : Timers) (now : Nat) : t.due? (t.soonest now) = some (t.turn now).1 := by
  by_cases h : t.poll.isDue (t.soonest now) = true
  · simp [due?, turn, h]
  · have hk : t.keepAlive.isDue (t.soonest now) = true := by
      simp only [Timer.isDue, decide_eq_true_eq] at h ⊢
      simp only [soonest] at h ⊢
      omega
    simp [due?, turn, h, hk]

/-- The turns of a loop that is free from `now` on, with calls that take the times given: each
begins when something is due, and not before the call of the turn before has ended. -/
def turns : Timers → Nat → List Nat → List Turn
  | _, _, [] => []
  | t, now, duration :: durations =>
    let (task, start, t) := t.turn now
    ⟨task, start, start + duration⟩ :: t.turns (start + duration) durations

def backlog (t : Timers) (now : Nat) : Nat :=
  (now + 1 - t.poll.deadline) + (now + 1 - t.keepAlive.deadline)

theorem backlog_take_lt (t : Timers) (now : Nat) (task : Task) (h : t.due? now = some task) :
    (t.take now task).backlog now < t.backlog now := by
  unfold due? at h
  split at h
  · next hd =>
    cases h
    have := t.poll.deadline_lt_take now hd
    simp only [Timer.isDue, decide_eq_true_eq] at hd
    simp only [backlog, take]
    omega
  · split at h
    · next hd =>
      cases h
      have := t.keepAlive.deadline_lt_take now hd
      simp only [Timer.isDue, decide_eq_true_eq] at hd
      simp only [backlog, take]
      omega
    · cases h

/-- What is due at a moment, in order, if the tasks take no time; and the timers afterwards. -/
def drain (t : Timers) (now : Nat) : List Task × Timers :=
  match _h : t.due? now with
  | none => ([], t)
  | some task =>
    let (tasks, t) := (t.take now task).drain now
    (task :: tasks, t)
  termination_by t.backlog now
  decreasing_by exact backlog_take_lt t now task _h

end Timers

end TopicClient.Polling
