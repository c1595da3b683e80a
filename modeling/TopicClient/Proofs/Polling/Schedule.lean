import Mathlib.Data.List.TakeWhile
import TopicClient.Proofs.Client.Sending
import TopicClient.Proofs.Polling.Loop

/-!
# The loop keeps its schedule

The loop waits for three things: the two timers, and being told to stop. As long as no two of them
happen at once (`Timers.NoTies`), the loop takes every turn of the timers that begins before it is
told to stop, whatever comes of the calls, and it ends when the last of them does (`KeepsSchedule`).
-/

namespace TopicClient.Polling

open Client

inductive Branch where
  | poll | keepAlive | shutdown
deriving DecidableEq, Repr

namespace Timers

/-- What is ready at a moment, for a loop that is told to stop at another. -/
def ready (t : Timers) (shutdown : Option ℕ) (moment : ℕ) : List Branch :=
  (if t.poll.isDue moment then [.poll] else []) ++
    (if t.keepAlive.isDue moment then [.keepAlive] else []) ++
    (if shutdown.any (· ≤ moment) then [.shutdown] else [])

/-- The moment at which the loop, free from `now` on, first finds something ready. -/
def wakes (t : Timers) (shutdown : Option ℕ) (now : ℕ) : ℕ :=
  match shutdown with
  | some moment => min (t.soonest now) (max now moment)
  | none => t.soonest now

/-- Whenever the loop finds something ready it is one thing alone, if its calls take the times
given. -/
def NoTies (shutdown : Option ℕ) : Timers → ℕ → List ℕ → Prop
  | _, _, [] => True
  | t, now, duration :: durations =>
    (t.ready shutdown (t.wakes shutdown now)).length ≤ 1 ∧
      (.shutdown ∉ t.ready shutdown (t.wakes shutdown now) →
        NoTies shutdown (t.turn now).2.2 ((t.turn now).2.1 + duration) durations)

instance decidableNoTies (shutdown : Option ℕ) :
    ∀ t now durations, Decidable (NoTies shutdown t now durations)
  | _, _, [] => isTrue trivial
  | t, now, duration :: durations =>
    have := decidableNoTies shutdown (t.turn now).2.2 ((t.turn now).2.1 + duration) durations
    inferInstanceAs (Decidable ((t.ready shutdown (t.wakes shutdown now)).length ≤ 1 ∧
      (.shutdown ∉ t.ready shutdown (t.wakes shutdown now) →
        NoTies shutdown (t.turn now).2.2 ((t.turn now).2.1 + duration) durations)))

section Turns

variable {t : Timers} {now : ℕ} {durations : List ℕ}

theorem turns_cons (t : Timers) (now duration : ℕ) (durations : List ℕ) :
    t.turns now (duration :: durations) =
      ⟨(t.turn now).1, (t.turn now).2.1, (t.turn now).2.1 + duration⟩ ::
        (t.turn now).2.2.turns ((t.turn now).2.1 + duration) durations :=
  rfl

theorem length_turns (t : Timers) (now : ℕ) (durations : List ℕ) :
    (t.turns now durations).length = durations.length := by
  induction durations generalizing t now with
  | nil => rfl
  | cons duration durations ih => rw [turns_cons, List.length_cons, List.length_cons, ih]

theorem le_start_of_mem_turns {turn : Turn} (h : turn ∈ t.turns now durations) :
    now ≤ turn.start ∧ turn.start ≤ turn.finish := by
  induction durations generalizing t now with
  | nil => cases h
  | cons duration durations ih =>
    have hfirst : now ≤ (t.turn now).2.1 := Nat.le_max_left _ _
    rw [turns_cons] at h
    rcases List.mem_cons.1 h with rfl | h
    · exact ⟨hfirst, Nat.le_add_right _ _⟩
    · obtain ⟨hnow, hfinish⟩ := ih h
      exact ⟨by omega, hfinish⟩

theorem pairwise_turns (t : Timers) (now : ℕ) (durations : List ℕ) :
    (t.turns now durations).Pairwise fun turn turn' => turn.finish ≤ turn'.start := by
  induction durations generalizing t now with
  | nil => exact .nil
  | cons duration durations ih =>
    rw [turns_cons]
    exact .cons (fun _ h => (le_start_of_mem_turns h).1) (ih _ _)

/-- What a turn takes is due when it begins. -/
theorem due?_turn (t : Timers) (now : ℕ) : t.due? (t.turn now).2.1 = some (t.turn now).1 :=
  t.due?_soonest now

/-- Taking a task sets its own timer ahead, and leaves the other as it is. -/
theorem deadlines_take {moment : ℕ} {task : Task} (h : t.due? moment = some task) :
    task = .poll ∧ t.poll.deadline ≤ moment ∧
        t.poll.deadline < (t.take moment task).poll.deadline ∧
        (t.take moment task).keepAlive.deadline = t.keepAlive.deadline ∨
      task = .keepAlive ∧ t.keepAlive.deadline ≤ moment ∧
        t.keepAlive.deadline < (t.take moment task).keepAlive.deadline ∧
        (t.take moment task).poll.deadline = t.poll.deadline := by
  unfold due? at h
  split_ifs at h with hpoll hkeep
  · obtain rfl := Option.some.inj h
    exact .inl ⟨rfl, of_decide_eq_true hpoll, t.poll.deadline_lt_take moment hpoll, rfl⟩
  · obtain rfl := Option.some.inj h
    exact .inr ⟨rfl, of_decide_eq_true hkeep, t.keepAlive.deadline_lt_take moment hkeep, rfl⟩

/-- No sign of life is given before its timer is due. -/
theorem deadline_le_of_mem_turns {turn : Turn} (h : turn ∈ t.turns now durations)
    (htask : turn.task = .keepAlive) : t.keepAlive.deadline ≤ turn.start := by
  induction durations generalizing t now with
  | nil => cases h
  | cons duration durations ih =>
    have hdeadlines := deadlines_take (due?_turn t now)
    rw [turns_cons] at h
    rcases List.mem_cons.1 h with rfl | h
    · rcases hdeadlines with ⟨hpoll, -⟩ | ⟨-, hdue, -⟩
      · rw [show (t.turn now).1 = .keepAlive from htask] at hpoll
        cases hpoll
      · exact hdue
    · have hlater : (t.turn now).2.2.keepAlive.deadline ≤ turn.start := ih h
      change (t.take (t.turn now).2.1 (t.turn now).1).keepAlive.deadline ≤ turn.start at hlater
      rcases hdeadlines with ⟨-, -, -, heq⟩ | ⟨-, -, hlt, -⟩
      · rwa [heq] at hlater
      · exact hlt.le.trans hlater

/-- What is due at a moment becomes less for every later one when it is taken. -/
theorem backlog_take_lt_of_le {moment later : ℕ} {task : Task} (h : t.due? moment = some task)
    (hle : moment ≤ later) : (t.take moment task).backlog later < t.backlog later := by
  rcases deadlines_take h with ⟨-, hdue, hlt, heq⟩ | ⟨-, hdue, hlt, heq⟩
  · rw [backlog, backlog, heq]
    omega
  · rw [backlog, backlog, heq]
    omega

theorem length_le_backlog (t : Timers) (now : ℕ) (durations : List ℕ) {moment : ℕ}
    (h : ∀ turn ∈ t.turns now durations, turn.start < moment + 1) :
    durations.length ≤ t.backlog moment := by
  induction durations generalizing t now with
  | nil => exact Nat.zero_le _
  | cons duration durations ih =>
    rw [turns_cons] at h
    obtain ⟨hfirst, hrest⟩ := List.forall_mem_cons.1 h
    have hlt := backlog_take_lt_of_le (due?_turn t now) (Nat.le_of_lt_succ hfirst)
    have hmore := ih _ _ hrest
    have htake : (t.turn now).2.2 = t.take (t.turn now).2.1 (t.turn now).1 := rfl
    rw [htake] at hmore
    rw [List.length_cons]
    omega

end Turns

section Start

variable (poll keepAlive : ℕ) (hp : 0 < poll) (hk : 0 < keepAlive)

theorem turn_start : ((start poll keepAlive hp hk).turn 0).1 = .poll ∧
    ((start poll keepAlive hp hk).turn 0).2.1 = 0 := by
  have hsoonest : (start poll keepAlive hp hk).soonest 0 = 0 := by simp [soonest, start]
  have hdue : (start poll keepAlive hp hk).poll.isDue 0 = true := rfl
  simp only [turn, hsoonest, hdue, if_true, and_self]

/-- A loop that is told to stop at once is told so when its first poll is due. -/
theorem pos_of_noTies {moment duration : ℕ} {durations : List ℕ}
    (h : (start poll keepAlive hp hk).NoTies (some moment) 0 (duration :: durations)) :
    0 < moment := by
  by_contra hzero
  obtain rfl : moment = 0 := by omega
  have hwakes : (start poll keepAlive hp hk).wakes (some 0) 0 = 0 := by
    simp [wakes, soonest, start]
  have hties := h.1
  rw [hwakes] at hties
  have hkeep : (start poll keepAlive hp hk).keepAlive.isDue 0 = false :=
    decide_eq_false (Nat.not_le.2 hk)
  have hdue : (start poll keepAlive hp hk).poll.isDue 0 = true := rfl
  simp [ready, hdue, hkeep] at hties

end Start

end Timers

/-! ## The loop -/

/-- When the last of some turns ends, or else a moment before them. -/
def lastFinish (now : ℕ) (turns : List Turn) : ℕ := turns.foldl (fun _ turn => turn.finish) now

structure KeepsSchedule (keepAlive : ℕ) (shutdown : Option ℕ) (turns taken : List Turn)
    (ended : Option ℕ) : Prop where
  /-- It polls at once. -/
  first : turns ≠ [] → ∃ finish rest, taken = ⟨.poll, 0, finish⟩ :: rest
  /-- It gives no sign of life before a whole period has passed. -/
  keepAlive_le : ∀ turn ∈ taken, turn.task = .keepAlive → keepAlive ≤ turn.start
  /-- It makes one call after the other. -/
  pairwise : taken.Pairwise fun turn turn' => turn.finish ≤ turn'.start
  /-- It takes all turns that begin before it is told to stop, and no other. -/
  taken_eq : taken = turns.takeWhile fun turn => shutdown.all (turn.start < ·)
  /-- It goes on as long as there are turns. -/
  pending : ended = none → taken = turns
  /-- It ends because it is told to stop, and not before its last call does. -/
  ended_eq : ∀ moment, ended = some moment →
    ∃ told, shutdown = some told ∧ moment = max told (lastFinish 0 taken)
  /-- It does end if it is told to stop. -/
  ends : ∀ told, shutdown = some told → 2 * told < turns.length → ended ≠ none

namespace Loops

variable {shutdown : Option ℕ} {now : ℕ} {turns : List Turn} {c c' : Client}
  {taken : List (Turn × Client)} {ended : Option ℕ}

theorem taken_eq (h : Loops (fun _ => shutdown) now turns c taken ended c') :
    taken.map Prod.fst = turns.takeWhile fun turn => shutdown.all (turn.start < ·) := by
  induction h with
  | pending => rfl
  | @stopped now moment turn turns c hs hm =>
    have hs' : shutdown = some moment := hs
    rw [hs', List.takeWhile_cons_of_neg]
    · rfl
    · simpa using hm
  | @taken now turn turns c c₁ c₂ taken ended hs _ _ _ ih =>
    rw [List.takeWhile_cons_of_pos, ← ih]
    · rfl
    · cases hshutdown : shutdown with
      | none => rfl
      | some moment => exact decide_eq_true (hs moment hshutdown)

theorem pending_eq (h : Loops (fun _ => shutdown) now turns c taken ended c')
    (hended : ended = none) : taken.map Prod.fst = turns := by
  induction h with
  | pending => rfl
  | stopped hs hm => cases hended
  | taken hs _ _ _ ih => rw [List.map_cons, ih hended]

/-- The loop ends at the later of the moment at which it is told to stop and the end of its last
call. -/
theorem ended_eq (h : Loops (fun _ => shutdown) now turns c taken ended c') {moment : ℕ}
    (hended : ended = some moment) :
    ∃ told, shutdown = some told ∧ moment = max told (lastFinish now (taken.map Prod.fst)) := by
  induction h with
  | pending => cases hended
  | @stopped now told turn turns c hs hm =>
    refine ⟨told, hs, ?_⟩
    rw [← Option.some.inj hended]
    exact max_comm now told
  | taken hs _ _ _ ih => exact ih hended

end Loops

section Start

variable (poll keepAlive : ℕ) (hp : 0 < poll) (hk : 0 < keepAlive)

/-- Before a moment there are at most two turns for each unit of time. -/
theorem length_turns_le {durations : List ℕ} {moment : ℕ}
    (h : ∀ turn ∈ (Timers.start poll keepAlive hp hk).turns 0 durations, turn.start < moment) :
    durations.length ≤ 2 * moment := by
  cases moment with
  | zero =>
    cases durations with
    | nil => exact Nat.le_refl 0
    | cons duration durations => exact absurd (h _ List.mem_cons_self) (Nat.not_lt_zero _)
  | succ moment =>
    have hle := Timers.length_le_backlog _ _ _ h
    simp only [Timers.backlog, Timers.start] at hle
    omega

theorem keepsSchedule_of_loops {shutdown : Option ℕ} {durations : List ℕ} {c c' : Client}
    {taken : List (Turn × Client)} {ended : Option ℕ}
    (hties : (Timers.start poll keepAlive hp hk).NoTies shutdown 0 durations)
    (h : Loops (fun _ => shutdown) 0 ((Timers.start poll keepAlive hp hk).turns 0 durations) c
      taken ended c') :
    KeepsSchedule keepAlive shutdown ((Timers.start poll keepAlive hp hk).turns 0 durations)
      (taken.map Prod.fst) ended := by
  have htaken := h.taken_eq
  have hsublist : (taken.map Prod.fst).Sublist
      ((Timers.start poll keepAlive hp hk).turns 0 durations) := by
    rw [htaken]
    exact List.takeWhile_sublist _
  refine ⟨fun hne => ?_, fun turn hmem htask => ?_, ?_, htaken, h.pending_eq,
    fun moment => h.ended_eq, ?_⟩
  · cases durations with
    | nil => exact absurd rfl hne
    | cons duration durations =>
      obtain ⟨htask, hstart⟩ := Timers.turn_start poll keepAlive hp hk
      rw [Timers.turns_cons, htask, hstart] at htaken
      refine ⟨0 + duration, _, htaken.trans (List.takeWhile_cons_of_pos ?_)⟩
      cases shutdown with
      | none => rfl
      | some moment => exact decide_eq_true (Timers.pos_of_noTies poll keepAlive hp hk hties)
  · exact Timers.deadline_le_of_mem_turns (hsublist.subset hmem) htask
  · exact (Timers.pairwise_turns _ _ _).sublist hsublist
  · rintro told rfl hlength hended
    have hall : ∀ turn ∈ (Timers.start poll keepAlive hp hk).turns 0 durations,
        turn.start < told := by
      intro turn hmem
      rw [← h.pending_eq hended, htaken] at hmem
      simpa using List.mem_takeWhile_imp hmem
    have hle := length_turns_le poll keepAlive hp hk hall
    rw [Timers.length_turns] at hlength
    omega

end Start

/-- For all periods, durations of calls, servers and moments at which it is told to stop, as long as
nothing coincides, the loop keeps its schedule. All that it does is to make the calls of its turns,
and a batch that one of them fetches is delivered in full before the next. -/
theorem exists_keepsSchedule {c : Client} (hc : Steady c) {poll keepAlive : ℕ} (hp : 0 < poll)
    (hk : 0 < keepAlive) {shutdown : Option ℕ} {durations : List ℕ}
    (hties : (Timers.start poll keepAlive hp hk).NoTies shutdown 0 durations) :
    ∃ taken ms ended c',
      (run (fun _ => shutdown) 0 ((Timers.start poll keepAlive hp hk).turns 0 durations)).run c =
          (.ok ended, c') ∧
        KeepsSchedule keepAlive shutdown
          ((Timers.start poll keepAlive hp hk).turns 0 durations) taken ended ∧
        Calls c ms c' ∧ ms.map (·.operation) = taken.map (·.task.operation) ∧
        ∀ m ∈ ms, m.operation = .fetch → ∀ batch, m.client.fetched? = some batch →
          ∃ d n, m.client.delivery.dispatch batch = .ok (d, n) ∧
            Holds (m.operation.run.run m.client).2 d := by
  obtain ⟨taken, ended, c', hrun, hloops⟩ := loops_of_run (fun _ => shutdown) 0
    ((Timers.start poll keepAlive hp hk).turns 0 durations) hc
  refine ⟨taken.map Prod.fst, Loops.made taken, ended, c', hrun,
    keepsSchedule_of_loops poll keepAlive hp hk hties hloops, hloops.calls, ?_, ?_⟩
  · simp [Loops.made]
  · rintro ⟨op, client⟩ hmem rfl batch hbatch
    rw [run_operation_fetch]
    exact (hloops.steady _ hmem).run_fetch.2.2 batch hbatch

/-- The loop is told to stop while a poll is on, and ends after it, before anything else is due. -/
theorem keepsSchedule_slow_poll : ∃ c',
    (run (fun _ => some 110) 0
      ((Timers.start 50 70 (by decide) (by decide)).turns 0 [10, 0, 5, 30, 0])).run unwelcome =
        (.ok (some 130), c') ∧
      c'.agent.received.map (·.target) =
        ["/events/get", "/events/get", "/auth/keepalive", "/events/get"] := by
  have hsteady : Steady unwelcome := ⟨[], .empty, nofun⟩
  have hties : (Timers.start 50 70 (by decide) (by decide)).NoTies (some 110) 0 [10, 0, 5, 30, 0] :=
    by decide
  obtain ⟨taken, ms, ended, c', hrun, hschedule, -, -, -⟩ :=
    exists_keepsSchedule hsteady (by decide) (by decide) hties
  have htaken : taken =
      [⟨.poll, 0, 10⟩, ⟨.poll, 50, 50⟩, ⟨.keepAlive, 70, 75⟩, ⟨.poll, 100, 130⟩] :=
    hschedule.taken_eq.trans (by decide)
  have hended : ended = some 130 := by
    cases hended : ended with
    | none =>
      have hall := htaken.symm.trans (hschedule.pending hended)
      exact absurd hall (by decide)
    | some moment =>
      obtain ⟨told, htold, rfl⟩ := hschedule.ended_eq moment hended
      rw [← Option.some.inj htold, htaken]
      rfl
  rw [hended] at hrun
  refine ⟨c', hrun, ?_⟩
  obtain rfl : _ = c' := congrArg Prod.snd hrun
  decide +kernel

end TopicClient.Polling
