import TopicClient.Polling.Loop
import TopicClient.Proofs.Client.Calls

/-!
# What the loop does

The loop makes one call in each of its turns, and each call is a fetch or a sign of life. `Loops`
are the runs of the loop, with the turns that it has taken; as long as the client is steady, every
run of the loop is one of them (`loops_of_run`), so no call ends it.
-/

namespace TopicClient.Polling

open Client

def Task.operation : Task → Operation
  | .poll => .fetch
  | .keepAlive => .keepAlive

section Calls

variable {c : Client}

/-- A poll is one fetch, and does not fail. -/
theorem run_poll (h : Steady c) :
    ∃ c', poll.run c = (.ok (), c') ∧ Calls c [⟨.fetch, c⟩] c' ∧ Steady c' := by
  obtain ⟨husable, hsteady, -⟩ := h.run_fetch
  cases hfetch : fetch.run c with
  | mk o c₁ =>
    have hcalls := Calls.of_run (run_operation_fetch c)
    rw [hfetch] at husable hsteady hcalls
    rw [poll, run_bind_of_run hfetch]
    rcases o with (e | _) | n
    · exact ⟨_, rfl, hcalls.log _, hsteady.log _⟩
    · exact absurd rfl husable
    · cases n with
      | zero => exact ⟨_, rfl, hcalls, hsteady⟩
      | succ n => exact ⟨_, rfl, hcalls.log _, hsteady.log _⟩

theorem run_refresh (h : Steady c) :
    ∃ c', refresh.run c = ((), c') ∧ Calls c [⟨.keepAlive, c⟩] c' ∧ Steady c' := by
  have htalks : Talks Operation.keepAlive.run := Operation.IsTalk.talks trivial
  have hsteady := h.talked (htalks c)
  cases hkeep : keepAlive.run c with
  | mk o c₁ =>
    have hrun : Operation.keepAlive.run.run c = (_, c₁) := run_settle_of_run hkeep
    have hcalls := Calls.of_run hrun
    rw [hrun] at hsteady
    rw [refresh, run_bind_of_run hkeep]
    cases o with
    | error e => exact ⟨_, rfl, hcalls.log _, hsteady.log _⟩
    | ok u => exact ⟨_, rfl, hcalls, hsteady⟩

/-- A task is one call, and does not fail, however the call ends. -/
theorem run_perform (h : Steady c) (task : Task) :
    ∃ c', (perform task).run c = (.ok (), c') ∧ Calls c [⟨task.operation, c⟩] c' ∧
      Steady c' := by
  cases task with
  | poll => exact run_poll h
  | keepAlive =>
    obtain ⟨c', hrun, hcalls, hsteady⟩ := run_refresh h
    refine ⟨c', ?_, hcalls, hsteady⟩
    rw [perform, run_bind_of_run hrun]
    rfl

end Calls

/-! ## The loop -/

/-- The runs of the loop, free from `now` on, with the turns that it has taken, each with the client
that took it, and the moment at which it ends. -/
inductive Loops (shutdown : Shutdown) :
    ℕ → List Turn → Client → List (Turn × Client) → Option ℕ → Client → Prop
  /-- The loop goes on, but there are no more turns to follow it through. -/
  | pending {now : ℕ} {c : Client} : Loops shutdown now [] c [] none c
  /-- The loop is told to stop before its next call. -/
  | stopped {now moment : ℕ} {turn : Turn} {turns : List Turn} {c : Client}
      (hs : shutdown c = some moment) (hm : moment ≤ turn.start) :
      Loops shutdown now (turn :: turns) c [] (some (max now moment)) (stop.run c).2
  | taken {now : ℕ} {turn : Turn} {turns : List Turn} {c c₁ c₂ : Client}
      {taken : List (Turn × Client)} {ended : Option ℕ}
      (hs : ∀ moment, shutdown c = some moment → turn.start < moment) (hsteady : Steady c)
      (hcalls : Calls c [⟨turn.task.operation, c⟩] c₁)
      (h : Loops shutdown turn.finish turns c₁ taken ended c₂) :
      Loops shutdown now (turn :: turns) c ((turn, c) :: taken) ended c₂

/-- Every run of the loop is one of these. -/
theorem loops_of_run (shutdown : Shutdown) (now : ℕ) (turns : List Turn) {c : Client}
    (h : Steady c) : ∃ taken ended c', (run shutdown now turns).run c = (.ok ended, c') ∧
      Loops shutdown now turns c taken ended c' := by
  induction turns generalizing now c with
  | nil => exact ⟨[], none, c, rfl, .pending⟩
  | cons turn turns ih =>
    rw [run, StateT.run_bind]
    cases hs : (shutdown c).filter (· ≤ turn.start) with
    | some moment =>
      obtain ⟨hmoment, hle⟩ := Option.filter_eq_some_iff.1 hs
      refine ⟨[], some (max now moment), (stop.run c).2, ?_,
        .stopped hmoment (of_decide_eq_true hle)⟩
      simp only [StateT.run_get, pure_bind, hs]
      rfl
    | none =>
      obtain ⟨c₁, hperform, hcalls, hsteady⟩ := run_perform h turn.task
      obtain ⟨taken, ended, c', hrun, hloops⟩ := ih turn.finish hsteady
      have hbefore : ∀ moment, shutdown c = some moment → turn.start < moment := by
        intro moment hmoment
        rw [hmoment] at hs
        simpa using hs
      refine ⟨(turn, c) :: taken, ended, c', ?_, .taken hbefore h hcalls hloops⟩
      simp only [StateT.run_get, pure_bind, hs, StateT.run_bind, hperform]
      exact hrun

namespace Loops

variable {shutdown : Shutdown} {now : ℕ} {turns : List Turn} {c c' : Client}
  {taken : List (Turn × Client)} {ended : Option ℕ}

def made (taken : List (Turn × Client)) : List Made :=
  taken.map fun t => ⟨t.1.task.operation, t.2⟩

theorem calls (h : Loops shutdown now turns c taken ended c') : Calls c (made taken) c' := by
  induction h with
  | pending => exact .nil
  | stopped hs hm => exact Calls.nil.log _
  | taken hs hsteady hcalls _ ih => exact hcalls.append ih

theorem steady (h : Loops shutdown now turns c taken ended c') :
    ∀ m ∈ made taken, Steady m.client := by
  induction h with
  | pending => exact List.forall_mem_nil _
  | stopped hs hm => exact List.forall_mem_nil _
  | taken hs hsteady hcalls _ ih => exact List.forall_mem_cons.2 ⟨hsteady, ih⟩

end Loops

/-! ## Watching topics -/

end TopicClient.Polling
