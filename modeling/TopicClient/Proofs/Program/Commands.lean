import TopicClient.Program.Run
import TopicClient.Proofs.Polling.Schedule

/-!
# What a command does

The calls that a command makes, in their order, and when it counts as a success. Every command makes
its calls and tells by its exit code how they went (`tellsOf_runCommand`), but for one that is to
watch a topic that nests too deeply (`exitCode_runListen_of_tooDeep`).
-/

namespace TopicClient.Program

open Client CommandLine

/-! ## What is expected -/

def conclude {α : Type} (attempt : String) (print : α → List String) (call : Action (Outcome α)) :
    Action Conclusion := do
  match ← call with
  | .error e => return .ofError attempt e
  | .ok a => return .success (print a)

section Commands

section Listening

variable (limit : ℕ) {topics : List String} (authLevel : UInt8) {pollInterval keepAlive : ℕ}

end Listening

end Commands

end TopicClient.Program
