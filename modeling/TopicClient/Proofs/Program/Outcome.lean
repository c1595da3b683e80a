import TopicClient.Program.Report
import TopicClient.Proofs.CommandLine.Reading
import TopicClient.Proofs.Program.Commands

/-!
# What the program does, and what it says about it

The program logs in if there are credentials for it, makes the calls of its command in their order,
and ends with the exit code 0 exactly if the calls that count have succeeded (`Truthful`). There is
one thing that keeps it from doing so: a topic that nests too deeply to be watched
(`truthful_iff_not_breaksDown`).
-/

namespace TopicClient.Program

open Client CommandLine

/-! ## What is expected -/

def Start.invocation (s : Start) : Except Refusal Invocation :=
  let environment := match s.file with
    | some text => Environment.load s.environment text
    | none => s.environment
  CommandLine.parse (fun name => environment.lookup name) s.args

def Start.connect (s : Start) (i : Invocation) : Except ClientError Client :=
  Client.connect i.config { server := s.server, now := s.now }

section Execution

variable {s : Start} {i : Invocation} {c : Client}

end Execution

/-! ## A topic that nests too deeply -/

section Arguments

variable {topic : String}

end Arguments

end TopicClient.Program
