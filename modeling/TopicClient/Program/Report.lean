import TopicClient.Environment.File
import TopicClient.Log.Filter
import TopicClient.Log.Line
import TopicClient.Program.Run

/-!
# The whole program

From the arguments, the environment and what the server does, to what is written where.
-/

namespace TopicClient.Program

structure Start where
  args : List String
  environment : Environment.Variables
  /-- The file of variables in the working directory. -/
  file : Option String
  server : Http.Server
  /-- The time in seconds since 1970. -/
  now : Int
  /-- After how many requests the program is told to stop listening. -/
  limit : Nat

structure Report where
  exitCode : Nat
  output : List String
  errors : List String
  received : List Http.Received

def lines (texts : List String) : List String :=
  texts.flatMap fun t => (Text.splitOn (· = '\n') t.toList).map String.ofList

def logTexts (filter : Log.Filter) (c : Client) : List String :=
  (c.delivery.logs.filter filter.passes).map (·.render)

def execute (s : Start) : Report :=
  let environment := match s.file with
    | some text => Environment.load s.environment text
    | none => s.environment
  let filter := Log.Filter.ofText (environment.lookup "RUST_LOG")
  match CommandLine.parse (fun name => environment.lookup name) s.args with
  | .error refusal =>
    if refusal.isAnswer then ⟨refusal.exitCode, [refusal.headline], [], []⟩
    else ⟨refusal.exitCode, [], [refusal.headline], []⟩
  | .ok invocation =>
    match Client.connect invocation.config { server := s.server, now := s.now } with
    | .error e =>
      let error := errorText "Failed to create client" e.chain
      ⟨1, [], lines [error], []⟩
    | .ok client =>
      let (conclusion, client) := run s.limit invocation client
      let logs := logTexts filter client
      let printed := match conclusion with
        | .success printed => printed
        | _ => []
      let errors := match conclusion with
        | .failure error causes => [errorText error causes]
        | _ => []
      ⟨conclusion.exitCode, lines (logs ++ printed), lines errors, client.agent.received⟩

end TopicClient.Program
