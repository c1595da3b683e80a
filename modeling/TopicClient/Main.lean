import TopicClient.Program.Transcript

/-!
# The command line program

Runs a command against a server whose replies are read from standard input, and writes the log and
the results.
-/

namespace TopicClient.Main

partial def readLines (stream : IO.FS.Stream) (before : Array String) : IO (Array String) := do
  let line ← stream.getLine
  if line.isEmpty then return before
  readLines stream (before.push (String.ofList (Environment.dropLineBreak line.toList)))

def readVariables (names : List String) : IO Environment.Variables :=
  names.filterMapM fun name => do
    match ← IO.getEnv name with
    | some value => return some (name, value)
    | none => return none

def run (args : List String) : IO UInt32 := do
  let environment ← readVariables
    ("RUST_LOG" :: CommandLine.Switch.shared.filterMap CommandLine.Switch.environmentName?)
  let lines ← readLines (← IO.getStdin) #[]
  let report := Program.execute (Program.Transcript.start args environment lines.toList)
  for line in report.output do IO.println line
  for line in report.errors do IO.eprintln line
  return report.exitCode.toUInt32

end TopicClient.Main

def main (args : List String) : IO UInt32 := TopicClient.Main.run args
