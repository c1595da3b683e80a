import TopicClient.Program.Report

/-!
# Transcripts

A transcript describes what the program finds when it is started: the time, the file of variables,
and behind an empty line the replies of the server. A reply is a status and a body, or `close` if
the server hangs up.
-/

namespace TopicClient.Program.Transcript

def readReply (line : List Char) : Http.Reply :=
  let (status, body) := line.span (· ≠ ' ')
  match CommandLine.readNat 999 status with
  | .ok status =>
    .response { status, body := (body.drop 1).flatMap String.utf8EncodeChar }
  | .error _ => .closed

def start (args : List String) (environment : Environment.Variables) (lines : List String) : Start :=
  let (file, rest) := lines.tail.span (· ≠ "")
  let replies := rest.tail.map fun l => readReply l.toList
  { args
    environment
    file := some ("\n".intercalate file)
    server := { replies }
    now := ((lines.head?.bind fun l => (CommandLine.readInt64 l.toList).toOption)).getD 0
    limit := replies.length }

end TopicClient.Program.Transcript
