import TopicClient.Text.Quoted

/-!
# Log records

A record has a level, the part of the program it comes from, a message and fields. Each field
remembers whether its text is quoted when the record is written as a line.
-/

namespace TopicClient.Log

inductive Level where
  | trace | debug | info | warn | error
deriving DecidableEq, Repr

namespace Level

def name : Level → String
  | trace => "TRACE"
  | debug => "DEBUG"
  | info => "INFO"
  | warn => "WARN"
  | error => "ERROR"

def severity : Level → Nat
  | trace => 1
  | debug => 2
  | info => 3
  | warn => 4
  | error => 5

end Level

inductive Source where
  | command | polling | transport | auth | events
deriving DecidableEq, Repr

def Source.target : Source → String
  | .command => "susi"
  | .polling => "susi::cli::controller"
  | .transport => "susi_client::transport"
  | .auth => "susi_client::auth"
  | .events => "susi_client::events"

inductive FieldValue where
  /-- Written as it is. -/
  | plain (text : String)
  /-- Written between quotes in a line. -/
  | quoted (text : String)
deriving DecidableEq, Repr

def FieldValue.text : FieldValue → String
  | .plain text => text
  | .quoted text => text

structure Record where
  level : Level
  source : Source
  message : String
  fields : List (String × FieldValue) := []
deriving DecidableEq, Repr

def number (n : Nat) : FieldValue := .plain (toString n)

end TopicClient.Log
