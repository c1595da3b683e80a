import TopicClient.Client.Config
import TopicClient.Registry.Basic
import TopicClient.CommandLine.Scan

/-!
# Invocations

What the program is asked to do: how to reach the server, as whom, and the command. A shared switch
may be given on either side of the command; the one behind it counts if both are given, and either
counts more than the environment.
-/

namespace TopicClient.CommandLine

inductive Command where
  | login (credentials : Credentials)
  | logout
  | info
  | publish (message : Publication)
  /-- The times are in milliseconds and in seconds. -/
  | listen (topics : List String) (authLevel : UInt8) (pollInterval keepAlive : Nat)
  | demo

structure Invocation where
  config : Config
  credentials : Option Credentials
  command : Command

abbrev Environment := String → Option String

def readVariable (s : Switch) (text : String) : Except Refusal Value :=
  if s.takesValue then (s.read text).mapError (.invalidValue s text)
  else if text = "true" then .ok (.flag true)
  else if text = "false" then .ok (.flag false)
  else if text.isEmpty then .error (.missingValue s)
  else .error (.unknownValue s text)

namespace Reading

/-- Takes from the environment what has not been given. -/
def fill (environment : Environment) (r : Reading) (s : Switch) : Except Refusal Reading :=
  match s.environmentName?.bind environment with
  | some text =>
    if r.has s then .ok r
    else do
      let value ← readVariable s text
      return { r with
        settings := r.settings ++ [{ switch := s, value, fromEnvironment := true }] }
  | none => .ok r

def complete (environment : Environment) (r : Reading) : Except Refusal Reading := do
  let r ← r.settle
  Switch.shared.foldlM (fill environment) r

def lacksPassword (r : Reading) : Bool := r.has .username && !r.has .password

end Reading

structure Levels where
  top : Reading
  command : Reading

namespace Levels

def find? (l : Levels) (s : Switch) : Option Value :=
  let given (r : Reading) : Option Setting := (r.find? s).filter fun t => !t.fromEnvironment
  (given l.command <|> given l.top <|> l.command.find? s <|> l.top.find? s).map (·.value)

def text? (l : Levels) (s : Switch) : Option String :=
  match l.find? s with
  | some (.text t) => some t
  | _ => none

def number? (l : Levels) (s : Switch) : Option Nat :=
  match l.find? s with
  | some (.number n) => some n
  | _ => none

def byte? (l : Levels) (s : Switch) : Option UInt8 :=
  match l.find? s with
  | some (.byte b) => some b
  | _ => none

def flag (l : Levels) (s : Switch) : Bool := l.find? s = some (.flag true)

def texts (l : Levels) (s : Switch) : List String :=
  l.command.settings.filterMap fun t =>
    match t.value with
    | .text text => if t.switch = s then some text else none
    | _ => none

def defaultUrl : String := "http://localhost:8080"

def config (l : Levels) : Config :=
  { Config.ofUrl ((l.text? .url).getD defaultUrl) with
    timeout := l.number? .timeout
    insecure := l.flag .insecure }

def credentials (l : Levels) : Option Credentials :=
  match l.text? .username, l.text? .password with
  | some username, some password => some ⟨username, password⟩
  | _, _ => none

end Levels

/-- The payload that a text stands for: the JSON value it denotes, or else itself. -/
def readPayload (text : String) : Json.Value :=
  match Json.parseValue text with
  | .ok v => v
  | .error _ => .string text

def everything : List String := [Registry.wildcard]

def buildCommand (verb : Verb) (l : Levels) : Except Refusal Command :=
  match verb, l.command.operands with
  | .login, username :: password :: _ => .ok (.login ⟨username, password⟩)
  | .login, _ => .error .missingArguments
  | .logout, _ => .ok .logout
  | .info, _ => .ok .info
  | .publish, key :: rest =>
    .ok (.publish
      { key
        payload := readPayload (rest.head?.getD "null")
        authLevel := (l.byte? .authLevel).getD 0
        returnAddress := l.text? .returnAddress })
  | .publish, [] => .error .missingArguments
  | .listen, _ =>
    let topics := l.texts .topic
    .ok (.listen (if topics.isEmpty then everything else topics)
      ((l.byte? .authLevel).getD 0) ((l.number? .pollInterval).getD 1000)
      ((l.number? .keepAlive).getD 60))
  | .demo, _ => .ok .demo

/-- Reads a command line, without the name of the program. The command and what follows it are
looked at as a whole before what stands in front of it. -/
def parse (environment : Environment) (args : List String) : Except Refusal Invocation := do
  let (top, rest) ← scan .top false {} args
  match rest with
  | none =>
    let top ← top.complete environment
    throw (if top.settings.isEmpty then .nothingGiven else .missingCommand)
  | some (verb, args) =>
    let (below, _) ← scan (.command verb) false {} args
    let below ← below.complete environment
    if below.lacksPassword ∨ below.operands.length < verb.required then throw .missingArguments
    let top ← top.complete environment
    if top.lacksPassword then throw .missingArguments
    let levels : Levels := ⟨top, below⟩
    return ⟨levels.config, levels.credentials, ← buildCommand verb levels⟩

end TopicClient.CommandLine
