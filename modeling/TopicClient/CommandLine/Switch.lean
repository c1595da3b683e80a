import TopicClient.CommandLine.Numeral

/-!
# Commands and their arguments

The commands of the program, the switches they know, and what else they expect. Some switches may
also stand before the command, and some take their value from the environment if they are absent.
-/

namespace TopicClient.CommandLine

inductive Switch where
  | url | timeout | insecure | username | password
  | topic | authLevel | pollInterval | keepAlive | returnAddress
deriving DecidableEq, Repr

namespace Switch

def long : Switch → String
  | url => "url"
  | timeout => "timeout-ms"
  | insecure => "insecure"
  | username => "username"
  | password => "password"
  | topic => "topic"
  | authLevel => "authlevel"
  | pollInterval => "poll-interval-ms"
  | keepAlive => "keepalive-secs"
  | returnAddress => "returnaddr"

def short? : Switch → Option Char
  | topic => some 't'
  | _ => none

/-- What its value is called; nothing if it takes none. -/
def placeholder? : Switch → Option String
  | url => some "URL"
  | timeout => some "TIMEOUT_MS"
  | insecure => none
  | username => some "USERNAME"
  | password => some "PASSWORD"
  | topic => some "TOPICS"
  | authLevel => some "AUTHLEVEL"
  | pollInterval => some "POLL_INTERVAL_MS"
  | keepAlive => some "KEEPALIVE_SECS"
  | returnAddress => some "RETURNADDR"

def takesValue (s : Switch) : Bool := s.placeholder?.isSome

def repeats : Switch → Bool
  | topic => true
  | _ => false

def environmentName? : Switch → Option String
  | url => some "SUSI_URL"
  | timeout => some "SUSI_REQUEST_TIMEOUT_MS"
  | insecure => some "SUSI_INSECURE"
  | username => some "SUSI_USERNAME"
  | password => some "SUSI_PASSWORD"
  | _ => none

def display (s : Switch) : String :=
  "--" ++ s.long ++ (match s.placeholder? with | some p => " <" ++ p ++ ">" | none => "")

/-- The switches that every command knows and that may also stand before it. -/
def shared : List Switch := [url, timeout, insecure, username, password]

end Switch

inductive Value where
  | text (s : String)
  | number (n : Nat)
  | byte (b : UInt8)
  | flag (on : Bool)
deriving DecidableEq, Repr

def Switch.read (s : Switch) (text : String) : Except NumberError Value :=
  match s with
  | timeout | pollInterval | keepAlive => (readNat64 text.toList).map .number
  | authLevel => (readByte text.toList).map .byte
  | _ => .ok (.text text)

inductive Verb where
  | login | logout | info | publish | listen | demo
deriving DecidableEq, Repr

namespace Verb

def name : Verb → String
  | login => "login"
  | logout => "logout"
  | info => "info"
  | publish => "publish"
  | listen => "listen"
  | demo => "demo"

def all : List Verb := [login, logout, info, publish, listen, demo]

def ofName? (s : String) : Option Verb := all.find? fun v => v.name = s

/-- The switches that only this command knows. -/
def switches : Verb → List Switch
  | publish => [.authLevel, .returnAddress]
  | listen => [.topic, .authLevel, .pollInterval, .keepAlive]
  | _ => []

/-- How many further arguments must follow the command. -/
def required : Verb → Nat
  | login => 2
  | publish => 1
  | _ => 0

def allowed : Verb → Nat
  | login => 2
  | publish => 2
  | _ => 0

end Verb

/-- A part of the command line: what stands before the command, or behind it. -/
inductive Level where
  | top
  | command (verb : Verb)
deriving DecidableEq, Repr

namespace Level

def switches : Level → List Switch
  | top => Switch.shared
  | command verb => verb.switches ++ Switch.shared

def allowed : Level → Nat
  | top => 0
  | command verb => verb.allowed

def findLong? (l : Level) (name : String) : Option Switch :=
  l.switches.find? fun s => s.long = name

def findShort? (l : Level) (letter : Char) : Option Switch :=
  l.switches.find? fun s => s.short? = some letter

end Level

end TopicClient.CommandLine
