import TopicClient.Message.Decoding
import TopicClient.Text.Blank

/-!
# Events

An event is written as an object, or as an array of its fields in order. Only its topic is
required. A batch is an array of events, null, or nothing at all.
-/

namespace TopicClient

structure Event where
  id : UInt64 := 0
  sessionId : UInt64 := 0
  topic : String
  authLevel : UInt8 := 0
  returnAddress : String := ""
  payload : Json.Value := .null
  username : Option String := none

namespace Event

open Json Message

/-- The address for replies, if the publisher gave one. -/
def replyTo (e : Event) : Option String :=
  if e.returnAddress.isEmpty then none else some e.returnAddress

inductive Field where
  | id | sessionId | topic | authLevel | returnAddress | payload | username
deriving DecidableEq, Repr

namespace Field

def name : Field → String
  | id => "id"
  | sessionId => "sessionid"
  | topic => "topic"
  | authLevel => "authlevel"
  | returnAddress => "returnaddr"
  | payload => "payload"
  | username => "username"

/-- The field a key stands for. Two fields may be written with a capital letter. -/
def ofKey? (key : String) : Option Field :=
  if key = "id" then some id
  else if key = "sessionid" then some sessionId
  else if key = "topic" ∨ key = "Topic" then some topic
  else if key = "authlevel" then some authLevel
  else if key = "returnaddr" then some returnAddress
  else if key = "payload" ∨ key = "Payload" then some payload
  else if key = "username" then some username
  else none

/-- All fields, in the order in which an array gives them. -/
def all : List Field := [id, sessionId, topic, authLevel, returnAddress, payload, username]

end Field

structure Partial where
  id : Option UInt64 := none
  sessionId : Option UInt64 := none
  topic : Option String := none
  authLevel : Option UInt8 := none
  returnAddress : Option String := none
  payload : Option Value := none
  username : Option (Option String) := none

namespace Partial

def has (p : Partial) : Field → Bool
  | .id => p.id.isSome
  | .sessionId => p.sessionId.isSome
  | .topic => p.topic.isSome
  | .authLevel => p.authLevel.isSome
  | .returnAddress => p.returnAddress.isSome
  | .payload => p.payload.isSome
  | .username => p.username.isSome

/-- The event, with the defaults for what is missing, once there is a topic. -/
def complete (p : Partial) : Option Event :=
  p.topic.map fun topic =>
    { id := p.id.getD 0
      sessionId := p.sessionId.getD 0
      topic
      authLevel := p.authLevel.getD 0
      returnAddress := p.returnAddress.getD ""
      payload := p.payload.getD .null
      username := p.username.getD none }

end Partial

def readUInt64 : Reader UInt64 := fun s => do
  let (n, r) ← readIntegerField "u64" 0 18446744073709551615 s
  return (n.toNat.toUInt64, r)

def readUInt8 : Reader UInt8 := fun s => do
  let (n, r) ← readIntegerField "u8" 0 255 s
  return (n.toNat.toUInt8, r)

def readField (depth : Nat) (p : Partial) : Field → Reader Partial
  | .id => fun s => do let (v, r) ← readUInt64 s; return ({ p with id := v }, r)
  | .sessionId => fun s => do let (v, r) ← readUInt64 s; return ({ p with sessionId := v }, r)
  | .topic => fun s => do let (v, r) ← readTextField s; return ({ p with topic := v }, r)
  | .authLevel => fun s => do let (v, r) ← readUInt8 s; return ({ p with authLevel := v }, r)
  | .returnAddress => fun s => do
    let (v, r) ← readTextField s
    return ({ p with returnAddress := v }, r)
  | .payload => fun s => do let (v, r) ← readValue depth s; return ({ p with payload := v }, r)
  | .username => fun s => do
    let (v, r) ← readOptionalTextField s
    return ({ p with username := some v }, r)

/-- Reads the members of an event and its closing bracket; members of other names are passed
over. There are at most `fuel` members. -/
def readMembers (depth : Nat) : Nat → Bool → Partial → Reader Event
  | 0, _, _, s => .error (.before .endInObject s)
  | fuel + 1, first, p, s => do
    match ← nextKey first s with
    | .close r =>
      match p.complete with
      | some e => return (e, r)
      | none => .error (.before (.missingField Field.topic.name) r)
    | .item r =>
      let (key, r) ← readString r
      match Field.ofKey? key with
      | none => readMembers depth fuel false p (← skipValue (← readColon r))
      | some f =>
        if p.has f then .error (.before (.duplicateField f.name) (afterObject r))
        else
          let (p, r) ← readField depth p f (← readColon r)
          readMembers depth fuel false p r

def readElements (depth : Nat) : List Field → Bool → Partial → Reader Event
  | [], _, p, s => do
    let r ← closeArray s
    match p.complete with
    | some e => return (e, r)
    | none => .error (.before (.missingField Field.topic.name) r)
  | f :: fs, first, p, s => do
    match ← nextElement first s with
    | .close r =>
      match p.complete with
      | some e => return (e, r)
      | none => .error (.before (.invalidLength 2 "struct Event with 7 elements") r)
    | .item r =>
      let (p, r) ← readField depth p f r
      readElements depth fs false p r

def read (depth : Nat) : Reader Event := fun s =>
  match skipBlanks s with
  | [] => .error (.before .endInValue [])
  | '[' :: r => readElements (depth - 1) Field.all true {} r
  | '\x7b' :: r => readMembers (depth - 1) (r.length + 1) true {} r
  | r => .error (wrongType "struct Event" r)

/-- Reads a batch: an array of events, or null for none. -/
def readBatch : Reader (List Event) := fun s =>
  match skipBlanks s with
  | [] => .error (.before .endInValue [])
  | 'n' :: r => do return ([], ← readWord ['u', 'l', 'l'] r)
  | '[' :: r => Json.readElements (read (depthLimit - 1)) (r.length + 1) true r
  | r => .error (wrongType "a sequence" r)

/-- Reads the body of a poll. A body of nothing but white space holds no events. -/
def parseBatch (body : String) : Except ReadError (List Event) :=
  if Text.isAllBlank body then .ok [] else readText readBatch body

end Event

end TopicClient
