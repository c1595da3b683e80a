import TopicClient.Message.Decoding

/-!
# Session descriptions

A session is written as an object, or as an array of its fields in order. Its end may be missing.
-/

namespace TopicClient

structure Session where
  user : String
  authLevel : Int
  /-- When the server drops the session, in seconds since 1970. -/
  validUntil : Int := 0
deriving DecidableEq, Repr

namespace Session

open Json Message

inductive Field where
  | user | authLevel | validUntil
deriving DecidableEq, Repr

namespace Field

def name : Field → String
  | user => "user"
  | authLevel => "authlevel"
  | validUntil => "validuntil"

def ofKey? (key : String) : Option Field :=
  if key = "user" then some user
  else if key = "authlevel" then some authLevel
  else if key = "validuntil" then some validUntil
  else none

def all : List Field := [user, authLevel, validUntil]

end Field

structure Partial where
  user : Option String := none
  authLevel : Option Int := none
  validUntil : Option Int := none

namespace Partial

def has (p : Partial) : Field → Bool
  | .user => p.user.isSome
  | .authLevel => p.authLevel.isSome
  | .validUntil => p.validUntil.isSome

/-- The session, or the first required field that is missing. -/
def complete (p : Partial) : Except Field Session :=
  match p.user, p.authLevel with
  | none, _ => .error .user
  | _, none => .error .authLevel
  | some user, some authLevel => .ok ⟨user, authLevel, p.validUntil.getD 0⟩

end Partial

def readInt64 : Reader Int := readIntegerField "i64" (-9223372036854775808) 9223372036854775807

def readField (p : Partial) : Field → Reader Partial
  | .user => fun s => do let (v, r) ← readTextField s; return ({ p with user := v }, r)
  | .authLevel => fun s => do let (v, r) ← readInt64 s; return ({ p with authLevel := v }, r)
  | .validUntil => fun s => do let (v, r) ← readInt64 s; return ({ p with validUntil := v }, r)

def readMembers : Nat → Bool → Partial → Reader Session
  | 0, _, _, s => .error (.before .endInObject s)
  | fuel + 1, first, p, s => do
    match ← nextKey first s with
    | .close r =>
      match p.complete with
      | .ok v => return (v, r)
      | .error f => .error (.before (.missingField f.name) r)
    | .item r =>
      let (key, r) ← readString r
      match Field.ofKey? key with
      | none => readMembers fuel false p (← skipValue (← readColon r))
      | some f =>
        if p.has f then .error (.before (.duplicateField f.name) (afterObject r))
        else
          let (p, r) ← readField p f (← readColon r)
          readMembers fuel false p r

/-- The report on an array that ends before the field `f`. -/
def tooShort (f : Field) : Cause :=
  .invalidLength (Field.all.idxOf f) "struct SessionInfo with 3 elements"

def readElements : List Field → Bool → Partial → Reader Session
  | [], _, p, s => do
    let r ← closeArray s
    match p.complete with
    | .ok v => return (v, r)
    | .error f => .error (.before (tooShort f) r)
  | f :: fs, first, p, s => do
    match ← nextElement first s with
    | .close r =>
      match p.complete with
      | .ok v => return (v, r)
      | .error f => .error (.before (tooShort f) r)
    | .item r =>
      let (p, r) ← readField p f r
      readElements fs false p r

def read : Reader Session := fun s =>
  match skipBlanks s with
  | [] => .error (.before .endInValue [])
  | '[' :: r => readElements Field.all true {} r
  | '\x7b' :: r => readMembers (r.length + 1) true {} r
  | r => .error (wrongType "struct SessionInfo" r)

def parse (body : String) : Except ReadError Session := readText read body

end Session

end TopicClient
