import TopicClient.Json.Printer
import TopicClient.Json.Reader

/-!
# Request bodies

What the client sends: credentials, subscriptions and publications. Their members are written in
a fixed order.
-/

namespace TopicClient

inductive EncodeError where
  | refused (message : String)
  | keyMustBeString
deriving DecidableEq, Repr

def EncodeError.message : EncodeError → String
  | refused message => message
  | keyMustBeString => "key must be a string"

/-- A value to be sent, or the reason why it cannot be written. -/
abbrev Payload := Except EncodeError Json.Value

structure Credentials where
  username : String
  password : String
deriving DecidableEq, Repr

structure Subscription where
  key : String
  authLevel : UInt8
deriving DecidableEq, Repr

structure Publication where
  key : String
  payload : Json.Value
  authLevel : UInt8 := 0
  returnAddress : Option String := none

open Json

def stringMember (name value : String) : String × List Char := (name, quote value.toList)

def authLevelMember (level : UInt8) : String × List Char :=
  ("authlevel", (toString level.toNat).toList)

def Credentials.body (c : Credentials) : String :=
  String.ofList (recordChars [stringMember "username" c.username,
    stringMember "password" c.password])

def Subscription.body (s : Subscription) : String :=
  String.ofList (recordChars [stringMember "key" s.key, authLevelMember s.authLevel])

/-- The address for replies is written only if there is one. -/
def Publication.body (p : Publication) : String :=
  String.ofList (recordChars ([stringMember "key" p.key, ("payload", p.payload.chars),
    authLevelMember p.authLevel] ++
    (p.returnAddress.toList.map (stringMember "returnaddr"))))

inductive SerializationError where
  | reading (error : ReadError)
  | writing (error : EncodeError)
deriving DecidableEq, Repr

def SerializationError.message : SerializationError → String
  | reading error => error.message
  | writing error => error.message

end TopicClient
