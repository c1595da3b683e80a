import TopicClient.Http.Failure
import TopicClient.Message.Request

/-!
# Errors of a client

Why a call did not succeed, and what is said about it.
-/

namespace TopicClient

inductive ClientError where
  /-- The server answered, but not with the status 200. -/
  | status (code : Nat) (body : String)
  /-- There was no complete response. -/
  | http (failure : Http.Failure)
  | serialization (error : SerializationError)
  /-- The address of the server cannot be used. -/
  | invalidUrl (text : String)
deriving DecidableEq, Repr

namespace ClientError

def message : ClientError → String
  | status code body => s!"Request failed with status {code}: {body}"
  | http failure => "HTTP error: " ++ failure.message
  | serialization error => "Serialization error: " ++ error.message
  | invalidUrl text => "Invalid URL: " ++ text

/-- The status that is reported for an error: 0 if the server did not answer. -/
def status? : ClientError → Option Nat
  | status code _ => some code
  | http _ => some 0
  | _ => none

def body? : ClientError → Option String
  | status _ body => some body
  | _ => none

/-- The messages of an error and of its causes. -/
def chain (e : ClientError) : List String :=
  e.message :: match e with
    | http failure => failure.message :: failure.causes
    | serialization error => [error.message]
    | status _ _ | invalidUrl _ => []

end ClientError

end TopicClient
