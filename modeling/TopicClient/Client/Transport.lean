import TopicClient.Client.Basic

/-!
# Posting

Every call is a post of JSON, or of nothing, to a path on the server. Only the status 200 is a
success.
-/

namespace TopicClient.Client

structure Accepted where
  body : String
deriving DecidableEq, Repr

/-- The value of a call that brought a complete response of the status 200. -/
def judge (status : Nat) (body : String) : Outcome Accepted :=
  if status = 200 then .ok ⟨body⟩ else .error (.status status body)

def record (level : Log.Level) (source : Log.Source) (message : String)
    (fields : List (String × Log.FieldValue)) : Log.Record :=
  { level, source, message, fields }

def postBody (path : String) (body : Option String) : Action (Outcome Accepted) := do
  let url := endpoint (← get).base path
  log (record .debug .transport "POST" [("url", .plain url)])
  let c ← get
  let (outcome, agent) := c.agent.post url body
  set { c with agent }
  match outcome with
  | .error failure => return .error (.http failure)
  | .ok answer =>
    match answer.body with
    | .error failure => return .error (.http failure)
    | .ok text =>
      if answer.status ≠ 200 then
        log (record .debug .transport "Request rejected"
          [("url", .plain url), ("status", Log.number answer.status)])
      return judge answer.status text

def encode : Option Payload → Outcome (Option String)
  | none => .ok none
  | some (.ok v) => .ok (some v.render)
  | some (.error e) => .error (.serialization (.writing e))

def post (path : String) (payload : Option Payload) : Action (Outcome Accepted) :=
  match encode payload with
  | .ok body => postBody path body
  | .error e => return .error e

def logReply (body : String) (status : Nat) : Action Unit :=
  log (record (if status = 200 then .info else .warn) .transport body
    [("status", Log.number status)])

def logOutcome (path : String) : Outcome Accepted → Action Unit
  | .ok accepted => logReply accepted.body 200
  | .error (.status code body) => logReply body code
  | .error e =>
    log (record .warn .transport "Request failed"
      [("path", .quoted path), ("error", .plain e.message)])

def logged (path : String) (call : Action (Outcome Accepted)) : Action (Outcome Accepted) := do
  let outcome ← call
  logOutcome path outcome
  return outcome

/-- Someone who is told of the end of a call, by a body and a status. -/
abbrev Callback (α : Type) := String → Nat → Action α

/-- Tells a callback. Where there is none, the body is logged. -/
def tell {α : Type} : Option (Callback α) → Callback (Option α)
  | some callback, body, status => do return some (← callback body status)
  | none, body, status => do
    logReply body status
    return none

/-- Tells the outcome of a call to one of two callbacks. Without a response the status is 0 and the
body is the message of the error. -/
def inform {α : Type} (onSuccess onFailure : Callback α) : Outcome Accepted → Action α
  | .ok accepted => onSuccess accepted.body 200
  | .error (.status code body) => onFailure body code
  | .error e => onFailure e.message 0

def finish {α : Type} (path : String) (body : Outcome (Option String))
    (onSuccess onFailure : Callback α) : Action α :=
  match body with
  | .ok body => do inform onSuccess onFailure (← postBody path body)
  | .error e => inform onSuccess onFailure (.error e)

def sendTo {α : Type} (path : String) (payload : Option Payload)
    (onSuccess onFailure : Option (Callback α)) : Action (Option α) :=
  finish path (encode payload) (tell onSuccess) (tell onFailure)

/-- What is told of the end of a call: to the one callback if it succeeded, else to the other. -/
inductive Notice where
  | success (body : String)
  | failure (body : String) (status : Nat)
deriving DecidableEq, Repr

def send (path : String) (payload : Option Payload) (onSuccess onFailure : Bool) :
    Action (Option Notice) :=
  sendTo path payload
    (if onSuccess then some fun body _ => return .success body else none)
    (if onFailure then some fun body status => return .failure body status else none)

end TopicClient.Client
