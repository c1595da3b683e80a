import TopicClient.Client.Transport

/-!
# Publishing, subscribing and fetching

Handlers are kept by the client. A subscription is in place before the server hears of it, and
stays in place whatever the server says to it.
-/

namespace TopicClient.Client

namespace Path

def publish : String := "/events/publish"
def subscribe : String := "/events/subscribe"
def fetch : String := "/events/get"

end Path

/-- Why a call that puts handlers in place, or calls them, does not succeed. -/
inductive Fault where
  | error (error : ClientError)
  /-- A key nests too deeply to be used, and the call is broken off on the spot. -/
  | unusableKey

def publishMessage (message : Publication) : Action (Outcome Unit) := do
  return (← logged Path.publish (postBody Path.publish (some message.body))).map fun _ => ()

def publish (key : String) (payload : Payload) : Action (Outcome Unit) :=
  match payload with
  | .ok payload => publishMessage { key, payload }
  | .error e => return .error (.serialization (.writing e))

def register (key : String) (authLevel : UInt8) (handler : Handler) : Action Bool := do
  let c ← get
  match c.delivery.subscribe key authLevel handler with
  | .ok delivery =>
    set { c with delivery }
    return true
  | .error delivery =>
    set { c with delivery }
    return false

def announce (subscription : Subscription) : Action (Outcome Unit) := do
  return (← logged Path.subscribe (postBody Path.subscribe (some subscription.body))).map
    fun _ => ()

def subscribe (key : String) (authLevel : UInt8) (handler : Handler) :
    Action (Except Fault Unit) := do
  if ← register key authLevel handler then
    return (← announce ⟨key, authLevel⟩).mapError .error
  else return .error .unusableKey

def deliver (batch : List Event) : Action (Except Fault Nat) := do
  let c ← get
  match c.delivery.dispatch batch with
  | .ok (delivery, invoked) =>
    set { c with delivery }
    log (record .debug .events "Dispatched events"
      [("events", Log.number batch.length), ("invoked", Log.number invoked)])
    return .ok batch.length
  | .error delivery =>
    set { c with delivery }
    return .error .unusableKey

/-- Fetches the events that wait at the server and delivers them. Nothing is delivered of a batch
that cannot be read as a whole. -/
def fetch : Action (Except Fault Nat) := do
  match ← postBody Path.fetch none with
  | .error e =>
    log (record .warn .events "Failed to fetch events" [("error", .plain e.message)])
    return .error (.error e)
  | .ok accepted =>
    match Event.parseBatch accepted.body with
    | .error e => return .error (.error (.serialization (.reading e)))
    | .ok batch => deliver batch

end TopicClient.Client
