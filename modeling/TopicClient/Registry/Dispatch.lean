import TopicClient.Message.Event
import TopicClient.Registry.Basic

/-!
# Delivering events

A batch is delivered from its last event to its first. For each event the handlers are taken from
the registry as it stands when the turn of the event begins; what a handler registers while it runs
takes part from the next event on.
-/

namespace TopicClient

mutual

inductive Handler where
  | logging
  /-- Records the call under its name, if it has one, then makes further registrations in the
  order given. -/
  | recording (name : Option String) (followUps : List FollowUp)

/-- A registration made by a handler. -/
inductive FollowUp where
  /-- Straight at the registry. -/
  | register (key : String) (handler : Handler)
  /-- Through a client, which reports it, and without a request to the server. -/
  | subscribe (key : String) (handler : Handler)

end

instance : Inhabited Handler := ⟨.logging⟩

namespace FollowUp

def key : FollowUp → String
  | register key _ => key
  | subscribe key _ => key

def handler : FollowUp → Handler
  | register _ handler => handler
  | subscribe _ handler => handler

end FollowUp

structure Call where
  handler : Option String
  topic : String
  payload : Json.Value

structure Delivery where
  registry : Registry Handler
  calls : List Call := []
  logs : List Log.Record := []

namespace Delivery

def log (d : Delivery) (record : Log.Record) : Delivery := { d with logs := d.logs ++ [record] }

def registered (key : String) (authLevel : UInt8) : Log.Record :=
  { level := .debug
    source := .events
    message := "Registered handler"
    fields := [("topic", .quoted key), ("authlevel", Log.number authLevel.toNat)] }

/-- Registers a handler. Fails, with the state as it was, when the key cannot be used. -/
def register (d : Delivery) (key : String) (handler : Handler) : Except Delivery Delivery :=
  match d.registry.register key handler with
  | .done registry => .ok { d with registry }
  | .literal registry cause => .ok ({ d with registry }.log (Registry.unreadableKey key cause))
  | .refused => .error d

def subscribe (d : Delivery) (key : String) (authLevel : UInt8) (handler : Handler) :
    Except Delivery Delivery := do
  let d ← d.register key handler
  return d.log (registered key authLevel)

def followUp (d : Delivery) : FollowUp → Except Delivery Delivery
  | .register key handler => d.register key handler
  | .subscribe key handler => d.subscribe key 0 handler

def eventLine (e : Event) : String :=
  s!"Logging: {(Json.Value.string e.topic).render} : {e.payload.render}"

def call (d : Delivery) (e : Event) : Handler → Except Delivery Delivery
  | .logging => .ok (d.log { level := .info, source := .polling, message := eventLine e })
  | .recording name followUps =>
    followUps.foldlM followUp { d with calls := d.calls ++ [⟨name, e.topic, e.payload⟩] }

def unhandled (topic : String) : Log.Record :=
  { level := .debug
    source := .events
    message := "No handlers for event"
    fields := [("topic", .plain topic)] }

def deliver (d : Delivery) (e : Event) : Except Delivery (Delivery × Nat) :=
  match d.registry.order e.topic with
  | [] => .ok (d.log (unhandled e.topic), 0)
  | hs => do
    let d ← hs.foldlM (fun d h => d.call e h) d
    return (d, hs.length)

def deliverAll (d : Delivery) : List Event → Except Delivery (Delivery × Nat)
  | [] => .ok (d, 0)
  | e :: es => do
    let (d, n) ← d.deliver e
    let (d, m) ← d.deliverAll es
    return (d, n + m)

/-- Delivers a batch, its last event first, and counts the calls. -/
def dispatch (d : Delivery) (batch : List Event) : Except Delivery (Delivery × Nat) :=
  d.deliverAll batch.reverse

end Delivery

end TopicClient
