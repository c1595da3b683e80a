import TopicClient.Client.Auth
import TopicClient.Client.Events
import TopicClient.Polling.Timer

/-!
# The polling loop

The loop fetches events and keeps the session alive, each on its own timer. A call that fails is
logged, and the loop goes on; it ends only when it is told to stop.
-/

namespace TopicClient.Polling

open Client

def log (level : Log.Level) (message : String) (fields : List (String × Log.FieldValue)) :
    Action Unit :=
  Client.log (record level .polling message fields)

/-- Subscribes the logging handler to a topic. It stays in place if the server does not agree. -/
def watch (topic : String) (authLevel : UInt8) : Action (Except Fault Unit) := do
  match ← subscribe topic authLevel .logging with
  | .ok () => return .ok ()
  | .error (.error e) =>
    log .warn "Server did not accept subscription"
      [("topic", .quoted topic), ("error", .plain e.message)]
    return .ok ()
  | .error .unusableKey => return .error .unusableKey

def watchAll (authLevel : UInt8) : List String → Action (Except Fault Unit)
  | [] => return .ok ()
  | topic :: topics => do
    match ← watch topic authLevel with
    | .ok () => watchAll authLevel topics
    | .error fault => return .error fault

def poll : Action (Except Fault Unit) := do
  match ← fetch with
  | .ok 0 => return .ok ()
  | .ok n =>
    log .debug "Polled events" [("events", Log.number n)]
    return .ok ()
  | .error (.error e) =>
    log .warn "Poll failed" [("error", .plain e.message)]
    return .ok ()
  | .error .unusableKey => return .error .unusableKey

def refresh : Action Unit := do
  match ← keepAlive with
  | .ok () => return ()
  | .error e => log .warn "Keepalive failed" [("error", .plain e.message)]

def perform : Task → Action (Except Fault Unit)
  | .poll => poll
  | .keepAlive => do
    refresh
    return .ok ()

def performAll : List Task → Action (Except Fault Unit)
  | [] => return .ok ()
  | task :: tasks => do
    match ← perform task with
    | .ok () => performAll tasks
    | .error fault => return .error fault

def stop : Action Unit := log .info "Shutdown signal received, stopping" []

def wake (timers : Timers) (now : Nat) : Action Timers := do
  let (tasks, timers) := timers.drain now
  let _ ← performAll tasks
  return timers

/-- The moment at which the loop is told to stop, once the state of the client settles it. -/
abbrev Shutdown := Client → Option Nat

/-- Runs the loop, free from `now` on, through its turns. Returns the moment at which it ends; `none`
if it has not ended after all of them. A call that has begun is finished, and none begins once the
loop is told to stop. -/
def run (shutdown : Shutdown) : Nat → List Turn → Action (Except Fault (Option Nat))
  | _, [] => return .ok none
  | now, turn :: turns => do
    match (shutdown (← get)).filter (· ≤ turn.start) with
    | some moment =>
      stop
      return .ok (some (max now moment))
    | none =>
      match ← perform turn.task with
      | .ok () => run shutdown turn.finish turns
      | .error fault => return .error fault

end TopicClient.Polling
