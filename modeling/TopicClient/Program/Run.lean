import TopicClient.CommandLine.Invocation
import TopicClient.Polling.Loop
import TopicClient.Program.Conclusion

/-!
# Running commands

What each command does with a client. Every command but the one that logs in begins by logging in if
there are credentials for it, and does nothing more if that fails.
-/

namespace TopicClient.Program

open Client CommandLine

def log (level : Log.Level) (message : String) (fields : List (String × Log.FieldValue)) :
    Action Unit :=
  Client.log (record level .command message fields)

def sessionLines (s : Session) : List String :=
  [s!"User: {s.user}", s!"Authlevel: {s.authLevel}", s!"Valid until: {s.validUntil}"]

def runLogin (credentials : Credentials) : Action Conclusion := do
  match ← login credentials with
  | .error e => return .ofError s!"Login as {credentials.username} failed" e
  | .ok () =>
    match ← session with
    | .error e => return .ofError "Failed to read session" e
    | .ok s => return .success (sessionLines s)

def runLogout : Action Conclusion := do
  match ← logout with
  | .error e => return .ofError "Logout failed" e
  | .ok () => return .success []

def runInfo : Action Conclusion := do
  match ← info with
  | .error e => return .ofError "Info request failed" e
  | .ok body => return .success [String.ofList (Text.trimEnd body.toList)]

def runPublish (message : Publication) : Action Conclusion := do
  match ← publishMessage message with
  | .error e => return .ofError s!"Failed to publish to {message.key}" e
  | .ok () => return .success [s!"Published to {message.key}"]

/-- The loop is told to stop once `limit` requests have reached the server. -/
def shutdownAfter (limit : Nat) : Polling.Shutdown := fun c =>
  if limit ≤ c.agent.received.length then some 0 else none

/-- Watches the topics and polls until told to stop. Every call of the loop makes a request, so it
makes at most `limit` of them. -/
def runListen (limit : Nat) (topics : List String) (authLevel : UInt8)
    (pollInterval keepAlive : Nat) : Action Conclusion := do
  if h : 0 < pollInterval ∧ 0 < 1000 * keepAlive then
    match ← Polling.watchAll authLevel topics with
    | .error fault => return .ofFault "" fault
    | .ok () =>
      log .info "Listening for events"
        [("url", .plain (← get).config.url), ("topics", .plain (Text.quotedList topics))]
      let timers := Polling.Timers.start pollInterval (1000 * keepAlive) h.1 h.2
      let turns := timers.turns 0 (List.replicate (limit + 1) 0)
      match ← Polling.run (shutdownAfter limit) 0 turns with
      | .error fault => return .ofFault "" fault
      | .ok _ => return .success []
  else return .failure "Poll and keepalive intervals must be greater than zero" []

def sampleEvent : Publication :=
  { key := "foo", payload := .object [("this", .string "is it")] }

def runDemo : Action Conclusion := do
  match ← Polling.watch Registry.wildcard 0 with
  | .error fault => return .ofFault "" fault
  | .ok () =>
    match ← publishMessage sampleEvent with
    | .error e => log .warn "Publish failed" [("error", .plain e.message)]
    | .ok () => pure ()
    match ← fetch with
    | .error fault => return .ofFault "Poll failed" fault
    | .ok n =>
      log .info "Demo finished" [("events", Log.number n)]
      return .success []

def runCommand (limit : Nat) : Command → Action Conclusion
  | .login credentials => runLogin credentials
  | .logout => runLogout
  | .info => runInfo
  | .publish message => runPublish message
  | .listen topics authLevel pollInterval keepAlive =>
    runListen limit topics authLevel pollInterval keepAlive
  | .demo => runDemo

def initialLogin (i : Invocation) : Option Credentials :=
  match i.command with
  | .login _ => none
  | _ => i.credentials

def run (limit : Nat) (i : Invocation) : Action Conclusion := do
  match initialLogin i with
  | none => runCommand limit i.command
  | some credentials =>
    match ← login credentials with
    | .error e => return .ofError "Login failed" e
    | .ok () => runCommand limit i.command

end TopicClient.Program
