import TopicClient.Client.Transport
import TopicClient.Message.Session

/-!
# Sessions

The server alone knows whether a client is logged in; the client keeps nothing but its cookies.
-/

namespace TopicClient.Client

namespace Path

def login : String := "/auth/login"
def logout : String := "/auth/logout"
def keepAlive : String := "/auth/keepalive"
def info : String := "/auth/info"

end Path

def statusText (e : ClientError) : String :=
  match e.status? with
  | some code => s!"Some({code})"
  | none => "None"

def login (credentials : Credentials) : Action (Outcome Unit) := do
  match ← postBody Path.login (some credentials.body) with
  | .ok _ =>
    log (record .info .auth ("successfully logged in as " ++ credentials.username) [])
    return .ok ()
  | .error e =>
    log (record .warn .auth ("failed logging in as " ++ credentials.username)
      [("status", .plain (statusText e))])
    return .error e

def logout : Action (Outcome Unit) := do
  return (← logged Path.logout (postBody Path.logout none)).map fun _ => ()

def keepAlive : Action (Outcome Unit) := do
  return (← logged Path.keepAlive (postBody Path.keepAlive none)).map fun _ => ()

def info : Action (Outcome String) := do
  return (← logged Path.info (postBody Path.info none)).map (·.body)

def session : Action (Outcome Session) := do
  match ← postBody Path.info none with
  | .error e => return .error e
  | .ok accepted =>
    return (Session.parse accepted.body).mapError fun e => .serialization (.reading e)

end TopicClient.Client
