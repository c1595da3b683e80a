import TopicClient.Http.Failure
import TopicClient.Http.Message
import TopicClient.Http.Uri
import TopicClient.Text.Utf8

/-!
# Exchanges with a server

An agent sends requests to one server and keeps its cookies. It follows redirections, at most ten
for one call; cookies are taken from every response on the way and sent along on every request.
-/

namespace TopicClient.Http

/-- The server: what it does with the requests to come, one after the other. A server that has no
more replies accepts everything without a word. -/
structure Server where
  isReachable : Bool := true
  replies : List Reply := []
deriving DecidableEq, Repr

structure Agent where
  server : Server
  jar : Cookie.Jar := {}
  /-- The time in seconds since 1970. -/
  now : Int := 0
  /-- The requests that have reached the server, in order. -/
  received : List Received := []
deriving DecidableEq, Repr

/-- The end of a chain of redirections: a response whose status and headers have come. -/
structure Answer where
  status : Nat
  body : Except Failure String

namespace Agent

def send (a : Agent) (r : Request) : Option Reply × Agent :=
  if a.server.isReachable then
    let received := a.received ++ [r.received (a.jar.select a.now r.url)]
    match a.server.replies with
    | [] => (some (.response {}), { a with received })
    | reply :: replies =>
      (some reply, { a with received, server := { a.server with replies } })
  else (none, a)

def keepCookies (a : Agent) (url : Url) (r : Response) : Agent :=
  { a with jar := a.jar.receiveAll a.now url r.headers }

end Agent

def isRedirection (status : Nat) : Bool := [301, 302, 303, 307, 308].contains status

/-- The URL a response leads to, if it can be read and is one that requests take. A response that
leads nowhere is an answer like any other. -/
def Response.redirection? (r : Response) (url : Url) : Option Url :=
  if isRedirection r.status then
    (r.header? "location").bind fun reference =>
      (Url.resolve url reference).toOption.bind Uri.ofUrl?
  else none

/-- The request that follows a redirection. Some keep the request as it is, and the others ask for
the new URL without a body. -/
def Request.redirect (r : Request) (status : Nat) (url : Url) : Request :=
  if status = 307 ∨ status = 308 then { r with url } else { method := .get, url }

def Response.text (r : Response) : Except Failure String :=
  if isBodiless r.status then .ok ""
  else
    match r.ending with
    | .complete => .ok (String.ofList (Text.decodeLossy r.body))
    | .cutShort => .error .bodyCutShort
    | .stalled => .error .bodyTimedOut

def isWebScheme : Url.Scheme → Bool
  | .http | .https => true
  | _ => false

def redirectLimit : Nat := 10

namespace Agent

/-- Sends a request and follows at most `limit` redirections. A failure to get a response is
reported on the URL `start` of the first request. -/
def follow (start : Url) : Nat → Agent → Request → Except Failure Answer × Agent
  | limit, a, r =>
    match a.send r with
    | (none, a) => (.error (.refused start), a)
    | (some .closed, a) => (.error (.closed start), a)
    | (some .silent, a) => (.error (.timedOut start), a)
    | (some (.response response), a) =>
      let a := a.keepCookies r.url response
      match response.redirection? r.url with
      | none => (.ok ⟨response.status, response.text⟩, a)
      | some url =>
        match limit with
        | 0 => (.error (.tooManyRedirects r.url), a)
        | limit + 1 =>
          if isWebScheme url.scheme then
            follow start limit a (r.redirect response.status url)
          else (.error (.foreignScheme url), a)

def post (a : Agent) (url : String) (body : Option String) : Except Failure Answer × Agent :=
  match Url.parse url with
  | .error cause => (.error (.unreadable cause), a)
  | .ok url =>
    let url := url.withoutAccount
    if isWebScheme url.scheme then
      if isUri url then follow url redirectLimit a { method := .post, url, body }
      else (.error (.unusable url), a)
    else (.error (.foreignScheme url), a)

end Agent

end TopicClient.Http
