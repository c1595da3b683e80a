import TopicClient.Cookie.Jar

/-!
# Requests and replies

What is sent to a server, and what it may do with it.
-/

namespace TopicClient.Http

inductive Method where
  | get | post
deriving DecidableEq, Repr

def Method.name : Method → String
  | get => "GET"
  | post => "POST"

/-- A request. A body is always JSON. -/
structure Request where
  method : Method
  url : Url
  body : Option String := none
deriving DecidableEq, Repr

structure Received where
  method : Method
  target : String
  contentType : Option String
  cookies : List Cookie
  body : String
deriving DecidableEq, Repr

def jsonType : String := "application/json"

def Request.received (r : Request) (cookies : List Cookie) : Received :=
  { method := r.method
    target := r.url.target
    contentType := r.body.map fun _ => jsonType
    cookies
    body := r.body.getD "" }

/-- The cookies of a request in the order of their texts; nothing if there are none. -/
def Received.cookieTexts (r : Received) : Option (List String) :=
  if r.cookies.isEmpty then none
  else some ((r.cookies.map (·.render)).mergeSort fun a b => decide (a ≤ b))

inductive Ending where
  | complete
  /-- The connection is lost before all of the body has come. -/
  | cutShort
  /-- The body never ends, and the request times out. -/
  | stalled
deriving DecidableEq, Repr

structure Response where
  status : Nat := 200
  headers : List (String × String) := []
  body : List UInt8 := []
  ending : Ending := .complete
deriving DecidableEq, Repr

inductive Reply where
  | response (r : Response)
  /-- The connection is closed without an answer. -/
  | closed
  /-- Nothing comes back before the request times out. -/
  | silent
deriving DecidableEq, Repr

/-- The value of the first header of a name, in whatever case it is written. -/
def Response.header? (r : Response) (name : String) : Option String :=
  (r.headers.find? fun h => Text.lower h.1 = name).map (·.2)

/-- Whether responses of a status have no body, whatever was meant to be in it. -/
def isBodiless (status : Nat) : Bool := status = 204 || status = 304

end TopicClient.Http
