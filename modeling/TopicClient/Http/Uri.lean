import TopicClient.Url.Basic

/-!
# The URLs of requests

A request takes fewer URLs than can be read. The text of a URL must not be too long, and there has
to be an authority behind the slashes; without slashes the whole text has to pass for one. Of what
can be read in a path or a query, nothing is refused.
-/

namespace TopicClient.Http

namespace Uri

/-- In bytes. -/
def lengthLimit : Nat := 65534

def schemeLimit : Nat := 64

structure Seen where
  colons : Nat := 0
  opened : Bool := false
  closed : Bool := false
  percent : Bool := false

def isOrdinary (c : Char) : Bool := c.isAlphanum || "!$&'()*+,-.;=_~".toList.contains c

/-- The at sign ends an account and the bracket an address, and what they have of colons and percent
signs is forgotten. -/
def Seen.step? (s : Seen) (c : Char) : Option Seen :=
  match c with
  | ':' => if s.colons < 8 then some { s with colons := s.colons + 1 } else none
  | '[' => if s.percent || s.opened then none else some { s with opened := true }
  | ']' =>
    if s.opened && !s.closed then some { s with closed := true, colons := 0, percent := false }
    else none
  | '@' => some { s with colons := 0, percent := false }
  | '%' => some { s with percent := true }
  | c => if isOrdinary c then some s else none

def Seen.isComplete (s : Seen) : Bool :=
  s.opened == s.closed && decide (s.colons ≤ 1) && !s.percent

def isAuthority (text : String) : Bool :=
  text ≠ "" && text.toList.getLast? ≠ some '@' &&
    (text.toList.foldlM Seen.step? {}).any (·.isComplete)

end Uri

/-- Whether a request can be made for a URL, if its scheme is one of the web. -/
def isUri (u : Url) : Bool :=
  u.render.utf8ByteSize ≤ Uri.lengthLimit &&
    match u.authority with
    | some a => u.scheme.name.length ≤ Uri.schemeLimit && Uri.isAuthority a.render
    | none => Uri.isAuthority u.render

/-- What a request keeps of a URL: no fragment, and a path behind every authority. -/
def Uri.ofUrl? (u : Url) : Option Url :=
  let path := if u.authority.isSome && u.path.render.isEmpty then .rooted [""] else u.path
  if isUri u then some { u with path, fragment := none } else none

end TopicClient.Http
