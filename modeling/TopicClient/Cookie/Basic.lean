import TopicClient.Cookie.Date
import TopicClient.Text.Blank

/-!
# Cookies

A server hands out a cookie with a name, a value and attributes. Attributes that cannot be read are
passed over.
-/

namespace TopicClient

structure Cookie where
  name : String
  value : String
  path : String
  /-- The moment from which it is no longer kept, in seconds since 1970. -/
  expiry : Option Int := none
deriving DecidableEq, Repr

namespace Cookie

def render (c : Cookie) : String := c.name ++ "=" ++ c.value

structure Attributes where
  path : Option String := none
  domain : Option String := none
  /-- For how many seconds the cookie is kept. -/
  maxAge : Option Nat := none
  expires : Option Int := none

def readPair (cs : List Char) : List Char × Option (List Char) :=
  match cs.span (· ≠ '=') with
  | (name, _ :: value) => (Text.trim name, some (Text.trim value))
  | (name, []) => (Text.trim name, none)

/-- A number of seconds. Below zero it stands for none at all. -/
def readMaxAge (cs : List Char) : Option Nat :=
  let digits := if cs.head? = some '-' then cs.drop 1 else cs
  if digits.all Char.isDigit then
    if cs.head? = some '-' then some 0
    else
      match Date.number? digits with
      | some n => some (min n 9223372036854775807)
      | none => some 9223372036854775807
  else none

def Attributes.read (a : Attributes) (cs : List Char) : Attributes :=
  match readPair cs with
  | (_, none) => a
  | (name, some value) =>
    let key := String.ofList (name.map Char.toLower)
    if key = "path" then { a with path := some (String.ofList value) }
    else if key = "domain" then
      if value.isEmpty then a else { a with domain := some (String.ofList value) }
    else if key = "max-age" then
      match readMaxAge value with
      | some n => { a with maxAge := some n }
      | none => a
    else if key = "expires" then
      match Date.parse? value with
      | some t => { a with expires := some t }
      | none => a
    else a

def read? (text : String) : Option (String × String × Attributes) :=
  match Text.splitOn (· = ';') text.toList with
  | [] => none
  | pair :: attributes =>
    match readPair pair with
    | (name, some value) =>
      if name.isEmpty then none
      else some (String.ofList name, String.ofList value, attributes.foldl Attributes.read {})
    | _ => none

/-- The moment from which a cookie is no longer kept. A duration wins over a date, and one of
nothing has passed already. -/
def Attributes.expiry (a : Attributes) (now : Int) : Option Int :=
  match a.maxAge with
  | some 0 => some now
  | some n => some (now + n)
  | none => a.expires

def isExpired (c : Cookie) (now : Int) : Bool := c.expiry.any (· ≤ now)

end Cookie

end TopicClient
