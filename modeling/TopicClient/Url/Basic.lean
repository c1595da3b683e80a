import TopicClient.Url.Address
import TopicClient.Url.Percent

/-!
# URLs

A URL in its normal form. The schemes of the web, called special, always have a host and a path
that starts with a slash.
-/

namespace TopicClient

inductive Url.Scheme where
  | http | https | ws | wss | ftp | file
  | other (name : String)
deriving DecidableEq, Repr

namespace Url.Scheme

def name : Scheme → String
  | http => "http"
  | https => "https"
  | ws => "ws"
  | wss => "wss"
  | ftp => "ftp"
  | file => "file"
  | other name => name

def ofName (s : String) : Scheme :=
  match [http, https, ws, wss, ftp, file].find? fun k => k.name = s with
  | some k => k
  | none => .other s

def isSpecial : Scheme → Bool
  | other _ => false
  | _ => true

def defaultPort : Scheme → Option Nat
  | http | ws => some 80
  | https | wss => some 443
  | ftp => some 21
  | file | other _ => none

end Url.Scheme

inductive Url.Host where
  | domain (name : String)
  | v4 (address : Nat)
  | v6 (pieces : List Nat)
  /-- A host of a scheme that has no rules for it, or no text at all. -/
  | verbatim (text : String)
deriving DecidableEq, Repr

def Url.Host.render : Url.Host → String
  | domain name => name
  | v4 address => Ipv4.render address
  | v6 pieces => "[" ++ Ipv6.render pieces ++ "]"
  | verbatim text => text

structure Url.Authority where
  username : String := ""
  password : String := ""
  host : Host
  /-- A port other than the default one. -/
  port : Option Nat := none
deriving DecidableEq, Repr

/-- The account of an authority, with the sign behind it; nothing if there is none. -/
def Url.Authority.account (a : Url.Authority) : String :=
  let password := if a.password.isEmpty then "" else ":" ++ a.password
  if a.username.isEmpty && a.password.isEmpty then "" else a.username ++ password ++ "@"

def Url.Authority.render (a : Url.Authority) : String :=
  a.account ++ a.host.render ++ (match a.port with | some p => ":" ++ toString p | none => "")

inductive Url.Path where
  /-- Segments, each behind a slash. -/
  | rooted (segments : List String)
  /-- A text without structure. -/
  | flat (text : String)
deriving DecidableEq, Repr

def Url.Path.render : Url.Path → String
  | rooted segments => String.join (segments.map ("/" ++ ·))
  | flat text => text

structure Url where
  scheme : Url.Scheme
  authority : Option Url.Authority
  path : Url.Path
  query : Option String := none
  fragment : Option String := none
deriving DecidableEq, Repr

namespace Url

/-- What a request names to its server: the path with the query. -/
def target (u : Url) : String :=
  u.path.render ++ (match u.query with | some q => "?" ++ q | none => "")

/-- The text of a URL. Without a host, a path that begins with two slashes is kept apart from one
with a dot. -/
def render (u : Url) : String :=
  let body := match u.authority with
    | some a => "//" ++ a.render
    | none => if u.path.render.startsWith "//" then "/." else ""
  let fragment := match u.fragment with | some f => "#" ++ f | none => ""
  u.scheme.name ++ ":" ++ body ++ u.target ++ fragment

def withoutAccount (u : Url) : Url :=
  { u with authority := u.authority.map fun a => { a with username := "", password := "" } }

end Url

end TopicClient
