import TopicClient.Cookie.Basic
import TopicClient.Url.Basic

/-!
# The cookie jar

A jar keeps what the servers hand out and picks what is sent to each URL: the cookies of its host
whose path covers the path of the URL. A cookie replaces the one of the same name and path.
-/

namespace TopicClient.Cookie

def urlPath (u : Url) : String := u.path.render

/-- The path of a cookie that names none: that of the URL up to its last slash. -/
def defaultPath (u : Url) : String :=
  match (urlPath u).toList.reverse.dropWhile (· ≠ '/') with
  | _ :: c :: r => String.ofList (c :: r).reverse
  | _ => "/"

/-- Whether a path lies below another, by whole segments. -/
def covers (path request : String) : Bool :=
  path = request ||
    (path.toList.isPrefixOf request.toList &&
      (path.toList.getLast? = some '/' ||
        (request.toList.drop path.length).head? = some '/'))

structure Kept where
  host : Url.Host
  cookie : Cookie
deriving DecidableEq, Repr

/-- The cookies that are kept, the newest last. -/
structure Jar where
  kept : List Kept := []
deriving DecidableEq, Repr

namespace Jar

def allowsDomain (host : Url.Host) : Option String → Bool
  | none => true
  | some domain =>
    let cs := (Text.trim domain.toList).map Char.toLower
    let name := if cs.head? = some '.' then cs.drop 1 else cs
    name.isEmpty || host.render.toList = name

/-- Keeps one cookie, or removes it if it has expired. -/
def insert (jar : Jar) (now : Int) (k : Kept) : Jar :=
  let others := jar.kept.filter fun o =>
    !(o.host = k.host && o.cookie.name = k.cookie.name && o.cookie.path = k.cookie.path)
  if k.cookie.isExpired now then ⟨others⟩ else ⟨others ++ [k]⟩

def receive (jar : Jar) (now : Int) (url : Url) (header : String) : Jar :=
  match Cookie.read? header, url.authority with
  | some (name, value, a), some authority =>
    if allowsDomain authority.host a.domain then
      let path := match a.path with
        | some p => if p.startsWith "/" then p else defaultPath url
        | none => defaultPath url
      jar.insert now ⟨authority.host, ⟨name, value, path, a.expiry now⟩⟩
    else jar
  | _, _ => jar

def receiveAll (jar : Jar) (now : Int) (url : Url) (headers : List (String × String)) : Jar :=
  headers.foldl
    (fun jar h =>
      if Text.lower h.1 = "set-cookie" then
        jar.receive now url h.2
      else jar) jar

def select (jar : Jar) (now : Int) (url : Url) : List Cookie :=
  (jar.kept.filter fun k =>
    (url.authority.any fun a => a.host = k.host) && covers k.cookie.path (urlPath url) &&
      !k.cookie.isExpired now).map (·.cookie)

end Jar

end TopicClient.Cookie
