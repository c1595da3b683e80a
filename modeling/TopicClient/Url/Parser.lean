import TopicClient.Url.Basic
import TopicClient.Url.Domain

/-!
# Reading URLs

A text is read as a URL of its own, or relative to another. Reading never fails in the path, the
query or the fragment: characters that do not belong there are encoded.
-/

namespace TopicClient.Url

inductive ParseError where
  | relativeWithoutBase | emptyHost | invalidPort | invalidIpv4 | invalidIpv6
  | invalidDomainName | invalidDomainCharacter
deriving DecidableEq, Repr

def ParseError.message : ParseError → String
  | relativeWithoutBase => "relative URL without a base"
  | emptyHost => "empty host"
  | invalidPort => "invalid port number"
  | invalidIpv4 => "invalid IPv4 address"
  | invalidIpv6 => "invalid IPv6 address"
  | invalidDomainName => "invalid international domain name"
  | invalidDomainCharacter => "invalid domain character"

abbrev Result := Except ParseError

/-- The characters that count: not the blanks and controls around the text, and no tab or line
break within it. -/
def significant (text : String) : List Char :=
  let isEdge (c : Char) : Bool := c ≤ ' '
  let inner := ((text.toList.dropWhile isEdge).reverse.dropWhile isEdge).reverse
  inner.filter fun c => c ≠ '\t' && c ≠ '\n' && c ≠ '\r'

def isSchemeChar (c : Char) : Bool := c.isAlphanum || c = '+' || c = '-' || c = '.'

def readScheme? (cs : List Char) : Option (Scheme × List Char) :=
  match cs, cs.span isSchemeChar with
  | c :: _, (name, ':' :: rest) =>
    if c.isAlpha then some (.ofName (String.ofList (name.map Char.toLower)), rest) else none
  | _, _ => none

def isSlash (scheme : Scheme) (c : Char) : Bool := c = '/' || (scheme.isSpecial && c = '\\')

def endsAuthority (scheme : Scheme) (c : Char) : Bool := isSlash scheme c || c = '?' || c = '#'

/-! ## Hosts -/

/-- An address, which may stand between brackets, or a name. -/
def readSpecialHost (cs : List Char) : Result Host :=
  if cs.head? = some '[' then
    if cs.getLast? = some ']' then
      match Ipv6.parse? (cs.drop 1).dropLast with
      | some pieces => .ok (.v6 pieces)
      | none => .error .invalidIpv6
    else .error .invalidIpv6
  else
    match Domain.toAscii? (percentDecode cs) with
    | none => .error .invalidDomainName
    | some [] => .error .emptyHost
    | some name =>
      if Ipv4.endsInNumber name then
        match Ipv4.parse? name with
        | some address => .ok (.v4 address)
        | none => .error .invalidIpv4
      else .ok (.domain (String.ofList name))

def isForbiddenInHost (c : Char) : Bool := "\x00\t\n\r #/:<>?@[\\]^|".toList.contains c

def readPlainHost (cs : List Char) : Result Host :=
  if cs.head? = some '[' then readSpecialHost cs
  else if cs.any isForbiddenInHost then .error .invalidDomainCharacter
  else .ok (.verbatim (String.ofList (percentEncode .controls cs)))

/-- Splits the text of a host from what follows. A colon between brackets belongs to it. -/
def spanHost (scheme : Scheme) : Bool → List Char → List Char × List Char
  | _, [] => ([], [])
  | bracketed, c :: cs =>
    if endsAuthority scheme c || (c = ':' && !bracketed) then ([], c :: cs)
    else
      let bracketed := c = '[' || (bracketed && c ≠ ']')
      let (host, rest) := spanHost scheme bracketed cs
      (c :: host, rest)

def readPort (scheme : Scheme) (cs : List Char) : Result (Option Nat × List Char) :=
  let (digits, rest) := cs.span Char.isDigit
  let port := digits.foldl (fun n c => 10 * n + (c.toNat - 48)) 0
  if 65535 < port then .error .invalidPort
  else if rest.head?.all fun c => c = '\\' || endsAuthority scheme c then
    .ok (if digits.isEmpty ∨ scheme.defaultPort = some port then none else some port, rest)
  else .error .invalidPort

def readOptionalPort (scheme : Scheme) : List Char → Result (Option Nat × List Char)
  | ':' :: cs => readPort scheme cs
  | cs => .ok (none, cs)

def readAccount (cs : List Char) : String × String :=
  let text (part : List Char) := String.ofList (percentEncode .userinfo part)
  let (username, password) := cs.span (· ≠ ':')
  (text username, text (password.drop 1))

/-- Splits an authority at its last at sign, if it has one. -/
def splitAccount (authority : List Char) : Option (List Char) × List Char :=
  match authority.reverse.span (· ≠ '@') with
  | (_, []) => (none, authority)
  | (host, _ :: account) => (some account.reverse, host.reverse)

def readHostPort (scheme : Scheme) (account cs : List Char) : Result (Authority × List Char) :=
  let (username, password) := readAccount account
  let (hostText, rest) := spanHost scheme false cs
  if hostText.isEmpty ∧
      (scheme.isSpecial ∨ rest.head? = some ':' ∨ username ≠ "" ∨ password ≠ "") then
    .error .emptyHost
  else do
    let host ← if scheme.isSpecial then readSpecialHost hostText else readPlainHost hostText
    let (port, rest) ← readOptionalPort scheme rest
    return (⟨username, password, host, port⟩, rest)

/-- Reads what follows two slashes, up to the path. -/
def readAuthority (scheme : Scheme) (cs : List Char) : Result (Authority × List Char) :=
  let (authority, after) := cs.span fun c => !endsAuthority scheme c
  let (account, host) := splitAccount authority
  if account = some [] ∧ host.isEmpty ∧ !after.isEmpty then .error .emptyHost
  else readHostPort scheme (account.getD []) (host ++ after)

/-! ## Paths -/

def isDot (cs : List Char) : Bool := cs = ['.'] || cs.map Char.toLower = "%2e".toList

/-- Whether a segment leads to the one above, with its dots encoded or not. -/
def isDoubleDot (cs : List Char) : Bool :=
  ["..", ".%2e", "%2e.", "%2e%2e"].any fun t => cs.map Char.toLower = t.toList

/-- A letter with a colon or a bar, as some systems name their disks. -/
def isDrive : List Char → Bool
  | [c, d] => c.isAlpha && (d = ':' || d = '|')
  | _ => false

/-- The segments without the last; the name of a disk stays. -/
def shorten (scheme : Scheme) (segments : List String) : List String :=
  match scheme, segments with
  | .file, [s] => if isDrive s.toList then segments else []
  | _, _ => segments.dropLast

def segmentText (scheme : Scheme) (before : List String) (cs : List Char) : String :=
  match scheme, before, cs with
  | .file, [], [c, '|'] => if c.isAlpha then String.ofList [c, ':'] else String.ofList [c, '|']
  | _, _, _ => String.ofList (percentEncode .path cs)

/-- Adds segments one after the other. A dot stands for nothing and two dots take back the segment
before; at the end both leave an empty segment. -/
def appendSegments (scheme : Scheme) : List String → List (List Char) → List String
  | done, [] => done
  | done, s :: ss =>
    let isLast := ss.isEmpty
    if isDoubleDot s then
      appendSegments scheme (shorten scheme done ++ if isLast then [""] else []) ss
    else if isDot s then appendSegments scheme (done ++ if isLast then [""] else []) ss
    else appendSegments scheme (done ++ [segmentText scheme done s]) ss

/-- The path of a file has no empty segments at its start. -/
def dropEmptySegments : List String → List String
  | "" :: s :: ss => dropEmptySegments (s :: ss)
  | ss => ss

def readSegments (scheme : Scheme) (before : List String) (cs : List Char) : Path × List Char :=
  let (path, rest) := cs.span fun c => c ≠ '?' && c ≠ '#'
  let segments := appendSegments scheme before (Text.splitOn (isSlash scheme) path)
  (.rooted (if scheme = .file then dropEmptySegments segments else segments), rest)

def readPath (scheme : Scheme) (cs : List Char) : Path × List Char :=
  match cs with
  | [] => if scheme.isSpecial then (.rooted [""], []) else (.rooted [], [])
  | c :: r =>
    if isSlash scheme c then readSegments scheme [] r
    else if scheme.isSpecial then readSegments scheme [] cs
    else if c = '?' || c = '#' then (.rooted [], cs)
    else readSegments scheme [] cs

def readQuery (scheme : Scheme) : List Char → Option String × List Char
  | '?' :: cs =>
    let (query, rest) := cs.span (· ≠ '#')
    let set := if scheme.isSpecial then EncodeSet.specialQuery else EncodeSet.query
    (some (String.ofList (percentEncode set query)), rest)
  | cs => (none, cs)

def readFragment : List Char → Option String
  | '#' :: cs => some (String.ofList (percentEncode .fragment cs))
  | _ => none

def finish (scheme : Scheme) (authority : Option Authority) (path : Path) (cs : List Char) : Url :=
  let (query, rest) := readQuery scheme cs
  { scheme, authority, path, query, fragment := readFragment rest }

/-! ## Whole texts -/

/-- Reads what follows the two slashes of a scheme other than that of files. -/
def readAfterSlashes (scheme : Scheme) (cs : List Char) : Result Url := do
  let (authority, rest) ← readAuthority scheme cs
  let (path, rest) := readPath scheme rest
  return finish scheme (some authority) path rest

/-- Reads the URL of a file, after its scheme. A disk is no host. -/
def readFile (cs : List Char) : Result Url := do
  let nameless : Authority := { host := .verbatim "" }
  let plain (cs : List Char) : Url :=
    let (path, rest) := readPath .file cs
    finish .file (some nameless) path rest
  match cs with
  | a :: b :: r =>
    if isSlash .file a && isSlash .file b then
      let (host, rest) := r.span fun c => !endsAuthority .file c
      if host.isEmpty then return plain rest
      else if isDrive host then return plain r
      else
        let host ← readSpecialHost host
        let host := if host = .domain "localhost" then .verbatim "" else host
        let (path, rest) := readPath .file rest
        return finish .file (some { host }) path rest
    else return plain cs
  | _ => return plain cs

def readPlain (scheme : Scheme) (cs : List Char) : Result Url :=
  match cs with
  | '/' :: '/' :: r => readAfterSlashes scheme r
  | '/' :: r =>
    let (path, rest) := readSegments scheme [] r
    .ok (finish scheme none path rest)
  | _ =>
    let (path, rest) := cs.span fun c => c ≠ '?' && c ≠ '#'
    .ok (finish scheme none (.flat (String.ofList (percentEncode .controls path))) rest)

def Path.segments : Path → List String
  | rooted segments => segments
  | flat _ => []

def readRelative (base : Url) (cs : List Char) : Result Url :=
  let isSlash (c : Char) : Bool := Url.isSlash base.scheme c
  match cs with
  | [] => .ok { base with fragment := none }
  | '?' :: _ => .ok (finish base.scheme base.authority base.path cs)
  | '#' :: _ => .ok { base with fragment := readFragment cs }
  | '/' :: '/' :: r => readAfterSlashes base.scheme r
  | c :: r =>
    if isSlash c then
      if r.head?.any isSlash then readAfterSlashes base.scheme (r.dropWhile isSlash)
      else
        let (path, rest) := readSegments base.scheme [] r
        .ok (finish base.scheme base.authority path rest)
    else
      let (path, rest) := readSegments base.scheme base.path.segments.dropLast cs
      .ok (finish base.scheme base.authority path rest)

def read (base : Option Url) (text : String) : Result Url :=
  let cs := significant text
  match readScheme? cs, base with
  | none, none => .error .relativeWithoutBase
  | none, some base => readRelative base cs
  | some (.file, r), _ => readFile r
  | some (.other name, r), _ => readPlain (.other name) r
  | some (scheme, r), base =>
    let slashes := r.takeWhile (isSlash scheme)
    match base with
    | some base =>
      if slashes.length < 2 ∧ base.scheme = scheme then readRelative base r
      else readAfterSlashes scheme (r.dropWhile (isSlash scheme))
    | none => readAfterSlashes scheme (r.dropWhile (isSlash scheme))

def parse (text : String) : Result Url := read none text

def resolve (base : Url) (reference : String) : Result Url := read (some base) reference

end TopicClient.Url
