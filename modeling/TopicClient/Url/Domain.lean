import TopicClient.Url.NameCharacters
import TopicClient.Url.Percent
import TopicClient.Url.Punycode

/-!
# Domain names

A domain name is compared in its ASCII form: letters in lower case, other forms of ASCII characters
as those, and every label with further characters in Punycode behind a mark.
-/

namespace TopicClient.Url.Domain

def isForbidden (c : Char) : Bool :=
  c.toNat ≤ 0x20 || c.toNat = 0x7F || "%#/:<>?@[\\]^|".toList.contains c

/-- Characters that are invisible and count for nothing in a name. -/
def isIgnored (c : Char) : Bool :=
  [0xAD, 0x34F, 0x180B, 0x180C, 0x180D, 0x180F, 0x200B, 0x2060, 0x2064, 0xFEFF].contains c.toNat
    || (0xFE00 ≤ c.toNat && c.toNat ≤ 0xFE0F) || (0x1BCA0 ≤ c.toNat && c.toNat ≤ 0x1BCA3)
    || (0xE0100 ≤ c.toNat && c.toNat ≤ 0xE01EF)

/-- A joiner is invisible, and stands only behind a sign that joins. -/
def isJoiner (c : Char) : Bool := c = '\u200C' || c = '\u200D'

def joinsProperly : List Char → Bool
  | [] => true
  | c :: cs =>
    !isJoiner c &&
      match cs with
      | d :: r => if isVirama c && isJoiner d then joinsProperly r else joinsProperly (d :: r)
      | [] => true

def isSettled (c : Char) : Bool :=
  !(isForbidden c || isIgnored c || isRefused c || plainForm c ≠ c || c.isUpper)

/-- The full stops of other scripts also end a label. -/
def isStop (c : Char) : Bool := c = '.' || c = '\u3002'

def mark : List Char := "xn--".toList

/-- The label that a marked text encodes, if it could not be written in another way. -/
def decodeLabel? (label : List Char) : Option (List Char) :=
  match Punycode.decode? (label.drop mark.length) with
  | some decoded =>
    if decoded.any (fun c => 128 ≤ c.toNat) && decoded.all isSettled && joinsProperly decoded
        && mark ++ Punycode.encode decoded = label then
      some decoded
    else none
  | none => none

/-- One label in ASCII. A label that has the mark already must be the encoding of another. -/
def labelToAscii? (label : List Char) : Option (List Char) :=
  if mark.isPrefixOf label then (decodeLabel? label).map fun _ => label
  else if label.all fun c => c.toNat < 128 then some label
  else if joinsProperly label then some (mark ++ Punycode.encode label)
  else none

def toAscii? (bytes : List UInt8) : Option (List Char) := do
  let text ← String.fromUTF8? ⟨bytes.toArray⟩
  let cs := (text.toList.filter fun c => !isIgnored c).map fun c => (plainForm c).toLower
  if cs.any fun c => isForbidden c || isRefused c then none
  else
    let labels ← (Text.splitOn isStop cs).mapM labelToAscii?
    some (['.'].intercalate labels)

end TopicClient.Url.Domain
