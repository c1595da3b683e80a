/-!
# Percent encoding

Each component of a URL has its own set of characters that are written as percent signs with two
digits. Characters outside of ASCII always are.
-/

namespace TopicClient.Url

/-- The ASCII characters that a component encodes, apart from the controls, which all do. -/
abbrev EncodeSet := List Char

namespace EncodeSet

def controls : EncodeSet := []

def fragment : EncodeSet := [' ', '"', '<', '>', '\x60']

def query : EncodeSet := [' ', '"', '#', '<', '>']

/-- Queries of the schemes of the web also encode a single quote. -/
def specialQuery : EncodeSet := '\'' :: query

def path : EncodeSet := fragment ++ ['#', '?', '\x7b', '\x7d']

def userinfo : EncodeSet := path ++ ['/', ':', ';', '=', '@', '[', '\\', ']', '^', '|']

def encodes (set : EncodeSet) (c : Char) : Bool :=
  c.toNat < 0x20 || 0x7F ≤ c.toNat || set.contains c

end EncodeSet

def upperHexDigit (n : Nat) : Char := (Nat.digitChar n).toUpper

def encodeByte (b : UInt8) : List Char :=
  ['%', upperHexDigit (b.toNat / 16), upperHexDigit (b.toNat % 16)]

def encodeChar (set : EncodeSet) (c : Char) : List Char :=
  if set.encodes c then (String.utf8EncodeChar c).flatMap encodeByte else [c]

def percentEncode (set : EncodeSet) (cs : List Char) : List Char := cs.flatMap (encodeChar set)

def hexDigit? (c : Char) : Option Nat :=
  if '0' ≤ c ∧ c ≤ '9' then some (c.toNat - '0'.toNat)
  else if 'a' ≤ c ∧ c ≤ 'f' then some (c.toNat - 'a'.toNat + 10)
  else if 'A' ≤ c ∧ c ≤ 'F' then some (c.toNat - 'A'.toNat + 10)
  else none

/-- The bytes of a text in which encoded bytes are decoded; a stray percent sign stands for
itself. -/
def percentDecode : List Char → List UInt8
  | [] => []
  | '%' :: a :: b :: r =>
    match hexDigit? a, hexDigit? b with
    | some x, some y => (16 * x + y).toUInt8 :: percentDecode r
    | _, _ => 37 :: percentDecode (a :: b :: r)
  | c :: r => String.utf8EncodeChar c ++ percentDecode r

end TopicClient.Url
