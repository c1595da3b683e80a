import TopicClient.Decimal.Shortest
import TopicClient.Json.Value

/-!
# Writing JSON

Output is compact. Inside strings only quotes, backslashes and control characters below a space
are escaped.
-/

namespace TopicClient.Json

def hexPair (n : Nat) : List Char := [Nat.digitChar (n / 16), Nat.digitChar (n % 16)]

def escape (c : Char) : List Char :=
  if c = '"' then ['\\', '"']
  else if c = '\\' then ['\\', '\\']
  else if c = '\x08' then ['\\', 'b']
  else if c = '\x0c' then ['\\', 'f']
  else if c = '\n' then ['\\', 'n']
  else if c = '\r' then ['\\', 'r']
  else if c = '\t' then ['\\', 't']
  else if c.toNat < 0x20 then ['\\', 'u', '0', '0'] ++ hexPair c.toNat
  else [c]

def quote (s : List Char) : List Char := '"' :: (s.flatMap escape ++ ['"'])

def digitChars (ds : List Nat) : List Char := ds.map Nat.digitChar

/-- Digits in positional notation, with a fraction even when it is zero. -/
def positional (d : Decimal.Digits) : List Char :=
  let chars := digitChars d.digits
  if d.exponent < 0 then '0' :: '.' :: (List.replicate (-d.exponent - 1).toNat '0' ++ chars)
  else
    let whole := d.exponent.toNat + 1
    let fraction := chars.drop whole
    chars.take whole ++ List.replicate (whole - chars.length) '0' ++
      '.' :: (if fraction.isEmpty then ['0'] else fraction)

/-- Digits with a power of ten, whose sign is always written. -/
def scientific (d : Decimal.Digits) : List Char :=
  let mantissa := match digitChars d.digits with
    | [] => ['0']
    | [c] => [c]
    | c :: cs => c :: '.' :: cs
  let sign := if d.exponent < 0 then '-' else '+'
  mantissa ++ 'e' :: sign :: (toString d.exponent.natAbs).toList

/-- A finite double in the fewest digits that read back, positional from `1e-5` to below `1e16`. -/
def floatChars (x : Float) : List Char :=
  let bits := x.toBits.toNat
  let negative := 9223372036854775808 ≤ bits
  let magnitude := bits % 9223372036854775808
  let sign := if negative then ['-'] else []
  if magnitude = 0 then sign ++ ['0', '.', '0']
  else
    let d := Decimal.shortest (.ofBits magnitude)
    sign ++ if -5 ≤ d.exponent ∧ d.exponent ≤ 15 then positional d else scientific d

/-- An integer in decimal; a number that is not finite is written as null. -/
def Number.chars : Number → List Char
  | .integer i => (toString i.val).toList
  | .float x => if x.isFinite then floatChars x else ['n', 'u', 'l', 'l']

namespace Value

mutual

def chars : Value → List Char
  | .null => ['n', 'u', 'l', 'l']
  | .bool true => ['t', 'r', 'u', 'e']
  | .bool false => ['f', 'a', 'l', 's', 'e']
  | .number n => n.chars
  | .string s => quote s.toList
  | .array vs => '[' :: (elementsChars vs ++ [']'])
  | .object ms => '\x7b' :: (membersChars ms ++ ['\x7d'])

def elementsChars : List Value → List Char
  | [] => []
  | [v] => v.chars
  | v :: vs => v.chars ++ ',' :: elementsChars vs

def membersChars : List (String × Value) → List Char
  | [] => []
  | [(k, v)] => quote k.toList ++ ':' :: v.chars
  | (k, v) :: ms => quote k.toList ++ ':' :: (v.chars ++ ',' :: membersChars ms)

end

def render (v : Value) : String := String.ofList v.chars

end Value

def recordChars (members : List (String × List Char)) : List Char :=
  '\x7b' :: (List.intercalate [','] (members.map fun m => quote m.1.toList ++ ':' :: m.2)
    ++ ['\x7d'])

end TopicClient.Json
