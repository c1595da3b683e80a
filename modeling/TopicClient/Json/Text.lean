import TopicClient.Json.Failure

/-!
# Strings and blanks in JSON text

Strings are read in two ways: to get their content, or only to pass over them. Both start after
the opening quote.
-/

namespace TopicClient.Json

def isBlank (c : Char) : Bool := c = ' ' || c = '\n' || c = '\t' || c = '\r'

def skipBlanks (s : List Char) : List Char := s.dropWhile isBlank

def hexValue (c : Char) : Option Nat :=
  if '0' ≤ c ∧ c ≤ '9' then some (c.toNat - '0'.toNat)
  else if 'a' ≤ c ∧ c ≤ 'f' then some (c.toNat - 'a'.toNat + 10)
  else if 'A' ≤ c ∧ c ≤ 'F' then some (c.toNat - 'A'.toNat + 10)
  else none

def hexUnit? : List Char → Option Nat
  | [a, b, c, d] => do
    let a ← hexValue a
    let b ← hexValue b
    let c ← hexValue c
    let d ← hexValue d
    return ((a * 16 + b) * 16 + c) * 16 + d
  | _ => none

def readHexUnit (s : List Char) : Except Failure (Nat × List Char) :=
  match hexUnit? (s.take 4) with
  | some n => .ok (n, s.drop 4)
  | none =>
    if byteCount s < 4 then .error (.before .endInString [])
    else .error ⟨.invalidEscape, s, 4⟩

def isHighSurrogate (n : Nat) : Bool := 0xD800 ≤ n && n < 0xDC00

def isLowSurrogate (n : Nat) : Bool := 0xDC00 ≤ n && n < 0xE000

/-- Reads one expected byte between the halves of a surrogate pair. -/
def readBetweenSurrogates (expected : Char) (s : List Char) : Except Failure (List Char) :=
  match s with
  | [] => .error (.before .endInString [])
  | c :: r => if c = expected then .ok r else .error (.peeked .endOfHexEscape s)

def readUnicodeEscape (s : List Char) : Except Failure (Char × List Char) := do
  let (high, s) ← readHexUnit s
  if isLowSurrogate high then .error (.before .loneSurrogate s)
  else if isHighSurrogate high then
    let s ← readBetweenSurrogates '\\' s
    let s ← readBetweenSurrogates 'u' s
    let (low, s) ← readHexUnit s
    if isLowSurrogate low then
      return (Char.ofNat (0x10000 + (high - 0xD800) * 0x400 + (low - 0xDC00)), s)
    else .error (.before .loneSurrogate s)
  else return (Char.ofNat high, s)

def simpleEscape (c : Char) : Option Char :=
  if c = '"' ∨ c = '\\' ∨ c = '/' then some c
  else if c = 'b' then some '\x08'
  else if c = 'f' then some '\x0c'
  else if c = 'n' then some '\n'
  else if c = 'r' then some '\r'
  else if c = 't' then some '\t'
  else none

def readEscape (s : List Char) : Except Failure (Char × List Char) :=
  match s with
  | [] => .error (.before .endInString [])
  | 'u' :: r => readUnicodeEscape r
  | c :: r =>
    match simpleEscape c with
    | some e => .ok (e, r)
    | none => .error (.peeked .invalidEscape s)

def readContent : Nat → List Char → Except Failure (List Char × List Char)
  | 0, s => .error (.before .endInString s)
  | _ + 1, [] => .error (.before .endInString [])
  | _ + 1, '"' :: r => .ok ([], r)
  | fuel + 1, '\\' :: r => do
    let (c, r) ← readEscape r
    let (cs, r) ← readContent fuel r
    return (c :: cs, r)
  | fuel + 1, c :: r =>
    if c.toNat < 0x20 then .error (.peeked .controlCharacter (c :: r))
    else do
      let (cs, r) ← readContent fuel r
      return (c :: cs, r)

/-- Reads a string after its opening quote. A character takes at least one character of text. -/
def readString (s : List Char) : Except Failure (String × List Char) := do
  let (cs, rest) ← readContent (s.length + 1) s
  return (String.ofList cs, rest)

/-- Passes over what follows a backslash; surrogates need not be paired. -/
def skipEscape (s : List Char) : Except Failure (List Char) :=
  match s with
  | [] => .error (.before .endInString [])
  | 'u' :: r => do
    let (_, r) ← readHexUnit r
    return r
  | c :: r => if (simpleEscape c).isSome then .ok r else .error (.peeked .invalidEscape s)

def skipContent : Nat → List Char → Except Failure (List Char)
  | 0, s => .error (.before .endInString s)
  | _ + 1, [] => .error (.before .endInString [])
  | _ + 1, '"' :: r => .ok r
  | fuel + 1, '\\' :: r => do skipContent fuel (← skipEscape r)
  | fuel + 1, c :: r =>
    if c.toNat < 0x20 then .error (.before .controlCharacter (c :: r)) else skipContent fuel r

def skipString (s : List Char) : Except Failure (List Char) := skipContent (s.length + 1) s

def readWord : List Char → List Char → Except Failure (List Char)
  | [], s => .ok s
  | _ :: _, [] => .error (.before .endInValue [])
  | w :: ws, c :: r => if c = w then readWord ws r else .error (.peeked .expectedIdent (c :: r))

end TopicClient.Json
