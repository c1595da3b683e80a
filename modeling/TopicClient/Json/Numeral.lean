import TopicClient.Json.Failure
import TopicClient.Json.Value

/-!
# Number tokens

A token is first taken apart into its digits (`Numeral`) and then valued. Without fraction and
exponent it is an integer as long as it fits into 64 bits. Otherwise its leading digits, as many as
fit into 64 bits without a sign, are scaled by a power of ten in double arithmetic.
-/

namespace TopicClient.Json

structure Numeral where
  negative : Bool
  whole : List Char
  fraction : Option (List Char)
  /-- The sign of the exponent and its digits. -/
  exponent : Option (Bool × List Char)
deriving DecidableEq, Repr

def isDigit (c : Char) : Bool := '0' ≤ c && c ≤ '9'

def digitValue (c : Char) : Nat := c.toNat - '0'.toNat

/-- A failure of a number that has to go on: the text ends, or its next byte, which is read, is
not a digit. -/
def digitExpected (atEnd : Cause) : List Char → Failure
  | [] => .before atEnd []
  | rest => .peeked .invalidNumber rest

namespace Numeral

def readExponent (atEnd : Cause) (s : List Char) :
    Except Failure ((Bool × List Char) × List Char) :=
  let (negative, s) := match s with
    | '+' :: r => (false, r)
    | '-' :: r => (true, r)
    | r => (false, r)
  match s.takeWhile isDigit with
  | [] => .error (digitExpected atEnd s)
  | ds => .ok ((negative, ds), s.dropWhile isDigit)

def readOptionalExponent (atEnd : Cause) (s : List Char) :
    Except Failure (Option (Bool × List Char) × List Char) :=
  match s with
  | 'e' :: r | 'E' :: r => do
    let (e, r) ← readExponent atEnd r
    return (some e, r)
  | r => .ok (none, r)

def readFraction (atEnd : Cause) (s : List Char) :
    Except Failure (Option (List Char) × List Char) :=
  match s with
  | '.' :: r =>
    match r.takeWhile isDigit with
    | [] => .error (digitExpected atEnd r)
    | ds => .ok (some ds, r.dropWhile isDigit)
  | r => .ok (none, r)

/-- Reads the digits before the fraction: a zero alone, or digits that do not begin with one. -/
def readWhole (atEnd : Cause) (s : List Char) : Except Failure (List Char × List Char) :=
  match s.takeWhile isDigit with
  | [] => .error (digitExpected atEnd s)
  | '0' :: d :: ds => .error (.peeked .invalidNumber (d :: ds ++ s.dropWhile isDigit))
  | ds => .ok (ds, s.dropWhile isDigit)

def sign : List Char → Bool × List Char
  | '-' :: r => (true, r)
  | r => (false, r)

/-- Reads a number token. `atEnd` is the cause to report when the text ends inside it. -/
def read (atEnd : Cause) (s : List Char) : Except Failure (Numeral × List Char) := do
  let (negative, s) := sign s
  let (whole, s) ← readWhole atEnd s
  let (fraction, s) ← readFraction atEnd s
  let (exponent, s) ← readOptionalExponent atEnd s
  return (⟨negative, whole, fraction, exponent⟩, s)

/-- Appends digits to a significand while it stays below `2 ^ 64`; the digits left over come
second. -/
def absorb (significand : Nat) : List Char → Nat × List Char
  | [] => (significand, [])
  | d :: ds =>
    let next := significand * 10 + digitValue d
    if next < 18446744073709551616 then absorb next ds else (significand, d :: ds)

def powerOfTen (e : Nat) : Float := Float.ofScientific 1 false e

/-- `x * 10 ^ e` for a power that a double can hold, by one multiplication or division; a lower
power is reached in steps of `10 ^ 308`. There is no value when the result would be infinite. -/
def scale (x : Float) (e : Int) : Option Float :=
  if 0 ≤ e then
    if x == 0 && 308 < e then some x
    else if e ≤ 308 then
      let y := x * powerOfTen e.toNat
      if y.isInf then none else some y
    else none
  else if -308 ≤ e then some (x / powerOfTen (-e).toNat)
  else if x == 0 then some x
  else scale (x / powerOfTen 308) (e + 308)
termination_by (-e).toNat

def maxExponent : Nat := 2147483647

/-- Reads exponent digits while they stay within the limit; the digits after the first one beyond
it come second. -/
def boundedExponent (value : Nat) : List Char → Except (List Char) Nat
  | [] => .ok value
  | d :: ds =>
    let next := value * 10 + digitValue d
    if next ≤ maxExponent then boundedExponent next ds else .error ds

/-- The double a token with fraction, exponent or too many digits stands for. A token out of range
gives the digits of its exponent that were not looked at. -/
def floatValue (n : Numeral) : Except (List Char) Float := do
  let (significand, skipped) := absorb 0 n.whole
  let fraction := n.fraction.getD []
  let (significand, unread) := absorb significand fraction
  let start : Int := skipped.length - (fraction.length - unread.length : Nat)
  let signed (x : Float) : Float := if n.negative then -x else x
  let scaled (e : Int) : Except (List Char) Float :=
    match scale significand.toUInt64.toFloat e with
    | some x => .ok (signed x)
    | none => .error []
  match n.exponent with
  | none => scaled start
  | some (negative, digits) =>
    match boundedExponent 0 digits with
    | .ok e => scaled (if negative then start - e else start + e)
    | .error unread => if significand ≠ 0 ∧ !negative then .error unread else .ok (signed 0)

def wholeValue (n : Numeral) : Int :=
  let v : Int := n.whole.foldl (fun v d => v * 10 + digitValue d) (0 : Nat)
  if n.negative then -v else v

/-- The exact integer a token stands for, if it is one that is kept exactly. A negative zero is
not. -/
def integer? (n : Numeral) : Option Integer :=
  if n.fraction.isNone ∧ n.exponent.isNone ∧ ¬(n.negative ∧ n.wholeValue = 0) then
    Integer.ofInt? n.wholeValue
  else none

def value (n : Numeral) : Except (List Char) Number :=
  match n.integer? with
  | some i => .ok (.integer i)
  | none => n.floatValue.map .float

end Numeral

def readNumber (s : List Char) : Except Failure (Number × List Char) := do
  let (numeral, rest) ← Numeral.read .endInValue s
  match numeral.value with
  | .ok n => .ok (n, rest)
  | .error unread => .error (.before .numberOutOfRange (unread ++ rest))

end TopicClient.Json
