/-!
# Numbers on the command line

A number is a run of digits behind an optional sign. It is read from the left, and the first
obstacle is reported: a character that is no digit, or a digit that leads out of the range.
-/

namespace TopicClient.CommandLine

inductive NumberError where
  | empty | invalidDigit | tooLarge | tooSmall
  /-- A number, but not one from 0 to the bound. -/
  | outOfRange (value : Int) (bound : Nat)
deriving DecidableEq, Repr

def NumberError.message : NumberError → String
  | empty => "cannot parse integer from empty string"
  | invalidDigit => "invalid digit found in string"
  | tooLarge => "number too large to fit in target type"
  | tooSmall => "number too small to fit in target type"
  | outOfRange value bound => s!"{value} is not in 0..={bound}"

def readDigits (bound : Nat) (excess : NumberError) (cs : List Char) : Except NumberError Nat :=
  cs.foldlM (fun n c =>
    if c.isDigit then
      let m := 10 * n + (c.toNat - 48)
      if bound < m then .error excess else .ok m
    else .error .invalidDigit) 0

def readNat (bound : Nat) (cs : List Char) : Except NumberError Nat :=
  match cs with
  | [] => .error .empty
  | ['+'] => .error .invalidDigit
  | '+' :: ds => readDigits bound .tooLarge ds
  | ds => readDigits bound .tooLarge ds

def readInt64 (cs : List Char) : Except NumberError Int :=
  match cs with
  | ['-'] => .error .invalidDigit
  | '-' :: ds => (readDigits 9223372036854775808 .tooSmall ds).map fun n => -(n : Int)
  | ds => (readNat 9223372036854775807 ds).map fun n => (n : Int)

def readNat64 (cs : List Char) : Except NumberError Nat := readNat 18446744073709551615 cs

/-- Reads a byte, which may fail as a number or for its range. -/
def readByte (cs : List Char) : Except NumberError UInt8 := do
  let n ← readInt64 cs
  if 0 ≤ n ∧ n ≤ 255 then return n.toNat.toUInt8 else throw (.outOfRange n 255)

end TopicClient.CommandLine
