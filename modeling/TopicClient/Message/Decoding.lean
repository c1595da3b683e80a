import TopicClient.Json.Printer
import TopicClient.Json.Reader
import TopicClient.Text.Quoted

/-!
# Reading typed fields

Readers for the kinds of fields that messages have, and the two shapes of a record: an object with
named members, or an array with the fields in order. A value of a wrong type is read completely if
it is a scalar, and reported after it; an array or an object is reported before its bracket.
-/

namespace TopicClient.Message

open Json

def describeNumber : Number → String
  | .integer i => s!"integer `{i.val}`"
  | .float x => s!"floating point `{String.ofList (Number.float x).chars}`"

/-- Reads a value that has the wrong type, to report it. -/
def wrongType (expected : String) (s : List Char) : Failure :=
  let report (found : String) (rest : List Char) : Failure :=
    .before (.invalidType found expected) rest
  let word (w : List Char) (found : String) (rest : List Char) : Failure :=
    match readWord w rest with
    | .ok rest => report found rest
    | .error f => f
  match s with
  | 'n' :: r => word ['u', 'l', 'l'] "null" r
  | 't' :: r => word ['r', 'u', 'e'] "boolean `true`" r
  | 'f' :: r => word ['a', 'l', 's', 'e'] "boolean `false`" r
  | '"' :: r =>
    match readString r with
    | .ok (content, rest) => report s!"string {Text.quoted content}" rest
    | .error f => f
  | '[' :: _ => report "sequence" s
  | '\x7b' :: _ => report "map" s
  | c :: _ =>
    if c = '-' ∨ isDigit c then
      match readNumber s with
      | .ok (n, rest) => report (describeNumber n) rest
      | .error f => f
    else .peeked .expectedValue s
  | [] => .peeked .expectedValue s

def readTextField : Reader String := fun s =>
  match skipBlanks s with
  | [] => .error (.before .endInValue [])
  | '"' :: r => readString r
  | r => .error (wrongType "a string" r)

def readOptionalTextField : Reader (Option String) := fun s =>
  match skipBlanks s with
  | 'n' :: r => do return (none, ← readWord ['u', 'l', 'l'] r)
  | r => do
    let (v, r) ← readTextField r
    return (some v, r)

def readIntegerField (expected : String) (low high : Int) : Reader Int := fun s =>
  match skipBlanks s with
  | [] => .error (.before .endInValue [])
  | c :: r =>
    if c = '-' ∨ isDigit c then do
      let (n, rest) ← readNumber (c :: r)
      match n with
      | .integer i =>
        if low ≤ i.val ∧ i.val ≤ high then return (i.val, rest)
        else .error (.before (.invalidValue (describeNumber n) expected) rest)
      | .float _ => .error (.before (.invalidType (describeNumber n) expected) rest)
    else .error (wrongType expected (c :: r))

/-- Reads the bracket that closes an array from which no more elements are taken. -/
def closeArray (s : List Char) : Except Failure (List Char) :=
  match skipBlanks s with
  | [] => .error (.before .endInList [])
  | ']' :: r => .ok r
  | ',' :: r =>
    match skipBlanks r with
    | ']' :: r => .error (.peeked .trailingComma (']' :: r))
    | r => .error (.peeked .trailingCharacters r)
  | r => .error (.peeked .trailingCharacters r)

def afterObject (s : List Char) : List Char :=
  match skipBlanks s with
  | '\x7d' :: r => r
  | r => r

end TopicClient.Message
