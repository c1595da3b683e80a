import TopicClient.Json.Numeral
import TopicClient.Json.Text

/-!
# Reading JSON

`readValue` reads a value with a bound on its nesting. `skipValue` passes over one: it checks the
syntax, but neither nesting, nor the range of numbers, nor the pairing of surrogates.
-/

namespace TopicClient.Json

abbrev Reader (α : Type) := List Char → Except Failure (α × List Char)

inductive Next where
  /-- The closing bracket, which is read. -/
  | close (rest : List Char)
  | item (rest : List Char)

def nextElement (first : Bool) (s : List Char) : Except Failure Next :=
  match skipBlanks s with
  | [] => .error (.before .endInList [])
  | ']' :: r => .ok (.close r)
  | ',' :: r =>
    if first then .ok (.item (',' :: r))
    else
      match skipBlanks r with
      | [] => .error (.before .endInValue [])
      | ']' :: r => .error (.peeked .trailingComma (']' :: r))
      | r => .ok (.item r)
  | r => if first then .ok (.item r) else .error (.peeked .expectedListEnd r)

/-- Finds the opening quote of the next key of an object, after a comma unless it is the first;
the quote is read. -/
def nextKey (first : Bool) (s : List Char) : Except Failure Next :=
  match skipBlanks s with
  | [] => .error (.before .endInObject [])
  | '\x7d' :: r => .ok (.close r)
  | ',' :: r =>
    if first then .error (.peeked .keyMustBeString (',' :: r))
    else
      match skipBlanks r with
      | [] => .error (.before .endInValue [])
      | '"' :: r => .ok (.item r)
      | '\x7d' :: r => .error (.peeked .trailingComma ('\x7d' :: r))
      | r => .error (.peeked .keyMustBeString r)
  | '"' :: r =>
    if first then .ok (.item r) else .error (.peeked .expectedObjectEnd ('"' :: r))
  | r => .error (.peeked (if first then .keyMustBeString else .expectedObjectEnd) r)

def readColon (s : List Char) : Except Failure (List Char) :=
  match skipBlanks s with
  | [] => .error (.before .endInObject [])
  | ':' :: r => .ok r
  | r => .error (.peeked .expectedColon r)

/-- Reads the elements of an array with the reader `item`, and its closing bracket. There are at
most `fuel` elements. -/
def readElements {α : Type} (item : Reader α) : Nat → Bool → Reader (List α)
  | 0, _, s => .error (.before .endInList s)
  | fuel + 1, first, s => do
    match ← nextElement first s with
    | .close r => return ([], r)
    | .item r =>
      let (v, r) ← item r
      let (vs, r) ← readElements item fuel false r
      return (v :: vs, r)

/-- Reads the members of an object, and its closing bracket. The value of a member is read by
`item`, which is given the key. -/
def readMembers {α : Type} (item : String → Reader α) : Nat → Bool → Reader (List (String × α))
  | 0, _, s => .error (.before .endInObject s)
  | fuel + 1, first, s => do
    match ← nextKey first s with
    | .close r => return ([], r)
    | .item r =>
      let (k, r) ← readString r
      let r ← readColon r
      let (v, r) ← item k r
      let (ms, r) ← readMembers item fuel false r
      return ((k, v) :: ms, r)

/-- Reads a value in which fewer than `depth` arrays and objects are nested. -/
def readValue : Nat → Reader Value
  | depth, s =>
    match skipBlanks s with
    | [] => .error (.before .endInValue [])
    | 'n' :: r => do return (.null, ← readWord ['u', 'l', 'l'] r)
    | 't' :: r => do return (.bool true, ← readWord ['r', 'u', 'e'] r)
    | 'f' :: r => do return (.bool false, ← readWord ['a', 'l', 's', 'e'] r)
    | '"' :: r => do
      let (content, r) ← readString r
      return (.string content, r)
    | '[' :: r =>
      match depth with
      | 0 | 1 => .error (.peeked .tooDeep ('[' :: r))
      | inner + 1 => do
        let (vs, r) ← readElements (readValue inner) (r.length + 1) true r
        return (.array vs, r)
    | '\x7b' :: r =>
      match depth with
      | 0 | 1 => .error (.peeked .tooDeep ('\x7b' :: r))
      | inner + 1 => do
        let (ms, r) ← readMembers (fun _ => readValue inner) (r.length + 1) true r
        return (Value.ofMembers ms, r)
    | c :: r =>
      if c = '-' ∨ isDigit c then do
        let (n, r) ← readNumber (c :: r)
        return (.number n, r)
      else .error (.peeked .expectedValue (c :: r))

/-- How deep a text may nest: one level less than this. -/
def depthLimit : Nat := 128

/-- Finds the value after a comma in an array that is passed over, or its end. -/
def afterSkippedElement (s : List Char) : Except Failure Next :=
  match skipBlanks s with
  | [] => .error (.before .endInList [])
  | ']' :: r => .ok (.close r)
  | ',' :: r => .ok (.item r)
  | r => .error (.peeked .expectedListEnd r)

def skipElements (item : List Char → Except Failure (List Char)) :
    Nat → List Char → Except Failure (List Char)
  | 0, s => .error (.before .endInList s)
  | fuel + 1, s => do
    match ← afterSkippedElement s with
    | .close r => return r
    | .item r => skipElements item fuel (← item r)

def skipMember (item : List Char → Except Failure (List Char)) (s : List Char) :
    Except Failure (List Char) :=
  match skipBlanks s with
  | [] => .error (.before .endInObject [])
  | '"' :: r => do item (← readColon (← skipString r))
  | r => .error (.peeked .keyMustBeString r)

def afterSkippedMember (s : List Char) : Except Failure Next :=
  match skipBlanks s with
  | [] => .error (.before .endInObject [])
  | '\x7d' :: r => .ok (.close r)
  | ',' :: r => .ok (.item r)
  | r => .error (.peeked .expectedObjectEnd r)

def skipMembers (item : List Char → Except Failure (List Char)) :
    Nat → List Char → Except Failure (List Char)
  | 0, s => .error (.before .endInObject s)
  | fuel + 1, s => do
    match ← afterSkippedMember s with
    | .close r => return r
    | .item r => skipMembers item fuel (← skipMember item r)

def skipNested : Nat → List Char → Except Failure (List Char)
  | fuel, s =>
    match skipBlanks s with
    | [] => .error (.before .endInValue [])
    | 'n' :: r => readWord ['u', 'l', 'l'] r
    | 't' :: r => readWord ['r', 'u', 'e'] r
    | 'f' :: r => readWord ['a', 'l', 's', 'e'] r
    | '"' :: r => skipString r
    | '[' :: r =>
      match skipBlanks r, fuel with
      | [], _ => .error (.before .endInList [])
      | ']' :: r, _ => .ok r
      | r, 0 => .error (.before .endInList r)
      | r, fuel + 1 => do skipElements (skipNested fuel) (r.length + 1) (← skipNested fuel r)
    | '\x7b' :: r =>
      match skipBlanks r, fuel with
      | [], _ => .error (.before .endInObject [])
      | '\x7d' :: r, _ => .ok r
      | r, 0 => .error (.before .endInObject r)
      | r, fuel + 1 => do
        skipMembers (skipNested fuel) (r.length + 1) (← skipMember (skipNested fuel) r)
    | c :: r =>
      if c = '-' ∨ isDigit c then do
        let (_, r) ← Numeral.read .invalidNumber (c :: r)
        return r
      else .error (.peeked .expectedValue (c :: r))

/-- Passes over a value. A text nests no deeper than it is long. -/
def skipValue (s : List Char) : Except Failure (List Char) := skipNested s.length s

/-- Reads a whole text, in which only blanks may follow what `reader` takes. -/
def readText {α : Type} (reader : Reader α) (text : String) : Except ReadError α :=
  match reader text.toList with
  | .error f => .error (.ofFailure text f)
  | .ok (v, rest) =>
    match skipBlanks rest with
    | [] => .ok v
    | rest => .error (.ofFailure text (.peeked .trailingCharacters rest))

def parseValue (text : String) : Except ReadError Value := readText (readValue depthLimit) text

end TopicClient.Json
