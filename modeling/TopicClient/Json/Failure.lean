/-!
# Why a text is not the JSON that was wanted

A `Failure` carries its cause and the place where reading stopped. Places are counted in bytes:
the text that was still unread, and the bytes of it that had been looked at.
-/

namespace TopicClient.Json

inductive Cause where
  | endInValue
  | endInList
  | endInObject
  | endInString
  | expectedValue
  | expectedIdent
  | expectedColon
  | expectedListEnd
  | expectedObjectEnd
  | trailingComma
  | trailingCharacters
  | keyMustBeString
  | invalidNumber
  | numberOutOfRange
  | invalidEscape
  | loneSurrogate
  | endOfHexEscape
  | controlCharacter
  | tooDeep
  | missingField (name : String)
  | duplicateField (name : String)
  | invalidType (found expected : String)
  | invalidValue (found expected : String)
  | invalidLength (length : Nat) (expected : String)
deriving DecidableEq, Repr

namespace Cause

def message : Cause → String
  | endInValue => "EOF while parsing a value"
  | endInList => "EOF while parsing a list"
  | endInObject => "EOF while parsing an object"
  | endInString => "EOF while parsing a string"
  | expectedValue => "expected value"
  | expectedIdent => "expected ident"
  | expectedColon => "expected `:`"
  | expectedListEnd => "expected `,` or `]`"
  | expectedObjectEnd => "expected `,` or `\x7d`"
  | trailingComma => "trailing comma"
  | trailingCharacters => "trailing characters"
  | keyMustBeString => "key must be a string"
  | invalidNumber => "invalid number"
  | numberOutOfRange => "number out of range"
  | invalidEscape => "invalid escape"
  | loneSurrogate => "lone leading surrogate in hex escape"
  | endOfHexEscape => "unexpected end of hex escape"
  | controlCharacter => "control character (\\u0000-\\u001F) found while parsing a string"
  | tooDeep => "recursion limit exceeded"
  | missingField name => s!"missing field `{name}`"
  | duplicateField name => s!"duplicate field `{name}`"
  | invalidType found expected => s!"invalid type: {found}, expected {expected}"
  | invalidValue found expected => s!"invalid value: {found}, expected {expected}"
  | invalidLength length expected => s!"invalid length {length}, expected {expected}"

end Cause

structure Failure where
  cause : Cause
  /-- What had not been read. -/
  rest : List Char
  /-- How many bytes of it had been looked at, as far as there are so many. -/
  seen : Nat
deriving DecidableEq, Repr

namespace Failure

/-- A failure just before the unread text. -/
def before (cause : Cause) (rest : List Char) : Failure := ⟨cause, rest, 0⟩

/-- A failure at the next byte of the unread text, or at its end when there is none. -/
def peeked (cause : Cause) (rest : List Char) : Failure := ⟨cause, rest, 1⟩

end Failure

def byteCount (cs : List Char) : Nat := cs.foldr (fun c n => c.utf8Size + n) 0

structure Position where
  line : Nat
  column : Nat
deriving DecidableEq, Repr

def Position.after (bytes : List UInt8) (count : Nat) : Position :=
  let read := (bytes.take count).reverse
  let newline : UInt8 := 10
  ⟨1 + read.count newline, (read.takeWhile (· != newline)).length⟩

def Failure.position (f : Failure) (text : String) : Position :=
  let total := text.utf8ByteSize
  .after text.toUTF8.toList (min total (total - byteCount f.rest + f.seen))

structure ReadError where
  cause : Cause
  position : Position
deriving DecidableEq, Repr

namespace ReadError

def ofFailure (text : String) (f : Failure) : ReadError := ⟨f.cause, f.position text⟩

def message (e : ReadError) : String :=
  s!"{e.cause.message} at line {e.position.line} column {e.position.column}"

end ReadError

end TopicClient.Json
