import TopicClient.CommandLine.Usage

/-!
# Reading arguments

The arguments are read one level at a time, from the left. A switch that waits for its value takes
the next argument unless that is a switch itself. What has been given to a switch is looked at only
when the next switch or argument of its level has been recognised, or at the end of the level, and
an argument that nothing knows is reported before it.
-/

namespace TopicClient.CommandLine

structure Setting where
  switch : Switch
  value : Value
  fromEnvironment : Bool := false
deriving DecidableEq, Repr

structure Reading where
  settings : List Setting := []
  /-- The last switch, if it has not been looked at, with its value if there is one. -/
  pending : Option (Switch × Option String) := none
  operands : List String := []
deriving DecidableEq, Repr

namespace Reading

def find? (r : Reading) (s : Switch) : Option Setting := r.settings.find? fun t => t.switch = s

def has (r : Reading) (s : Switch) : Bool := (r.find? s).isSome

/-- Whether the next argument may be the value of the last switch. -/
def awaitsValue (r : Reading) : Bool :=
  match r.pending with
  | some (_, none) => true
  | _ => false

def add (r : Reading) (s : Switch) (value : Except NumberError Value) (text : String) :
    Except Refusal Reading :=
  if r.has s && !s.repeats then .error (.repeated s)
  else
    match value with
    | .ok value => .ok { r with settings := r.settings ++ [{ switch := s, value }] }
    | .error cause => .error (.invalidValue s text cause)

def settle (r : Reading) : Except Refusal Reading :=
  match r.pending with
  | none => .ok r
  | some (s, none) => .error (.missingValue s)
  | some (s, some text) => add { r with pending := none } s (s.read text) text

def meet (r : Reading) (s : Switch) (attached : Option String) : Except Refusal Reading := do
  let r ← r.settle
  if s.takesValue then
    match attached with
    | some text => r.add s (s.read text) text
    | none => return { r with pending := some (s, none) }
  else r.add s (.ok (.flag true)) ""

def operand (r : Reading) (text : String) : Except Refusal Reading := do
  let r ← r.settle
  return { r with operands := r.operands ++ [text] }

end Reading

inductive Shape where
  /-- Two hyphens alone: only operands follow. -/
  | divider
  | long (name : String) (attached : Option String)
  | short (letter : Char) (rest : List Char)
  | plain
deriving DecidableEq, Repr

def Shape.of (arg : String) : Shape :=
  match arg.toList with
  | ['-', '-'] => divider
  | '-' :: '-' :: cs =>
    match cs.span (· ≠ '=') with
    | (name, _ :: value) => long (String.ofList name) (some (String.ofList value))
    | (name, []) => long (String.ofList name) none
  | '-' :: c :: cs => short c cs
  | _ => plain

/-- What is attached to a letter: the rest, without an equals sign before it. -/
def attachedToLetter : List Char → Option String
  | [] => none
  | '=' :: cs => some (String.ofList cs)
  | cs => some (String.ofList cs)

def Reading.answer (r : Reading) (answer : Refusal) : Except Refusal Reading := do
  let _ ← r.settle
  throw answer

def readLong (l : Level) (r : Reading) (name : String) (attached : Option String) :
    Except Refusal Reading :=
  let own (answer : Refusal) : Except Refusal Reading :=
    match attached with
    | none => r.answer answer
    | some value => .error (.attachedValue ("--" ++ name) value)
  match l.findLong? name with
  | some s =>
    match attached with
    | some value =>
      if s.takesValue then r.meet s attached else .error (.attachedValue s.display value)
    | none => r.meet s none
  | none =>
    if name = "help" then own .help
    else if name = "version" ∧ l = .top then own .version
    else .error (.unknownArgument ("--" ++ name))

def readShort (l : Level) (r : Reading) (letter : Char) (rest : List Char) :
    Except Refusal Reading :=
  match l.findShort? letter with
  | some s => r.meet s (attachedToLetter rest)
  | none =>
    if letter = 'h' then r.answer .help
    else if letter = 'V' ∧ l = .top then r.answer .version
    else .error (.unknownArgument (String.ofList ['-', letter]))

def isCommandName (text : String) : Bool := text = "help" || (Verb.ofName? text).isSome

def surplus (l : Level) (divided : Bool) (arg : String) : Refusal :=
  match l with
  | .command _ => .unknownArgument arg
  | .top => if divided && isCommandName arg then .unknownArgument arg else .unknownCommand arg

def readOperand (l : Level) (divided : Bool) (r : Reading) (arg : String) :
    Except Refusal Reading :=
  if r.operands.length < l.allowed then r.operand arg else .error (surplus l divided arg)

def readArgument (l : Level) (r : Reading) (arg : String) : Except Refusal Reading :=
  match Shape.of arg with
  | .long name attached => readLong l r name attached
  | .short letter rest => readShort l r letter rest
  | .divider | .plain =>
    match r.pending with
    | some (s, none) => .ok { r with pending := some (s, some arg) }
    | _ => readOperand l false r arg

def helpOn : List String → Refusal
  | [] => .help
  | [arg] => if isCommandName arg then .help else .unknownCommand arg
  | arg :: next :: _ => if isCommandName arg then .unknownCommand next else .unknownCommand arg

def startsCommand? (l : Level) (r : Reading) (arg : String) : Option (Option Verb) :=
  if l = .top ∧ !r.awaitsValue then
    if arg = "help" then some none else (Verb.ofName? arg).map some
  else none

def scan (l : Level) (divided : Bool) (r : Reading) :
    List String → Except Refusal (Reading × Option (Verb × List String))
  | [] => .ok (r, none)
  | arg :: args =>
    if divided then do
      let r ← readOperand l true r arg
      scan l true r args
    else
      match startsCommand? l r arg with
      | some (some verb) => .ok (r, some (verb, args))
      | some none => .error (helpOn args)
      | none =>
        if Shape.of arg = .divider then scan l true r args
        else do
          let r ← readArgument l r arg
          scan l false r args

end TopicClient.CommandLine
