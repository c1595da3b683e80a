import TopicClient.Text.Blank

/-!
# Files of environment variables

A file assigns values to names, one a line. Values may be quoted, over several lines, and may refer
to other variables. A variable that is set already keeps its value, and a line that cannot be read
ends the file.
-/

namespace TopicClient.Environment

abbrev Variables := List (String × String)

/-! ## Lines -/

inductive Quoting where
  | outside
  /-- Behind a blank, where a comment may begin. -/
  | afterBlank
  | escaped
  | inSingle
  | escapedInSingle
  | inDouble
  | escapedInDouble
deriving DecidableEq, Repr

namespace Quoting

def opened (c : Char) : Quoting :=
  if c = '\\' then escaped
  else if c = '"' then inDouble
  else if c = '\'' then inSingle
  else outside

/-- The state after a character; `none` if a comment begins with it. -/
def step : Quoting → Char → Option Quoting
  | afterBlank, c => if c = '#' then none else some (opened c)
  | outside, c =>
    if Text.isBlank c && c ≠ '\n' && c ≠ '\r' then some afterBlank else some (opened c)
  | escaped, _ => some outside
  | inDouble, c =>
    some (if c = '\\' then escapedInDouble else if c = '"' then outside else inDouble)
  | escapedInDouble, _ => some inDouble
  | inSingle, c =>
    some (if c = '\\' then escapedInSingle else if c = '\'' then outside else inSingle)
  | escapedInSingle, _ => some inSingle

/-- Follows a line. Returns the text before a comment, if one begins, or else the last state. -/
def follow : Quoting → List Char → List Char ⊕ Quoting
  | q, [] => .inr q
  | q, c :: cs =>
    match q.step c with
    | none => .inl []
    | some q =>
      match q.follow cs with
      | .inl text => .inl (c :: text)
      | .inr q => .inr q

end Quoting

def splitLines : List Char → List (List Char)
  | [] => []
  | c :: cs =>
    if c = '\n' then [c] :: splitLines cs
    else
      match splitLines cs with
      | [] => [[c]]
      | l :: ls => (c :: l) :: ls

def dropLineBreak (cs : List Char) : List Char :=
  match cs.reverse with
  | '\n' :: '\r' :: r => r.reverse
  | '\n' :: r => r.reverse
  | _ => cs

/-- Joins the lines over which a quoted value extends. Ends with `none` if the last of them does
not end outside of quotes. -/
def joinLines : List Char → Quoting → List (List Char) → List (Option (List Char))
  | [], .outside, [] => []
  | _, _, [] => [none]
  | before, q, l :: ls =>
    let text := before ++ l
    if (Text.trimStart text).head? = some '#' then some [] :: joinLines [] .outside ls
    else
      match q.follow l with
      | .inl start => some (before ++ start) :: joinLines [] .outside ls
      | .inr .outside => some (dropLineBreak text) :: joinLines [] .outside ls
      | .inr q => joinLines text q ls

/-! ## Values -/

inductive Reference where
  | none
  /-- Behind a dollar sign, with the letters of the name so far. -/
  | bare (name : List Char)
  /-- Behind an opening brace. -/
  | braced (name : List Char)
deriving DecidableEq, Repr

structure ValueState where
  quoting : Quoting := .outside
  reference : Reference := .none
  output : List Char := []
deriving DecidableEq, Repr

/-- The value of a variable that is referred to: from the environment, or else from the file. -/
def lookUp (known file : Variables) (name : List Char) : List Char :=
  let name := String.ofList name
  ((known.lookup name <|> file.lookup name).getD "").toList

def isNameChar (c : Char) : Bool := c.isAlphanum || 0xC0 ≤ c.toNat

namespace ValueState

def push (s : ValueState) (cs : List Char) : ValueState := { s with output := s.output ++ cs }

def plain (s : ValueState) (c : Char) : ValueState :=
  if c = '$' then { s with reference := .bare [] }
  else
    match s.quoting with
    | .inDouble =>
      if c = '"' then { s with quoting := .outside }
      else if c = '\\' then { s with quoting := .escapedInDouble }
      else s.push [c]
    | _ =>
      if c = '\'' then { s with quoting := .inSingle }
      else if c = '"' then { s with quoting := .inDouble }
      else if c = '\\' then { s with quoting := .escaped }
      else if c = ' ' || c = '\t' then { s with quoting := .afterBlank }
      else s.push [c]

def unescape? (c : Char) : Option Char :=
  if c = 'n' then some '\n'
  else if ['\\', '\'', '"', '$', ' '].contains c then some c
  else none

/-- Takes in a character. Behind a blank only blanks may follow. -/
def step (value : List Char → List Char) (s : ValueState) (c : Char) : Option ValueState :=
  match s.quoting, s.reference with
  | .afterBlank, _ => if c = ' ' || c = '\t' then some s else none
  | .escaped, _ => (unescape? c).map fun c => { s.push [c] with quoting := .outside }
  | .escapedInDouble, _ => (unescape? c).map fun c => { s.push [c] with quoting := .inDouble }
  | .inSingle, _ => some (if c = '\'' then { s with quoting := .outside } else s.push [c])
  | .escapedInSingle, _ => none
  | _, .none => some (s.plain c)
  | _, .bare name =>
    if isNameChar c then some { s with reference := .bare (name ++ [c]) }
    else if c = '\x7b' && name.isEmpty then some { s with reference := .braced [] }
    else
      let s := s.push (value name)
      if c = '$' then some { s with reference := .bare [] }
      else some ({ s with reference := .none }.push [c])
  | _, .braced name =>
    if c = '\x7d' then some ({ s with reference := .none }.push (value name))
    else some { s with reference := .braced (name ++ [c]) }

def run (value : List Char → List Char) : ValueState → List Char → Option ValueState
  | s, [] => some s
  | s, c :: cs =>
    if s.quoting = .afterBlank ∧ c = '#' then some s
    else (s.step value c).bind fun s => s.run value cs

def finish? (value : List Char → List Char) (s : ValueState) : Option (List Char) :=
  match s.quoting, s.reference with
  | .inSingle, _ | .inDouble, _ | .escapedInDouble, _ | _, .braced _ => none
  | _, .bare name => some (s.output ++ value name)
  | _, .none => some s.output

end ValueState

/-! ## Assignments -/

inductive Line where
  | blank
  | assignment (name : String) (value : Option String)
  | unreadable
deriving DecidableEq, Repr

def readName? (cs : List Char) : Option (List Char × List Char) :=
  match cs with
  | c :: _ =>
    if c.isAlpha || c = '_' then
      some (cs.span fun c => c.isAlphanum || c = '_' || c = '.')
    else none
  | [] => none

/-- The name that a line assigns to, with what follows the equals sign. The word `export` may
precede the name. -/
def readAssigned? (cs : List Char) : Option (List Char × List Char) := do
  let (name, rest) ← readName? cs
  match Text.trimStart rest with
  | '=' :: rest => return (name, Text.trimStart rest)
  | rest =>
    if name = "export".toList then
      let (name, rest) ← readName? rest
      match Text.trimStart rest with
      | '=' :: rest => return (name, Text.trimStart rest)
      | _ => none
    else none

def readLine (known file : Variables) (line : List Char) : Line :=
  let cs := Text.trimStart (Text.trimEnd line)
  if cs.isEmpty || cs.head? = some '#' then .blank
  else
    match readAssigned? cs with
    | none => .unreadable
    | some (name, text) =>
      let name := String.ofList name
      if text.isEmpty || text.head? = some '#' then .assignment name none
      else
        let value := lookUp known file
        match (ValueState.run value {} text).bind fun s => s.finish? value with
        | some v => .assignment name (some (String.ofList v))
        | none => .unreadable

/-- Adds what the lines assign to the variables that are known, as long as they can be read. The
later of two assignments counts where `file` is looked into, the earlier for the environment. -/
def loadLines (known file : Variables) : List (Option (List Char)) → Variables
  | [] | none :: _ => known
  | some line :: lines =>
    match readLine known file line with
    | .blank => loadLines known file lines
    | .unreadable => known
    | .assignment name value =>
      let value := value.getD ""
      let known := if (known.lookup name).isSome then known else known ++ [(name, value)]
      loadLines known ((name, value) :: file) lines

def load (known : Variables) (text : String) : Variables :=
  let cs := match text.toList with
    | '\uFEFF' :: cs => cs
    | cs => cs
  loadLines known [] (joinLines [] .outside (splitLines cs))

end TopicClient.Environment
