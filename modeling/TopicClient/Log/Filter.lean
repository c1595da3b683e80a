import TopicClient.CommandLine.Numeral
import TopicClient.Log.Record
import TopicClient.Text.Blank
import TopicClient.Text.Split

/-!
# Filters of the log

A filter is a list of rules. A rule lets the records of some sources pass from a level on; of the
rules that concern a source the one with the longest target decides.
-/

namespace TopicClient.Log

/-- From which severity on records pass; `none` if no record does. -/
abbrev Threshold := Option Level

structure Rule where
  /-- The start of the targets that the rule concerns. -/
  target : Option String
  threshold : Threshold
deriving DecidableEq, Repr

/-- The rules, a later one before an earlier one. -/
structure Filter where
  rules : List Rule
deriving DecidableEq, Repr

namespace Filter

def Threshold.ofName? (name : String) : Option Threshold :=
  if name = "off" then some none
  else
    ([Level.error, .warn, .info, .debug, .trace].find? fun l =>
      Text.lower l.name = name).map some

def Threshold.ofNumber? : Nat → Option Threshold
  | 0 => some none
  | 1 => some (some .error)
  | 2 => some (some .warn)
  | 3 => some (some .info)
  | 4 => some (some .debug)
  | 5 => some (some .trace)
  | _ => none

def readThreshold? (cs : List Char) : Option Threshold :=
  if cs.isEmpty then some (some .error)
  else
    match CommandLine.readNat64 cs with
    | .ok n => Threshold.ofNumber? n
    | .error _ => Threshold.ofName? (String.ofList (cs.map Char.toLower))

inductive Directive where
  | rule (rule : Rule)
  /-- Concerns records of a kind that this program does not write. -/
  | irrelevant
deriving DecidableEq, Repr

def canBegin (c : Char) : Bool :=
  c.isAlphanum || 0x80 ≤ c.toNat || c = '-' || c = ':' || c = '_'

/-- Reads a directive: a level, a target, or both. A target alone lets everything pass. -/
def readDirective? (cs : List Char) : Option Directive :=
  match Text.trim cs with
  | [] => none
  | c :: r =>
    if c = '[' then some .irrelevant
    else if !canBegin c then none
    else
      let (target, rest) := (c :: r).span fun d => d ≠ '=' && d ≠ '['
      match rest with
      | [] =>
        match readThreshold? cs with
        | some threshold => some (.rule ⟨none, threshold⟩)
        | none => some (.rule ⟨some (String.ofList cs), some .trace⟩)
      | '[' :: _ => some .irrelevant
      | _ =>
        let name := String.ofList (cs.take target.length)
        let level := cs.drop (target.length + 1)
        if level.isEmpty then some (.rule ⟨some name, some .trace⟩)
        else (readThreshold? level).map fun threshold => .rule ⟨some name, threshold⟩

def all (level : Level) : Filter := ⟨[⟨none, some level⟩]⟩

/-- Reads a filter. Without directives only errors pass. -/
def read? (text : String) : Option Filter := do
  let directives ←
    ((Text.splitOn (· = ',') text.toList).filter fun d => !d.isEmpty).mapM readDirective?
  if directives.isEmpty then return all .error
  let rules := directives.filterMap fun
    | .rule r => some r
    | .irrelevant => none
  return ⟨rules.reverse⟩

/-- The filter that a text asks for; without one, or if it cannot be read, the informative levels
pass. -/
def ofText (text : Option String) : Filter := (text.bind read?).getD (all .info)

def Rule.length (r : Rule) : Nat :=
  match r.target with
  | some t => t.utf8ByteSize + 1
  | none => 0

def Rule.concerns (r : Rule) (target : String) : Bool :=
  match r.target with
  | some t => target.startsWith t
  | none => true

def decisive? (f : Filter) (target : String) : Option Rule :=
  (f.rules.filter (Rule.concerns · target)).foldl
    (fun best r =>
      match best with
      | some b => if Rule.length b < Rule.length r then some r else best
      | none => some r) none

def passes (f : Filter) (r : Record) : Bool :=
  match f.decisive? r.source.target with
  | some rule => rule.threshold.any fun level => level.severity ≤ r.level.severity
  | none => false

end Filter

end TopicClient.Log
