import TopicClient.Glob.Pattern

/-!
# Reading glob patterns

The reader keeps the groups that are still open. Each open group, and the pattern as a whole, is a
`Frame`: the branches already finished and the tokens of the branch being read, latest first.
-/

namespace TopicClient.Glob

inductive SyntaxError where
  | unclosedSet
  | invalidRange (lo hi : Char)
  | unopenedGroup
  | unclosedGroup
  | danglingEscape
deriving DecidableEq, Repr

namespace SyntaxError

def message : SyntaxError → String
  | unclosedSet => "unclosed character class; missing ']'"
  | invalidRange lo hi => s!"invalid range; '{lo}' > '{hi}'"
  | unopenedGroup =>
    "unopened alternate group; missing '\x7b' (maybe escape '\x7d' with '[\x7d]'?)"
  | unclosedGroup =>
    "unclosed alternate group; missing '\x7d' (maybe escape '\x7b' with '[\x7b]'?)"
  | danglingEscape => "dangling '\\'"

end SyntaxError

structure Frame where
  finished : List (List Token)
  current : List Token

namespace Frame

def start : Frame := ⟨[], []⟩

def push (f : Frame) (t : Token) : Frame := { f with current := t :: f.current }

def next (f : Frame) : Frame := ⟨f.current.reverse :: f.finished, []⟩

def close (f : Frame) : Token := .choice (f.next.finished.reverse)

end Frame

/-- The members of a set so far, latest first, and whether a range is waiting for its upper end. -/
structure SetState where
  ranges : List (Char × Char)
  inRange : Bool

def SetState.add (s : SetState) (c : Char) : Except SyntaxError SetState :=
  match s.inRange, s.ranges with
  | true, (lo, _) :: rs =>
    if c < lo then .error (.invalidRange lo c) else .ok ⟨(lo, c) :: rs, false⟩
  | _, rs => .ok ⟨(c, c) :: rs, false⟩

def SetState.finish (s : SetState) : List (Char × Char) :=
  (if s.inRange then ('-', '-') :: s.ranges else s.ranges).reverse

def readMembers (s : SetState) : List Char → Except SyntaxError (List (Char × Char) × List Char)
  | [] => .error .unclosedSet
  | ']' :: cs => .ok (s.finish, cs)
  | c :: cs =>
    if c = '-' ∧ s.inRange = false then readMembers { s with inRange := true } cs
    else do readMembers (← s.add c) cs

/-- Reads a set after its negation mark: the first member may be a bracket or a dash. -/
def readSet : List Char → Except SyntaxError (List (Char × Char) × List Char)
  | [] => .error .unclosedSet
  | c :: cs => readMembers ⟨[(c, c)], false⟩ cs

def negation : List Char → Bool × List Char
  | '!' :: cs => (true, cs)
  | '^' :: cs => (true, cs)
  | cs => (false, cs)

inductive DoubleStar where
  /-- Two single stars. -/
  | plain
  /-- A tree at the start of a branch. -/
  | leading
  /-- A tree that takes the place of the token before it. -/
  | trailing
  | inner

/--
Decides a double star from the character before it, whether the branch has tokens and whether a
group is open, and from the text after it.
-/
def doubleStar (before : Option Char) (atStart inGroup : Bool) (after : List Char) : DoubleStar :=
  if atStart then
    match after with
    | [] | '/' :: _ => .leading
    | _ => .plain
  else if before = some '/' ∨ (inGroup ∧ (before = some ',' ∨ before = some '\x7b')) then
    match after with
    | [] => .trailing
    | '/' :: _ => .inner
    | ',' :: _ | '\x7d' :: _ => if inGroup then .trailing else .plain
    | _ => .plain
  else .plain

/-- Puts a tree in the place of the latest token, unless that is a tree at either end. -/
def replaceLatest (tree : Token) : List Token → List Token
  | .leadingTree :: ts => .leadingTree :: ts
  | .trailingTree :: ts => .trailingTree :: ts
  | _ :: ts => tree :: ts
  | [] => [tree]

def applyDoubleStar (kind : DoubleStar) (current : List Token) (after : List Char) :
    List Token × List Char :=
  match kind with
  | .plain => (.run :: .run :: current, after)
  | .leading => (.leadingTree :: current, after.tail)
  | .trailing => (replaceLatest .trailingTree current, after)
  | .inner => (replaceLatest .innerTree current, after.tail)

/--
Reads the rest of a pattern with at most `fuel` tokens. `before` is the character last read and
`outer` the groups around the one being read, innermost first.
-/
def readTokens : Nat → Option Char → Frame → List Frame → List Char →
    Except SyntaxError (List Token)
  | 0, _, _, _, _ => .error .unclosedGroup
  | _ + 1, _, frame, outer, [] =>
    if outer.isEmpty then .ok frame.current.reverse else .error .unclosedGroup
  | fuel + 1, before, frame, outer, c :: cs =>
    let go := readTokens fuel
    match c with
    | '?' => go (some c) (frame.push .one) outer cs
    | '*' =>
      match cs with
      | '*' :: after =>
        let kind := doubleStar before frame.current.isEmpty (!outer.isEmpty) after
        let (current, rest) := applyDoubleStar kind frame.current after
        let last := if rest.length < after.length then '/' else '*'
        go (some last) { frame with current := current } outer rest
      | _ => go (some c) (frame.push .run) outer cs
    | '[' => do
      let (negated, rest) := negation cs
      let (ranges, rest) ← readSet rest
      go (some ']') (frame.push (.set negated ranges)) outer rest
    | '\x7b' => go (some c) .start (frame :: outer) cs
    | '\x7d' =>
      match outer with
      | [] => .error .unopenedGroup
      | parent :: outer => go (some c) (parent.push frame.close) outer cs
    | ',' =>
      if outer.isEmpty then go (some c) (frame.push (.literal c)) outer cs
      else go (some c) frame.next outer cs
    | '\\' =>
      match cs with
      | [] => .error .danglingEscape
      | e :: cs => go (some e) (frame.push (.literal e)) outer cs
    | c => go (some c) (frame.push (.literal c)) outer cs

/-- Reads a pattern. Every token takes at least one character, so the fuel never runs out. -/
def parse (pattern : List Char) : Except SyntaxError (List Token) :=
  readTokens (pattern.length + 1) none .start [] pattern

end TopicClient.Glob
