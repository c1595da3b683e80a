import TopicClient.Glob.Regex

/-!
# Glob patterns

A pattern is a sequence of tokens. This file holds the tokens, the regular expression a sequence
stands for, and the nesting of that expression, which is limited.
-/

namespace TopicClient.Glob

inductive Token where
  | literal (char : Char)
  /-- One byte other than a slash. -/
  | one
  /-- Any run of bytes other than slashes. -/
  | run
  /-- Nothing, a slash, or any directories up to a slash: a double star at the start. -/
  | leadingTree
  /-- A slash and anything below it: a double star at the end. -/
  | trailingTree
  /-- A slash, or directories between two slashes: a double star between slashes. -/
  | innerTree
  | set (negated : Bool) (ranges : List (Char × Char))
  | choice (branches : List (List Token))

def bytes (c : Char) : List UInt8 := String.utf8EncodeChar c

def slash : UInt8 := 47

/--
The byte ranges of one range of characters. A range between different characters runs from the
last byte of the lower one to the first byte of the upper one; all other bytes stand for themselves.
-/
def byteRanges : Char × Char → List (UInt8 × UInt8)
  | (lo, hi) =>
    let single : List UInt8 → List (UInt8 × UInt8) := List.map fun b => (b, b)
    if lo = hi then single (bytes lo)
    else
      single (bytes lo).dropLast
        ++ ((bytes lo).getLast?.toList.zip (bytes hi).head?.toList)
        ++ single (bytes hi).tail

def memberSet (negated : Bool) (ranges : List (Char × Char)) : ByteSet :=
  ⟨negated, ranges.flatMap byteRanges⟩

def anything : Regex := .star (.byte .all)

def slashRegex : Regex := .byte (.single slash)

mutual

/--
The parts a token contributes to the sequence it stands in. A group contributes the choice among
its branches that have any content, and nothing when no branch has.
-/
def Token.parts : Token → List Regex
  | .literal c => (bytes c).map fun b => .byte (.single b)
  | .one => [.byte (.except slash)]
  | .run => [.star (.byte (.except slash))]
  | .leadingTree => [.alt (.alt .empty slashRegex) (.seq anything slashRegex)]
  | .trailingTree => [slashRegex, anything]
  | .innerTree => [.alt slashRegex (.seq slashRegex (.seq anything slashRegex))]
  | .set negated ranges => [.byte (memberSet negated ranges)]
  | .choice branches =>
    match filledBranches branches with
    | [] => []
    | r :: rs => [Regex.choice r rs]

def sequenceParts : List Token → List Regex
  | [] => []
  | t :: ts => t.parts ++ sequenceParts ts

def filledBranches : List (List Token) → List Regex
  | [] => []
  | b :: bs =>
    match sequenceParts b with
    | [] => filledBranches bs
    | ps => Regex.concat ps :: filledBranches bs

end

def sequenceDepth (parts depth : Nat) : Nat :=
  if parts ≤ 1 then depth else depth + 1

mutual

def Token.depth : Token → Nat
  | .literal _ => 0
  | .one => 1
  | .run => 2
  | .leadingTree => 4
  | .trailingTree => 1
  | .innerTree => 4
  | .set _ ranges => if (ranges.flatMap byteRanges).length ≤ 1 then 1 else 2
  | .choice branches =>
    match filledBranches branches with
    | [] => 0
    | [_] => branchesDepth branches + 1
    | _ => branchesDepth branches + 2

def tokensDepth : List Token → Nat
  | [] => 0
  | t :: ts => max t.depth (tokensDepth ts)

def branchesDepth : List (List Token) → Nat
  | [] => 0
  | b :: bs => max (sequenceDepth (sequenceParts b).length (tokensDepth b)) (branchesDepth bs)

end

/-- A pattern made of a single leading double star is matched by everything. -/
def regexOf : List Token → Regex
  | [.leadingTree] => anything
  | ts => Regex.concat (sequenceParts ts)

def depthLimit : Nat := 250

/-- The nesting of the whole expression, which begins and ends with an anchor. -/
def patternDepth : List Token → Nat
  | [.leadingTree] => 2
  | ts => tokensDepth ts + 1

end TopicClient.Glob
