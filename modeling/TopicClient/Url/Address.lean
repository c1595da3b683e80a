import TopicClient.Text.Split
import TopicClient.Url.Percent

/-!
# Internet addresses in URLs

Version 4 addresses may have fewer than four parts, each in decimal, octal or hexadecimal. Version
6 addresses may be shortened at one place and may end in a version 4 address.
-/

namespace TopicClient.Url

def digitsValue? (radix : Nat) (cs : List Char) : Option Nat :=
  cs.foldlM (fun n c => do
    let d ← hexDigit? c
    if d < radix then some (n * radix + d) else none) 0

namespace Ipv4

/-- One part of an address. A prefix tells the radix, and nothing after it is zero. -/
def part? : List Char → Option Nat
  | [] => none
  | '0' :: 'x' :: ds | '0' :: 'X' :: ds => digitsValue? 16 ds
  | '0' :: d :: ds => digitsValue? 8 (d :: ds)
  | ds => digitsValue? 10 ds

/-- The parts of a name, without an empty one at the end. -/
def parts (cs : List Char) : List (List Char) :=
  let ps := Text.splitOn (· = '.') cs
  if ps.getLast? = some [] then ps.dropLast else ps

/-- Whether the last part of a name is a number, so that the name has to be an address. -/
def endsInNumber (cs : List Char) : Bool :=
  match (parts cs).getLast? with
  | none => false
  | some last => (!last.isEmpty && last.all Char.isDigit) || (part? last).isSome

/-- Reads an address: every part but the last is one byte, and the last fills what remains. -/
def parse? (cs : List Char) : Option Nat := do
  let ps := parts cs
  if 4 < ps.length then none
  else
    let ns ← ps.mapM part?
    let last ← ns.getLast?
    let front := ns.dropLast
    if Nat.pow 256 (4 - front.length) ≤ last ∨ front.any (255 < ·) then none
    else some (front.zipIdx.foldl (fun a p => a + p.1 * Nat.pow 256 (3 - p.2)) last)

def render (address : Nat) : String :=
  ".".intercalate ([3, 2, 1, 0].map fun i => toString (address / Nat.pow 256 i % 256))

end Ipv4

namespace Ipv6

def byte? (cs : List Char) : Option Nat :=
  match cs with
  | [] => none
  | ['0'] => some 0
  | '0' :: _ => none
  | ds => do
    let n ← digitsValue? 10 ds
    if n ≤ 255 ∧ ds.length ≤ 3 then some n else none

def embedded? (cs : List Char) : Option (List Nat) :=
  match Text.splitOn (· = '.') cs with
  | [a, b, c, d] => do
    let a ← byte? a
    let b ← byte? b
    let c ← byte? c
    let d ← byte? d
    return [256 * a + b, 256 * c + d]
  | _ => none

/-- Reads pieces up to the end. `gap` is the number of pieces before the place where zeros are
left out; it counts one zero that stands for them. -/
def pieces? : Nat → List Nat → Option Nat → List Char → Option (List Nat × Option Nat)
  | 0, _, _, _ => none
  | _ + 1, ps, gap, [] => some (ps, gap)
  | fuel + 1, ps, gap, c :: cs =>
    if ps.length = 8 then none
    else if c = ':' then
      if gap.isSome then none else pieces? fuel (ps ++ [0]) (some (ps.length + 1)) cs
    else
      let ds := ((c :: cs).take 4).takeWhile fun d => (hexDigit? d).isSome
      match digitsValue? 16 ds, (c :: cs).drop ds.length with
      | some n, [] => some (ps ++ [n], gap)
      | some n, ':' :: r => if r.isEmpty then none else pieces? fuel (ps ++ [n]) gap r
      | some _, '.' :: _ =>
        if ds.isEmpty ∨ 6 < ps.length then none
        else (embedded? (c :: cs)).map fun e => (ps ++ e, gap)
      | _, _ => none

def parse? (cs : List Char) : Option (List Nat) := do
  let start ← match cs with
    | ':' :: ':' :: r => some ([0], some 1, r)
    | ':' :: _ => none
    | [_] => none
    | r => some ([], none, r)
  let (ps, gap) ← pieces? (cs.length + 1) start.1 start.2.1 start.2.2
  match gap with
  | some g => return ps.take g ++ List.replicate (8 - ps.length) 0 ++ ps.drop g
  | none => if ps.length = 8 then return ps else none

/-- The start and the length of the longest run of zeros, the first of those. -/
def longestZeros (ps : List Nat) : Nat × Nat :=
  let runs := (List.range ps.length).map fun i => (i, ((ps.drop i).takeWhile (· = 0)).length)
  runs.foldl (fun best r => if best.2 < r.2 then r else best) (0, 0)

def pieceText (p : Nat) : String := String.ofList (Nat.toDigits 16 p)

/-- The address with its longest run of at least two zeros left out. -/
def render (ps : List Nat) : String :=
  let (start, length) := longestZeros ps
  let join (qs : List Nat) : String := ":".intercalate (qs.map pieceText)
  if length < 2 then join ps
  else join (ps.take start) ++ "::" ++ join (ps.drop (start + length))

end Ipv6

end TopicClient.Url
