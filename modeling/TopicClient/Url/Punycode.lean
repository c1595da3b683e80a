import TopicClient.Url.Address

/-!
# Punycode

A label with characters outside of ASCII is written as its ASCII characters, a hyphen, and numbers
that say which characters are inserted where. The numbers have variable length, and the thresholds
of their digits adapt to the numbers written before.
-/

namespace TopicClient.Url.Punycode

def threshold (bias position : Nat) : Nat :=
  max 1 (min 26 (36 * position - bias))

/-- Divides until at most 455 is left, and counts. -/
def settle : Nat → Nat → Nat → Nat × Nat
  | 0, delta, k => (delta, k)
  | fuel + 1, delta, k => if 455 < delta then settle fuel (delta / 35) (k + 36) else (delta, k)

/-- The bias after a number that was written when `points` characters were present. -/
def adapt (delta points : Nat) (first : Bool) : Nat :=
  let delta := if first then delta / 700 else delta / 2
  let (rest, k) := settle 64 (delta + delta / points) 0
  k + 36 * rest / (rest + 38)

def digit (n : Nat) : Char := Char.ofNat (if n < 26 then n + 97 else n + 22)

def encodeNumber (bias : Nat) : Nat → Nat → Nat → List Char
  | 0, _, q => [digit q]
  | fuel + 1, position, q =>
    let t := threshold bias position
    if q < t then [digit q]
    else digit (t + (q - t) % (36 - t)) :: encodeNumber bias fuel (position + 1) ((q - t) / (36 - t))

structure State where
  /-- The next code point to be inserted. -/
  next : Nat
  /-- How many insertions have been passed over since the last. -/
  delta : Nat
  bias : Nat
  /-- The number of characters that are present. -/
  points : Nat
  first : Bool
  text : List Char

/-- Passes one character of the label while `s.next` is inserted. -/
def visit (s : State) (c : Char) : State :=
  if c.toNat < s.next then { s with delta := s.delta + 1 }
  else if c.toNat = s.next then
    { s with
      delta := 0
      bias := adapt s.delta (s.points + 1) s.first
      points := s.points + 1
      first := false
      text := s.text ++ encodeNumber s.bias 64 1 s.delta }
  else s

def insertAll (label : List Char) (s : State) : List Nat → State
  | [] => s
  | n :: ns =>
    let s := { s with delta := s.delta + (n - s.next) * (s.points + 1), next := n }
    let s := label.foldl visit s
    insertAll label { s with delta := s.delta + 1, next := n + 1 } ns

def encode (label : List Char) : List Char :=
  let ascii := label.filter fun c => c.toNat < 128
  let others := (label.filter fun c => 128 ≤ c.toNat).map Char.toNat
  let ascending := (others.mergeSort fun a b => decide (a ≤ b)).eraseDups
  let start := if ascii.isEmpty then [] else ascii ++ ['-']
  (insertAll label ⟨128, 0, 72, ascii.length, true, start⟩ ascending).text

def digitValue? (c : Char) : Option Nat :=
  if 'a' ≤ c ∧ c ≤ 'z' then some (c.toNat - 97)
  else if '0' ≤ c ∧ c ≤ '9' then some (c.toNat - 22)
  else none

def decodeNumber (bias : Nat) : Nat → Nat → List Char → Option (Nat × List Char)
  | _, _, [] => none
  | position, weight, c :: cs => do
    let d ← digitValue? c
    let t := threshold bias position
    if d < t then return (d * weight, cs)
    else
      let (n, r) ← decodeNumber bias (position + 1) (weight * (36 - t)) cs
      return (d * weight + n, r)

def decodeNumbers : Nat → Nat → Nat → Nat → Bool → List Char → List Char → Option (List Char)
  | _, _, _, _, _, text, [] => some text
  | 0, _, _, _, _, _, _ => none
  | fuel + 1, next, place, bias, first, text, cs => do
    let (n, r) ← decodeNumber bias 1 1 cs
    let points := text.length + 1
    let place := place + n
    let next := next + place / points
    let place := place % points
    if 0x110000 ≤ next ∨ (0xD800 ≤ next ∧ next < 0xE000) then none
    else
      decodeNumbers fuel next (place + 1) (adapt n points first) false
        (text.take place ++ Char.ofNat next :: text.drop place) r

def decode? (cs : List Char) : Option (List Char) :=
  let (ascii, rest) := match (cs.reverse.span (· ≠ '-')) with
    | (_, []) => ([], cs)
    | (r, _ :: a) => (a.reverse, r.reverse)
  decodeNumbers (cs.length + 1) 128 0 72 true ascii rest

end TopicClient.Url.Punycode
