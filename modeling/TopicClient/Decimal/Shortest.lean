/-!
# Shortest decimals

`shortest` gives the fewest decimal digits that read back as a given binary fraction, and among
those the nearest ones. It looks at one decimal grid after the other, in exact arithmetic.
-/

namespace TopicClient.Decimal

/-- A positive number written with the given digits, the first of which has weight `10 ^ exponent`. -/
structure Digits where
  digits : List Nat
  exponent : Int
deriving DecidableEq, Repr

/-- The number `significand * 2 ^ exponent`, where `lowerGapHalved` tells that the next number
below is nearer than the next one above. -/
structure Dyadic where
  significand : Nat
  exponent : Int
  lowerGapHalved : Bool
deriving DecidableEq, Repr

namespace Dyadic

def ofBits (bits : Nat) : Dyadic :=
  let fraction := bits % 4503599627370496
  let biased := bits / 4503599627370496 % 2048
  if biased = 0 then ⟨fraction, -1074, false⟩
  else ⟨fraction + 4503599627370496, Int.ofNat biased - 1075, fraction = 0 && biased > 1⟩

end Dyadic

def scaled (n base : Nat) (e : Int) : Nat × Nat :=
  if 0 ≤ e then (n * Nat.pow base e.toNat, 1) else (n, Nat.pow base (-e).toNat)

/-- The weight of the leading digit of a fraction below one, after `k` powers of ten. -/
def leadingBelowOne (den : Nat) : Nat → Nat → Nat → Int
  | 0, _, k => -k
  | fuel + 1, num, k => if den ≤ num then -k else leadingBelowOne den fuel (num * 10) (k + 1)

def leadingWeight (num den : Nat) : Int :=
  if den ≤ num then ((Nat.toDigits 10 (num / den)).length : Int) - 1
  else leadingBelowOne den 400 num 0

/-- Bounds of the numbers that read back as the given one, and the number itself, all over one
denominator. The bounds belong to the interval when `closed` holds. -/
structure Interval where
  low : Nat
  value : Nat
  high : Nat
  denominator : Nat
  closed : Bool

def Dyadic.interval (x : Dyadic) : Interval :=
  let (unit, denominator) := scaled 1 2 (x.exponent - 2)
  { low := (4 * x.significand - if x.lowerGapHalved then 1 else 2) * unit
    value := 4 * x.significand * unit
    high := (4 * x.significand + 2) * unit
    denominator
    closed := x.significand % 2 = 0 }

def Interval.holds (i : Interval) (step scale n : Nat) : Bool :=
  let p := n * step
  if i.closed then i.low * scale ≤ p && p ≤ i.high * scale
  else i.low * scale < p && p < i.high * scale

/-- The point of the grid `10 ^ weight` that reads back, the nearer of two, the even one of two
that are equally near. -/
def Interval.gridPoint (i : Interval) (weight : Int) : Option Nat :=
  let (stepNum, stepDen) := scaled 1 10 weight
  let step := stepNum * i.denominator
  let below := i.value * stepDen / step
  match i.holds step stepDen below, i.holds step stepDen (below + 1) with
  | true, true =>
    let gapBelow := i.value * stepDen - below * step
    let gapAbove := (below + 1) * step - i.value * stepDen
    if gapBelow < gapAbove then some below
    else if gapAbove < gapBelow then some (below + 1)
    else some (if below % 2 = 0 then below else below + 1)
  | true, false => some below
  | false, true => some (below + 1)
  | false, false => none

def Interval.search (i : Interval) (leading : Int) : Nat → Nat → Nat × Int
  | 0, count => (0, leading - count + 1)
  | fuel + 1, count =>
    let weight := leading - count + 1
    match i.gridPoint weight with
    | some 0 | none => i.search leading fuel (count + 1)
    | some n => (n, weight)

def trimZeros : List Nat → List Nat
  | ds => (ds.reverse.dropWhile (· = 0)).reverse

/-- The fewest digits that read back as `x`; seventeen are always enough. -/
def shortest (x : Dyadic) : Digits :=
  let i := x.interval
  let (n, weight) := i.search (leadingWeight i.value i.denominator) 18 1
  let digits := (Nat.toDigits 10 n).map fun c => c.toNat - '0'.toNat
  ⟨trimZeros digits, weight + digits.length - 1⟩

end TopicClient.Decimal
