/-!
# Regular expressions over bytes

A pattern is matched against the UTF-8 bytes of a topic. `Regex.Matches` says which byte strings
belong to an expression, and `Regex.accepts` decides it by following the set of residual
expressions from byte to byte.
-/

namespace TopicClient

structure ByteSet where
  negated : Bool
  ranges : List (UInt8 × UInt8)
deriving DecidableEq, Repr

namespace ByteSet

def contains (s : ByteSet) (b : UInt8) : Bool :=
  s.ranges.any (fun r => r.1 ≤ b && b ≤ r.2) != s.negated

def all : ByteSet := ⟨true, []⟩

def single (b : UInt8) : ByteSet := ⟨false, [(b, b)]⟩

def except (b : UInt8) : ByteSet := ⟨true, [(b, b)]⟩

@[simp] theorem contains_all (b : UInt8) : all.contains b = true := rfl

@[simp] theorem contains_single (a b : UInt8) : (single a).contains b = decide (b = a) := by
  simp only [contains, single, List.any_cons, List.any_nil, Bool.or_false, Bool.bne_false]
  by_cases h : b = a
  · simp [h]
  · have : ¬ (a ≤ b ∧ b ≤ a) := fun ⟨h₁, h₂⟩ => h (UInt8.le_antisymm h₂ h₁)
    simp only [h, decide_false, Bool.and_eq_false_iff, decide_eq_false_iff_not]
    exact Decidable.not_and_iff_or_not.1 this

@[simp] theorem contains_except (a b : UInt8) : (except a).contains b = decide (b ≠ a) := by
  have h := contains_single a b
  simp only [contains, single, Bool.bne_false] at h
  simp only [contains, except, h, Bool.bne_true, decide_not]

end ByteSet

inductive Regex where
  | empty
  | byte (set : ByteSet)
  | seq (first second : Regex)
  | alt (left right : Regex)
  | star (body : Regex)
deriving DecidableEq, Repr

namespace Regex

inductive Matches : Regex → List UInt8 → Prop where
  | empty : Matches .empty []
  | byte {set : ByteSet} {b : UInt8} (h : set.contains b = true) : Matches (.byte set) [b]
  | seq {r₁ r₂ : Regex} {u v : List UInt8} (h₁ : Matches r₁ u) (h₂ : Matches r₂ v) :
      Matches (.seq r₁ r₂) (u ++ v)
  | left {r₁ r₂ : Regex} {u : List UInt8} (h : Matches r₁ u) : Matches (.alt r₁ r₂) u
  | right {r₁ r₂ : Regex} {u : List UInt8} (h : Matches r₂ u) : Matches (.alt r₁ r₂) u
  | done {r : Regex} : Matches (.star r) []
  | more {r : Regex} {u v : List UInt8} (h₁ : Matches r u) (h₂ : Matches (.star r) v) :
      Matches (.star r) (u ++ v)

def nullable : Regex → Bool
  | .empty => true
  | .byte _ => false
  | .seq r₁ r₂ => r₁.nullable && r₂.nullable
  | .alt r₁ r₂ => r₁.nullable || r₂.nullable
  | .star _ => true

/-- Sequencing that leaves out an empty first part. -/
def chain : Regex → Regex → Regex
  | .empty, r => r
  | r, k => .seq r k

/-- What may remain to be matched after the byte `b`. -/
def residuals (b : UInt8) : Regex → List Regex
  | .empty => []
  | .byte set => if set.contains b then [.empty] else []
  | .seq r₁ r₂ =>
    (r₁.residuals b).map (chain · r₂) ++ if r₁.nullable then r₂.residuals b else []
  | .alt r₁ r₂ => r₁.residuals b ++ r₂.residuals b
  | .star r => (r.residuals b).map (chain · (.star r))

def advance (states : List Regex) (b : UInt8) : List Regex :=
  (states.flatMap (residuals b)).eraseDups

def accepts (r : Regex) (input : List UInt8) : Bool :=
  (input.foldl advance [r]).any nullable

def concat : List Regex → Regex
  | [] => .empty
  | [r] => r
  | r :: rs => .seq r (concat rs)

def choice (r : Regex) : List Regex → Regex
  | [] => r
  | r' :: rs => .alt r (choice r' rs)

def literal (text : List UInt8) : Regex :=
  concat (text.map fun b => .byte (.single b))

end Regex

end TopicClient
