/-!
# JSON values

Integers are kept exactly when they fit into 64 bits, signed or unsigned; all other numbers are
doubles. The members of an object are sorted by key, and each key occurs once.
-/

namespace TopicClient.Json

/-- An integer that fits into 64 bits, with or without a sign. -/
structure Integer where
  val : Int
  lower : -9223372036854775808 ≤ val
  upper : val < 18446744073709551616
deriving DecidableEq

namespace Integer

def ofInt? (i : Int) : Option Integer :=
  if h : -9223372036854775808 ≤ i ∧ i < 18446744073709551616 then some ⟨i, h.1, h.2⟩ else none

@[simp] theorem ofInt?_val (i : Integer) : ofInt? i.val = some i := by
  have h : -9223372036854775808 ≤ i.val ∧ i.val < 18446744073709551616 := ⟨i.lower, i.upper⟩
  rw [ofInt?, dif_pos h]

end Integer

inductive Number where
  | integer (value : Integer)
  | float (value : Float)

inductive Value where
  | null
  | bool (value : Bool)
  | number (value : Number)
  | string (value : String)
  | array (elements : List Value)
  | object (members : List (String × Value))

namespace Value

/-- Puts a member in its place; a member with the same key is replaced. -/
def insertMember (key : String) (value : Value) : List (String × Value) → List (String × Value)
  | [] => [(key, value)]
  | (k, v) :: rest =>
    if key < k then (key, value) :: (k, v) :: rest
    else if k = key then (key, value) :: rest
    else (k, v) :: insertMember key value rest

def ofMembers (members : List (String × Value)) : Value :=
  .object (members.foldl (fun sorted m => insertMember m.1 m.2 sorted) [])

mutual

/-- How many arrays and objects enclose the deepest value. -/
def nesting : Value → Nat
  | .array elements => elementsNesting elements + 1
  | .object members => membersNesting members + 1
  | _ => 0

def elementsNesting : List Value → Nat
  | [] => 0
  | v :: vs => max v.nesting (elementsNesting vs)

def membersNesting : List (String × Value) → Nat
  | [] => 0
  | (_, v) :: ms => max v.nesting (membersNesting ms)

end

end Value

end TopicClient.Json
