/-!
# Reading bytes as text

Bytes that are no UTF-8 become replacement characters, one for each longest piece that begins a
character, and one for each byte that cannot begin any.
-/

namespace TopicClient.Text

/-- The ranges in which the bytes after a leading byte lie; `none` if it leads nothing. -/
def continuation (lead : UInt8) : Option (List (UInt8 × UInt8)) :=
  let any : UInt8 × UInt8 := (0x80, 0xBF)
  if lead < 0x80 then some []
  else if lead < 0xC2 then none
  else if lead < 0xE0 then some [any]
  else if lead = 0xE0 then some [(0xA0, 0xBF), any]
  else if lead = 0xED then some [(0x80, 0x9F), any]
  else if lead < 0xF0 then some [any, any]
  else if lead = 0xF0 then some [(0x90, 0xBF), any, any]
  else if lead < 0xF4 then some [any, any, any]
  else if lead = 0xF4 then some [(0x80, 0x8F), any, any]
  else none

def takeInRanges : List (UInt8 × UInt8) → List UInt8 → List UInt8
  | (low, high) :: ranges, b :: bs =>
    if low ≤ b ∧ b ≤ high then b :: takeInRanges ranges bs else []
  | _, _ => []

def codePoint (lead : UInt8) (rest : List UInt8) : Nat :=
  let bits := match rest.length with
    | 0 => lead.toNat
    | 1 => lead.toNat % 32
    | 2 => lead.toNat % 16
    | _ => lead.toNat % 8
  rest.foldl (fun n b => 64 * n + b.toNat % 64) bits

def replacement : Char := '\uFFFD'

def decodeLossy : List UInt8 → List Char
  | [] => []
  | lead :: bs =>
    match continuation lead with
    | none => replacement :: decodeLossy bs
    | some ranges =>
      let rest := takeInRanges ranges bs
      let c := if rest.length = ranges.length then Char.ofNat (codePoint lead rest)
        else replacement
      c :: decodeLossy (bs.drop rest.length)
  termination_by bs => bs.length
  decreasing_by all_goals simp only [List.length_cons, List.length_drop]; omega

end TopicClient.Text
