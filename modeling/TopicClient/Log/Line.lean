import TopicClient.Log.Record

/-!
# Log lines

A record is written as its level, its source, its message and its fields. Characters in the message
that could steer a terminal are written as escapes.
-/

namespace TopicClient.Log

def isSteering (c : Char) : Bool := ['\x1b', '\x07', '\x08', '\x0c', '\x7f'].contains c

def escape (c : Char) : List Char :=
  if isSteering c then
    ['\\', 'x', Nat.digitChar (c.toNat / 16), Nat.digitChar (c.toNat % 16)]
  else if 0x80 ≤ c.toNat ∧ c.toNat ≤ 0x9F then
    ['\\', 'u', '\x7b'] ++ Nat.toDigits 16 c.toNat ++ ['\x7d']
  else [c]

def FieldValue.render : FieldValue → String
  | .plain text => text
  | .quoted text => Text.quoted text

/-- The text of a record, which is one line unless a text in it has several. -/
def Record.render (r : Record) : String :=
  let message := String.ofList (r.message.toList.flatMap escape)
  let fields := r.fields.map fun f => " " ++ f.1 ++ "=" ++ f.2.render
  r.level.name ++ " " ++ r.source.target ++ ": " ++ message ++ String.join fields

end TopicClient.Log
