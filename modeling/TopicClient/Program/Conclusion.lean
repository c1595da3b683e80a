import TopicClient.Client.Events

/-!
# How the program ends

The program ends with something to print, or with an error and its causes.
-/

namespace TopicClient.Program

inductive Conclusion where
  | success (printed : List String)
  /-- An error, the causes of which follow it. -/
  | failure (error : String) (causes : List String)
  /-- The program is broken off. -/
  | breakdown
deriving DecidableEq, Repr

def Conclusion.ofError (attempt : String) (e : ClientError) : Conclusion :=
  .failure attempt e.chain

def Conclusion.ofFault (attempt : String) : Client.Fault → Conclusion
  | .error e => .ofError attempt e
  | .unusableKey => .breakdown

def Conclusion.exitCode : Conclusion → Nat
  | success _ => 0
  | failure _ _ => 1
  | breakdown => 101

/-- A text behind a label, with its further lines set off as far as `margin`. -/
def labelled (label margin : String) (text : String) : String :=
  label ++ String.join (text.toList.map fun c =>
    if c = '\n' then "\n" ++ margin else String.singleton c)

/-- The report on a cause. Causes are numbered if there are several. -/
def causeText (numbered : Bool) (index : Nat) (text : String) : String :=
  let number := toString index
  if numbered then
    labelled (String.ofList (List.replicate (5 - number.length) ' ') ++ number ++ ": ")
      "       " text
  else labelled "    " "    " text

def errorText (error : String) (causes : List String) : String :=
  "Error: " ++ error ++
    if causes.isEmpty then ""
    else
      let numbered := 1 < causes.length
      "\n\nCaused by:" ++ String.join
        (causes.zipIdx.map fun c => "\n" ++ causeText numbered c.2 c.1)

end TopicClient.Program
