import TopicClient.CommandLine.Switch

/-!
# Refused command lines

A command line may ask for help, or for the version, or not be understood. Each has a message, of
which the first line says what is the matter, and an exit code.
-/

namespace TopicClient.CommandLine

inductive Refusal where
  | help
  | version
  /-- Nothing was given at all. -/
  | nothingGiven
  | unknownArgument (text : String)
  | unknownCommand (text : String)
  | missingCommand
  | missingArguments
  | missingValue (switch : Switch)
  /-- A variable of the environment has a value other than the two that its switch knows. -/
  | unknownValue (switch : Switch) (text : String)
  | invalidValue (switch : Switch) (text : String) (cause : NumberError)
  | repeated (switch : Switch)
  /-- A value is attached to a switch that takes none; `switch` is how it was written. -/
  | attachedValue (switch value : String)
deriving DecidableEq, Repr

namespace Refusal

def about : String := "Client for the Susi event server"

def programVersion : String := "susi 0.1.0"

def message : Refusal → String
  | help | nothingGiven => about
  | version => programVersion
  | unknownArgument text => s!"error: unexpected argument '{text}' found"
  | unknownCommand text => s!"error: unrecognized subcommand '{text}'"
  | missingCommand => "error: 'susi' requires a subcommand but one was not provided"
  | missingArguments => "error: the following required arguments were not provided:"
  | missingValue s => s!"error: a value is required for '{s.display}' but none was supplied"
  | unknownValue s text => s!"error: invalid value '{text}' for '{s.display}'"
  | invalidValue s text cause =>
    s!"error: invalid value '{text}' for '{s.display}': {cause.message}"
  | repeated s => s!"error: the argument '{s.display}' cannot be used multiple times"
  | attachedValue s value =>
    s!"error: unexpected value '{value}' for '{s}' found; no more were expected"

def headline (r : Refusal) : String := String.ofList (r.message.toList.takeWhile (· ≠ '\n'))

/-- Whether what was asked for is given, so that the program ends well. -/
def isAnswer : Refusal → Bool
  | help | version => true
  | _ => false

def exitCode (r : Refusal) : Nat := if r.isAnswer then 0 else 2

end Refusal

end TopicClient.CommandLine
