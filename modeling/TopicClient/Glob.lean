import TopicClient.Glob.Parser

/-!
# Subscription keys as glob patterns

A key that contains a star, a question mark or an opening bracket is a pattern. A pattern that
cannot be read matches only its own text; one that nests too deeply cannot be used at all.
-/

namespace TopicClient

structure Glob where
  tokens : List Glob.Token
  regex : Regex

namespace Glob

def isGlob (key : String) : Bool :=
  key.toList.any fun c => c = '*' || c = '?' || c = '['

inductive Compiled where
  /-- The key is no pattern and stands for itself. -/
  | literal
  | glob (pattern : Glob)
  | invalid (cause : SyntaxError)
  | tooDeep

def compile (key : String) : Compiled :=
  if isGlob key then
    match parse key.toList with
    | .error cause => .invalid cause
    | .ok tokens =>
      if patternDepth tokens ≤ depthLimit then .glob ⟨tokens, regexOf tokens⟩ else .tooDeep
  else .literal

def accepts (g : Glob) (topic : String) : Bool :=
  g.regex.accepts topic.toUTF8.toList

def SyntaxError.describe (cause : SyntaxError) (key : String) : String :=
  s!"error parsing glob '{key}': {cause.message}"

end Glob

end TopicClient
