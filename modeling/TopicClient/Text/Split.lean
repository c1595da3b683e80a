/-!
# Splitting texts
-/

namespace TopicClient.Text

/-- The parts of a text between the characters that separate them. -/
def splitOn (separates : Char → Bool) : List Char → List (List Char)
  | [] => [[]]
  | c :: cs =>
    if separates c then [] :: splitOn separates cs
    else
      match splitOn separates cs with
      | [] => [[c]]
      | p :: ps => (c :: p) :: ps

def lower (s : String) : String := String.ofList (s.toList.map Char.toLower)

end TopicClient.Text
