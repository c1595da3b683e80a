import TopicClient.Client.Error
import TopicClient.Text.Blank

/-!
# Configuration

The address of the server and how it is to be reached.
-/

namespace TopicClient

structure Config where
  /-- The address of the server, without slashes at its end. -/
  url : String
  /-- How long a request may take, in milliseconds; without it, forever. -/
  timeout : Option Nat := none
  insecure : Bool := false
deriving DecidableEq, Repr

namespace Config

def ofUrl (url : String) : Config := { url := Text.dropTrailingSlashes url }

end Config

/-- The address to which the paths of requests are appended. The text has to be a URL, and stays
as it is but for the slashes at its end. -/
def baseUrl (text : String) : Except ClientError String :=
  match Url.parse text with
  | .ok _ => .ok (Text.dropTrailingSlashes text)
  | .error cause => .error (.invalidUrl (text ++ ": " ++ cause.message))

def endpoint (base path : String) : String :=
  if path.startsWith "/" then base ++ path else base ++ "/" ++ path

end TopicClient
