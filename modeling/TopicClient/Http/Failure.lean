import TopicClient.Url.Parser

/-!
# Failed exchanges

Why a request had no complete response. The report on a failure is a short text; behind it stand
its causes, each the cause of the one before.
-/

namespace TopicClient.Http

inductive Failure where
  /-- The text of a URL cannot be read. -/
  | unreadable (cause : Url.ParseError)
  /-- The scheme of a URL is not one of the web. -/
  | foreignScheme (url : Url)
  /-- No request takes a URL, although its scheme is one of the web. -/
  | unusable (url : Url)
  | refused (url : Url)
  | closed (url : Url)
  | timedOut (url : Url)
  | bodyCutShort
  | bodyTimedOut
  /-- A redirection too many, in the answer to a request for this URL. -/
  | tooManyRedirects (url : Url)
deriving DecidableEq, Repr

namespace Failure

def message : Failure → String
  | unreadable _ => "builder error"
  | foreignScheme url | unusable url => "builder error for url (" ++ url.render ++ ")"
  | refused url | closed url | timedOut url =>
    "error sending request for url (" ++ url.render ++ ")"
  | bodyCutShort | bodyTimedOut => "error decoding response body"
  | tooManyRedirects url => "error following redirect for url (" ++ url.render ++ ")"

def causes : Failure → List String
  | unreadable cause => [cause.message]
  | foreignScheme _ => ["URL scheme is not allowed"]
  | unusable _ => ["Parsed Url is not a valid Uri"]
  | refused _ =>
    ["client error (Connect)", "tcp connect error", "Connection refused (os error 111)"]
  | closed _ => ["client error (SendRequest)", "connection closed before message completed"]
  | timedOut _ | bodyTimedOut => ["operation timed out"]
  | bodyCutShort =>
    ["error reading a body from connection", "end of file before message length reached"]
  | tooManyRedirects _ => ["too many redirects"]

def isTimeout : Failure → Bool
  | timedOut _ | bodyTimedOut => true
  | _ => false

end Failure

end TopicClient.Http
