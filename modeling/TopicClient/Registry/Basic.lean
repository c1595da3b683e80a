import TopicClient.Glob
import TopicClient.Log.Record

/-!
# The subscription registry

A registry maps subscription keys to the handlers registered under them. Keys are numbered in the
order in which they first appear, and that number decides the order of delivery: for an event, the
handlers of its own topic come first, then those of the matching patterns, the newest key first.
Under one key the newest handler comes first.
-/

namespace TopicClient

/-- A key with its rank among all keys, its pattern if it is a readable one, and its handlers in
the order of their registration. -/
structure Registry.Entry (H : Type) where
  key : String
  rank : Nat
  pattern : Option Glob
  handlers : List H

structure Registry (H : Type) where
  entries : List (Registry.Entry H) := []

namespace Registry

variable {H : Type}

/-- The key whose handlers receive every event. -/
def wildcard : String := "*"

def empty : Registry H := {}

instance : Inhabited (Registry H) := ⟨empty⟩

def find? (r : Registry H) (key : String) : Option (Entry H) :=
  r.entries.find? fun e => e.key = key

/-- The handlers registered under exactly this key, oldest first. -/
def handlers (r : Registry H) (key : String) : List H :=
  match r.find? key with
  | some e => e.handlers
  | none => []

def count (r : Registry H) (key : String) : Nat := (r.handlers key).length

def contains (r : Registry H) (key : String) : Bool := 0 < r.count key

/-- The keys in the order of their code points. -/
def keys (r : Registry H) : List String :=
  (r.entries.map (·.key)).mergeSort fun a b => decide (a ≤ b)

def append (r : Registry H) (key : String) (handler : H) : Registry H :=
  ⟨r.entries.map fun e =>
    if e.key = key then { e with handlers := e.handlers ++ [handler] } else e⟩

def add (r : Registry H) (key : String) (pattern : Option Glob) (handler : H) : Registry H :=
  ⟨r.entries ++ [⟨key, r.entries.length, pattern, [handler]⟩]⟩

inductive Registration (H : Type) where
  | done (registry : Registry H)
  /-- The key was new and is no readable pattern; it stands for itself. -/
  | literal (registry : Registry H) (cause : Glob.SyntaxError)
  /-- The pattern nests too deeply, and nothing was registered. -/
  | refused

/-- Registers a handler. A key is looked at as a pattern when it first appears. -/
def register (r : Registry H) (key : String) (handler : H) : Registration H :=
  match r.find? key with
  | some _ => .done (r.append key handler)
  | none =>
    match Glob.compile key with
    | .literal => .done (r.add key none handler)
    | .glob pattern => .done (r.add key (some pattern) handler)
    | .invalid cause => .literal (r.add key none handler) cause
    | .tooDeep => .refused

/-- Whether an entry under another key than the topic receives its events. -/
def Entry.covers (e : Entry H) (topic : String) : Bool :=
  e.key ≠ topic && (e.key = wildcard || e.pattern.any (·.accepts topic))

/-- The entries that receive a topic by their pattern, newest key first. -/
def covering (r : Registry H) (topic : String) : List (Entry H) :=
  (r.entries.filter (·.covers topic)).mergeSort fun a b => decide (b.rank ≤ a.rank)

def order (r : Registry H) (topic : String) : List H :=
  (r.handlers topic).reverse ++ (r.covering topic).flatMap fun e => e.handlers.reverse

def display (r : Registry H) : String :=
  let item (e : Entry H) : String := Text.quoted e.key ++ ": " ++ toString e.handlers.length
  "\x7b" ++ ", ".intercalate (r.entries.map item) ++ "\x7d"

def unreadableKey (key : String) (cause : Glob.SyntaxError) : Log.Record :=
  { level := .warn
    source := .events
    message := "Invalid glob pattern, matching it literally"
    fields := [("key", .quoted key), ("error", .plain (cause.describe key))] }

end Registry

end TopicClient
