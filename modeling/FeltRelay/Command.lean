import FeltRelay.Command.Arguments

/-!
# Commands

A line has general options, the name of a command, and the words of the command. The words are read
only after the general options have been acted on.
-/

namespace FeltRelay

inductive Command where
  | version
  /-- To write declarations and lock for definitions. -/
  | generate (definitions : String) (out : Option String) (name : String)
  /-- To write a JSON value as elements or events. -/
  | encode (type value : String) (lock : Option String) (events : Bool)
  /-- To read elements as a JSON value. -/
  | decode (type : String) (elements : List String) (lock : Option String)
  /-- To answer one question. -/
  | ask (selector : String) (elements : List String) (lock servers expected : Option String)
  /-- To print what a lock holds. -/
  | showLock (lock : Option String) (json : Bool)
deriving DecidableEq, Repr

namespace Command

def lockOpt : Opt := ⟨"--lock", "lock", none⟩

def readGenerate (words : List String) : Option Command := do
  let w ← scan [⟨"--out", "out", none⟩, ⟨"-o", "out", none⟩, ⟨"--name", "name", none⟩] true words
  match w.arguments with
  | [definitions] => some (generate definitions (w.value? "out") ((w.value? "name").getD "oracle"))
  | _ => none

def readEncode (words : List String) : Option Command := do
  let w ← scan [lockOpt, ⟨"--events", "events", some ""⟩] true words
  match w.arguments with
  | [type, value] => some (encode type value (w.value? "lock") (w.has "events"))
  | _ => none

def readDecode (words : List String) : Option Command := do
  let w ← scan [lockOpt] true words
  match w.arguments with
  | type :: elements => some (decode type elements (w.value? "lock"))
  | [] => none

def readAsk (words : List String) : Option Command := do
  let w ← scan [lockOpt, ⟨"--servers", "servers", none⟩, ⟨"--expected-hash", "expected", none⟩]
    true words
  match w.arguments with
  | selector :: elements =>
    some (ask selector elements (w.value? "lock") (w.value? "servers") (w.value? "expected"))
  | [] => none

def readShow (words : List String) : Option Command := do
  let w ← scan [⟨"--json", "json", some ""⟩] true words
  match w.arguments with
  | [] => some (showLock none (w.has "json"))
  | [lock] => some (showLock lock (w.has "json"))
  | _ => none

def readLock (words : List String) : Option Command := do
  match (← scan [] false words).arguments with
  | "show" :: rest => readShow rest
  | _ => none

def readVersion (words : List String) : Option Command := do
  match (← scan [] true words).arguments with
  | [] => some version
  | _ => none

def readers : List (String × (List String → Option Command)) :=
  [("version", readVersion), ("generate", readGenerate), ("encode", readEncode),
    ("decode", readDecode), ("ask", readAsk), ("lock", readLock)]

def read? (name : String) (words : List String) : Option Command :=
  (readers.lookup name).bind (· words)

end Command

structure Invocation where
  settings : Option String
  level : String
  /-- Whether journal lines are to be JSON, if anything is said about it. -/
  json : Option Bool
  name : String
  words : List String
deriving DecidableEq, Repr

namespace Invocation

open FeltRelay.Command

def opts : List Opt :=
  [⟨"--config", "config", none⟩, ⟨"--log-level", "level", none⟩,
    ⟨"--json-logs", "logs", some "json"⟩, ⟨"--text-logs", "logs", some "text"⟩]

/-- A line with known general options and a known command. -/
def ofLine? (line : List String) : Option Invocation := do
  let w ← scan opts false line
  match w.arguments with
  | [] => none
  | name :: words =>
    if Entries.has name readers then
      some ⟨w.value? "config", (w.value? "level").getD "WARNING",
        (w.value? "logs").map (· = "json"), name, words⟩
    else none

end Invocation

end FeltRelay
