import FeltRelay.Codec.Event.Encode
import FeltRelay.Command
import FeltRelay.Dispatch
import FeltRelay.Files
import FeltRelay.Version

/-!
# Running commands

A command prints its result, or reports a failure as one JSON line. Settings are read first; the
words of the command are read after them.
-/

namespace FeltRelay

open FeltRelay.Schema FeltRelay.Codec FeltRelay.Text

namespace Command

inductive Ending where
  | done
  /-- A failure was reported. -/
  | failed
  /-- The line is no command. -/
  | misused
  /-- A value is not JSON. -/
  | unreadable
deriving DecidableEq, Repr

def Ending.status : Ending → Nat
  | done => 0
  | failed => 1
  | misused | unreadable => 2

def errorLine (members : List (String × Json)) : String :=
  (Json.obj [("error", .obj members)]).write .spaced

def report (members : List (String × Json)) : Activity Ending := do
  Activity.once (.report (errorLine members))
  return .failed

def printLine (text : String) : Activity Unit := Activity.once (.print (text ++ "\n"))

/-- A path that is given, or else that of a setting. -/
def pathOr (setting : Json) : Option String → Attempt String
  | some path => .ok (Path.normal path)
  | none =>
    match setting with
    | .str path => .ok (Path.normal path)
    | _ => .error .wrongKind

/-- The integers that words stand for, the first one at an index. -/
def elementsFrom : Nat → List String → Except Failure (List Json)
  | _, [] => .ok []
  | i, word :: rest => do
    let n ← readInteger ("$[" ++ decimal i ++ "]") (.str word)
    return .int n :: (← elementsFrom (i + 1) rest)

/-- A text with blanks behind it up to a width. -/
def padRight (width : Nat) (s : String) : String :=
  s ++ String.ofList (List.replicate (width - s.length) ' ')

def methodLine (m : Method) : String :=
  "  " ++ padRight 24 m.selector ++ " /" ++ padRight 20 m.path ++ " " ++ m.request ++ " -> " ++
    m.response

def serviceLines (s : Service) : List String :=
  ("Service " ++ s.name ++ ":") :: s.methods.map methodLine

/-- What a lock holds, for people. -/
def overview (l : Lock) : List String :=
  let package := l.model.package.getD ""
  ["Package: " ++ (if package.isEmpty then "-" else package),
    "Schema hash: " ++ l.hash,
    "Messages: " ++ decimal l.model.messages.length ++ "  Enums: " ++
      decimal l.model.enums.length] ++ l.model.services.flatMap serviceLines

def runGenerate (s : Settings) (definitions : String) (out : Option String) (name : String) :
    Activity Ending := do
  let directory ← Activity.ofAttempt (pathOr s.outDir out)
  let path := Path.normal definitions
  let model ← Files.readDefinitions path
  let declarations ← Files.declare model (Path.name path)
  let (cairo, lock) ← Files.writeArtifacts declarations model.lock directory name
  printLine ("Declarations: " ++ cairo)
  printLine ("Lock: " ++ lock)
  printLine ("Schema hash: " ++ model.hash)
  return .done

def runEncode (s : Settings) (type : String) (value : Json) (lock : Option String)
    (events : Bool) : Activity Ending := do
  let model := (← Files.readLock (← Activity.ofAttempt (pathOr s.lockPath lock))).model
  let modulus := s.modulus
  let written ← Activity.ofAttempt <| Attempt.ofExcept do
    let t ← model.typeOf type
    if events then
      return Json.arr ((← Event.encode model modulus t value).map Event.toJson)
    else
      return Json.arr ((← Flat.encode model modulus t value).map Json.int)
  printLine (written.write .spaced)
  return .done

def runDecode (s : Settings) (type : String) (elements : List String) (lock : Option String) :
    Activity Ending := do
  let elements ← Activity.ofAttempt (Attempt.ofExcept (elementsFrom 0 elements))
  let model := (← Files.readLock (← Activity.ofAttempt (pathOr s.lockPath lock))).model
  let value ← Activity.ofAttempt <| Attempt.ofExcept do
    Flat.decodeExact model s.modulus (← model.typeOf type) elements
  printLine (value.write .indented)
  return .done

def runAsk (s : Settings) (selector : String) (elements : List String)
    (lock servers expected : Option String) : Activity Ending := do
  let elements ← Activity.ofAttempt (Attempt.ofExcept (elementsFrom 0 elements))
  let lockPath ← Activity.ofAttempt (pathOr s.lockPath lock)
  let serversPath ← Activity.ofAttempt (pathOr s.serversPath servers)
  let lock ← Files.readLock lockPath
  let table ← Files.readServers s.polling serversPath
  let dispatcher ← Activity.ofAttempt (Dispatcher.ofLock lock table
    { expected := expected.map .text, settings := s })
  let outcome : Dispatch.Outcome ← liftM (dispatcher.ask selector elements)
  match outcome.result with
  | .error (.failed f) =>
    report (f.toFailure.toJson.members ++ [("cause", f.cause.toJson)])
  | .error (.broken problem) => throw problem
  | .ok elements =>
    printLine ((Json.arr (elements.map Json.int)).write .spaced)
    return .done

def runShow (s : Settings) (lock : Option String) (json : Bool) : Activity Ending := do
  let l ← Files.readLock (← Activity.ofAttempt (pathOr s.lockPath lock))
  if json then Activity.once (.print l.text)
  else (overview l).forM printLine
  return .done

def run (env : Settings.Environment) (s : Settings) : Command → Activity Ending
  | version => do
    printLine (FeltRelay.version (env.lookup "ORACLE_BRIDGE_GIT_DESCRIBE"))
    return .done
  | generate definitions out name => runGenerate s definitions out name
  | encode type value lock events => do
    let text ← if value = "-" then Activity.once .readInput else pure value
    match Json.read? text with
    | none =>
      Activity.once (.report "Invalid JSON value: *")
      return .unreadable
    | some v => runEncode s type v lock events
  | decode type elements lock => runDecode s type elements lock
  | ask selector elements lock servers expected => runAsk s selector elements lock servers expected
  | showLock lock json => runShow s lock json

end Command

namespace Invocation

open FeltRelay.Command

/-- Reads the settings, then the words of the command, and carries it out. -/
def perform (env : Settings.Environment) (inv : Invocation) : Activity Ending := do
  let s ← Files.readSettings env inv.settings
  match Command.read? inv.name inv.words with
  | none => return .misused
  | some c => c.run env s

/-- The process of a line; its failures are reported. -/
def process (env : Settings.Environment) (inv : Invocation) :
    Process (Except Problem Ending) := do
  match ← (inv.perform env).run with
  | .error (.failure f) => (report f.toJson.members).run
  | ending => return ending

end Invocation

/-- Runs a line: how it ended, or the problem that broke it off. -/
def runLine (env : Settings.Environment) (terminal : Bool) (line : List String) :
    Process (Except Problem Command.Ending) :=
  match Invocation.ofLine? line with
  | none => .done (.ok .misused)
  | some inv =>
    (inv.process env).journaled (Journal.configure env inv.json (.named inv.level) terminal)

end FeltRelay
