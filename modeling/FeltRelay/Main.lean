import FeltRelay.Command.Run
import FeltRelay.Journal.Moment
import Std.Time.DateTime.Timestamp

/-!
# The command line

Answers the questions of a process with the files, the streams and the clock of the machine. There
is no network here: every request ends without a connection.
-/

namespace FeltRelay

open FeltRelay.Network

/-- What an action gives, or nothing if it fails. -/
def attempted {α : Type} (action : IO α) : IO (Option α) := do
  try
    return some (← action)
  catch _ => return none

/-- All bytes of a stream. -/
partial def readAll (stream : IO.FS.Stream) (acc : ByteArray) : IO ByteArray := do
  let part ← stream.read 4096
  if part.isEmpty then return acc else readAll stream (acc ++ part)

/-- A name that was hardly used before. -/
def freshTrace : IO String := do
  let n ← IO.rand 0 (Nat.pow 2 48 - 1)
  return String.ofList (Text.padLeft 12 '0' (Text.inBase 16 n))

def answer : (q : Question) → IO q.Answer
  | .send _ => return Reply.disconnected "no network"
  | .clock => return (← IO.monoMsNow).toFloat / 1000.0
  | .sleep seconds => IO.sleep (seconds * 1000.0).toUInt32
  | .note _ => return ()
  | .newTrace => freshTrace
  | .timestamp => do
    let now ← Std.Time.Timestamp.now
    return Journal.momentText now.toMillisecondsSinceUnixEpoch.val.toNat
  | .readFile path => do
    let bytes ← attempted (IO.FS.readBinFile path)
    return bytes.map ByteArray.toList
  | .makeDirectory path => return (← attempted (IO.FS.createDirAll path)).isSome
  | .writeFile path text => return (← attempted (IO.FS.writeFile path text)).isSome
  | .readInput => do
    let bytes ← readAll (← IO.getStdin) ByteArray.empty
    return Text.Utf8.decodeLossy bytes.toList
  | .print text => do (← IO.getStdout).putStr text
  | .report line => do (← IO.getStderr).putStrLn line

def Process.perform {α : Type} : Process α → IO α
  | done a => return a
  | ask q next => do
    let a ← answer q
    (next a).perform

/-- The environment variables that count. -/
def variableNames : List String :=
  [Settings.fileVariable, Journal.levelVariable, "ORACLE_BRIDGE_LOG_FORMAT",
    "ORACLE_BRIDGE_GIT_DESCRIBE", "NO_COLOR"] ++ Settings.knownVariables.map (·.name)

/-- Those variables that are set. -/
def environment : IO Settings.Environment :=
  variableNames.filterMapM fun name => do
    return (← IO.getEnv name).map (name, ·)

end FeltRelay

open FeltRelay in
def main (args : List String) : IO UInt32 := do
  let env ← environment
  let terminal ← (← IO.getStderr).isTty
  match ← (runLine env terminal args).perform with
  | .ok ending =>
    if ending = .misused then
      IO.eprintln "Usage: felt-relay [OPTIONS] version|generate|encode|decode|ask|lock ..."
    return ending.status.toUInt32
  | .error _ =>
    IO.eprintln "An input cannot be used."
    return 1
