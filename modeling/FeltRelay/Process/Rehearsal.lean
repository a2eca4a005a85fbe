import FeltRelay.Path
import FeltRelay.Process

/-!
# Rehearsals

A rehearsal answers the questions of a process from what was prepared: replies in order, a clock
that moves only when it is told to, files in memory. It keeps what the process did. After the last
reply no connection is made.
-/

namespace FeltRelay

open FeltRelay.Network

/-- A reply that was prepared, and the seconds that pass before it comes. -/
structure Prepared where
  elapse : Float := 0.0
  reply : Reply
deriving Inhabited

/-- Prepared surroundings, and what happened in them. -/
structure Rehearsal where
  replies : List Prepared := []
  now : Float := 0.0
  files : List (String × List UInt8) := []
  directories : List String := []
  input : String := ""
  sent : List Request := []
  sleeps : List Float := []
  notes : List Journal.Record := []
  printed : String := ""
  reported : List String := []

namespace Rehearsal

/-- The reply when none is left. -/
def lastReply : Reply := .disconnected "no reply scripted"

def exchange (request : Request) (r : Rehearsal) : Reply × Rehearsal :=
  let r := { r with sent := r.sent ++ [request] }
  match r.replies with
  | [] => (lastReply, r)
  | p :: rest => (p.reply, { r with replies := rest, now := r.now + p.elapse })

/-! ### Files -/

/-- The longest name of a file or directory, in bytes. -/
def maxName : Nat := 255

/-- The step to the upper directory. -/
def upward : List Char := ['.', '.']

/-- Whether a place is a file. -/
def isFile (r : Rehearsal) (place : String) : Bool := Entries.has place r.files

/-- Whether a place is a directory: one that was made, one with a file in it, or one around the
current directory. -/
def isDirectory (r : Rehearsal) (place : String) : Bool :=
  (Path.parts place).all (· = upward) || r.directories.contains place ||
    r.files.any fun f => (Path.above f.1).contains place

/-- The place that steps lead to; only places that are `open` can be gone through upwards. The lead
is the root of an absolute path. -/
def walk? (isOpen : String → Bool) (lead : List Char) :
    List (List Char) → List (List Char) → Option String
  | done, [] => some (Path.spell lead done)
  | done, step :: rest =>
    if maxName < (Text.Utf8.encode (String.ofList step)).length then none
    else if step ≠ upward then walk? isOpen lead (done ++ [step]) rest
    else if !isOpen (Path.spell lead done) then none
    else if done.getLast?.any (· ≠ upward) then walk? isOpen lead done.dropLast rest
    else walk? isOpen lead (if lead = [] then done ++ [step] else done) rest

def place? (r : Rehearsal) (path : String) : Option String :=
  walk? r.isDirectory (Path.root path.toList) [] (Path.parts path)

def readFile (r : Rehearsal) (path : String) : Contents :=
  (r.place? path).bind (List.lookup · r.files)

/-- The places that a path goes through, the last one included, once there are directories. -/
def placesTo? (r : Rehearsal) (path : String) : Option (List String) :=
  let steps := Path.parts path
  (List.range steps.length).mapM fun n =>
    walk? (!r.isFile ·) (Path.root path.toList) [] (steps.take (n + 1))

/-- Makes a directory with those above it, unless a file is in the way. -/
def makeDirectory (r : Rehearsal) (path : String) : Bool × Rehearsal :=
  match r.placesTo? path with
  | some places =>
    if places.any r.isFile then (false, r)
    else (true, { r with directories := r.directories ++ places })
  | none => (false, r)

/-- Writes a file, if its directory is there and it is no directory itself. -/
def writeFile (r : Rehearsal) (path text : String) : Bool × Rehearsal :=
  match r.place? path with
  | some place =>
    if r.isDirectory place || !r.isDirectory ((Path.above place).headD ".") then (false, r)
    else (true, { r with files := Entries.put place (Text.Utf8.encode text) r.files })
  | none => (false, r)

def answer (r : Rehearsal) : (q : Question) → q.Answer × Rehearsal
  | .send request => r.exchange request
  | .clock => (r.now, r)
  | .sleep s => ((), { r with now := r.now + s, sleeps := r.sleeps ++ [s] })
  | .note entry => ((), { r with notes := r.notes ++ [entry] })
  | .newTrace => ("*", r)
  | .timestamp => ("*", r)
  | .readFile path => (r.readFile path, r)
  | .makeDirectory path => r.makeDirectory path
  | .writeFile path text => r.writeFile path text
  | .readInput => (r.input, r)
  | .print text => ((), { r with printed := r.printed ++ text })
  | .report line => ((), { r with reported := r.reported ++ [line] })

end Rehearsal

def Process.rehearse {α : Type} : Process α → Rehearsal → α × Rehearsal
  | done a, r => (a, r)
  | ask q next, r =>
    let (a, r) := r.answer q
    (next a).rehearse r

/-- Running one process after another. -/
theorem Process.rehearse_bind {α β : Type} (p : Process α) (f : α → Process β) (r : Rehearsal) :
    (p >>= f).rehearse r = (f (p.rehearse r).1).rehearse (p.rehearse r).2 := by
  induction p generalizing r with
  | done a => rfl
  | ask q next ih => exact ih (r.answer q).1 (r.answer q).2

end FeltRelay
