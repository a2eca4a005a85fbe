import FeltRelay.Entries

/-!
# Arguments of commands

A command line mixes options and arguments. An option is given by its long name, perhaps with its
value after an equals sign, or by a dash and one letter, perhaps with its value attached. A value
that is not attached is the next word, whatever it looks like. After `--` every word is an argument,
and a single dash always is.
-/

namespace FeltRelay.Command

structure Opt where
  spelling : String
  /-- What it sets. -/
  key : String
  /-- The value that it sets by itself; if there is none, a value follows. -/
  constant : Option String := none
deriving DecidableEq, Repr

/-- Options with their values, and the arguments in order. -/
structure Words where
  options : List (String × String) := []
  arguments : List String := []
deriving DecidableEq, Repr

namespace Words

/-- Adds an option in front; one that comes later counts more. -/
def addOption (key value : String) (w : Words) : Words :=
  { w with options := Entries.putNew key value w.options }

def addArgument (word : String) (w : Words) : Words := { w with arguments := word :: w.arguments }

def value? (w : Words) (key : String) : Option String := w.options.lookup key

def has (w : Words) (key : String) : Bool := (w.value? key).isSome

end Words

def isOption (word : String) : Bool := word.toList.head? = some '-' && 1 < word.length

def isLong (word : String) : Bool := ['-', '-'].isPrefixOf word.toList

def find? (opts : List Opt) (spelling : List Char) : Option Opt :=
  opts.find? (·.spelling.toList = spelling)

/-- The option that a word stands for, and the value attached to it. -/
def optionOf? (opts : List Opt) (word : String) : Option (Opt × Option String) :=
  let s := word.toList
  let name := s.takeWhile (· ≠ '=')
  if isLong word then
    (find? opts name).map fun o =>
      (o, if name.length < s.length then some (String.ofList (s.drop (name.length + 1))) else none)
  else
    (find? opts (s.take 2)).map fun o =>
      (o, if 2 < s.length then some (String.ofList (s.drop 2)) else none)

/-- The words of a line. Unless options may stand among the arguments, all from the first argument
on are arguments. Nothing for an unknown option, a value that is missing, or one too many. -/
def scan (opts : List Opt) (mixed : Bool) : List String → Option Words
  | [] => some {}
  | word :: rest =>
    if word = "--" then some { arguments := rest }
    else if isOption word then
      match optionOf? opts word with
      | none => none
      | some (o, attached) =>
        match o.constant, attached with
        | some v, none => (scan opts mixed rest).map (·.addOption o.key v)
        | some _, some _ => none
        | none, some v => (scan opts mixed rest).map (·.addOption o.key v)
        | none, none =>
          match rest with
          | [] => none
          | v :: rest => (scan opts mixed rest).map (·.addOption o.key v)
    else if mixed then (scan opts mixed rest).map (·.addArgument word)
    else some { arguments := word :: rest }

example : scan [⟨"--out", "out", none⟩, ⟨"-o", "out", none⟩] true
      ["a", "-ox", "--out=y", "--", "-z"] = some ⟨[("out", "y")], ["a", "-z"]⟩ := by decide +kernel
example : scan [] true ["-1"] = none := by decide +kernel

end FeltRelay.Command
