import FeltRelay.Text.Blank
import FeltRelay.Text.Case
import FeltRelay.Text.Numeral

/-!
# Levels

The weight of a journal entry is an integer; some weights have names.
-/

namespace FeltRelay.Journal

/-- The weight of an entry. -/
abbrev Level := Int

namespace Level

def debug : Level := 10
def info : Level := 20
def warning : Level := 30
def error : Level := 40
def critical : Level := 50

/-- The named levels. The first name of a level is the one that is written. -/
def names : List (String × Level) :=
  [("CRITICAL", critical), ("FATAL", critical), ("ERROR", error), ("WARNING", warning),
    ("WARN", warning), ("INFO", info), ("DEBUG", debug), ("NOTSET", 0)]

def name (l : Level) : String :=
  match names.find? (·.2 = l) with
  | some (n, _) => n
  | none => "Level " ++ Text.integer l

/-- The level of a name in either case, blanks around it aside. What is no name means `info`. -/
def ofName (text : String) : Level := (names.lookup (Text.upper (Text.trim text))).getD info

def color (l : Level) : String :=
  if l = debug then "\x1b[90m"
  else if l = info then "\x1b[32m"
  else if l = warning then "\x1b[33m"
  else if l = error then "\x1b[31m"
  else if l = critical then "\x1b[1m\x1b[35m"
  else ""

/-- Ends a colour. -/
def plain : String := "\x1b[0m"

/-- Reading a written name gives its level back. -/
theorem ofName_name_of_mem : ∀ e ∈ names, ofName (name e.2) = e.2 := by decide +kernel

end Level

end FeltRelay.Journal
