import FeltRelay.Journal.Record
import FeltRelay.Settings

/-!
# The journal

Which entries are written, and how. Settings of the environment take part: the level given there
wins, the format given there counts if none is asked for, and colours can be switched off.
-/

namespace FeltRelay

open FeltRelay.Journal

/-- Which entries are written, and how. -/
structure Journal where
  level : Level
  /-- Lines of JSON, or lines for people. -/
  json : Bool
  color : Bool
deriving Repr

namespace Journal

/-- The name above all loggers. -/
def rootLogger : String := "oracle_bridge"

inductive LevelChoice where
  | named (name : String)
  | weight (level : Level)

def LevelChoice.level : LevelChoice → Level
  | named name => Level.ofName name
  | weight l => l

/-- Whether lines of JSON are written if nothing is asked for. -/
def jsonByDefault (env : Settings.Environment) (colorful : Bool) : Bool :=
  match Text.lower (Text.trim ((env.lookup "ORACLE_BRIDGE_LOG_FORMAT").getD "")) with
  | "json" => true
  | "text" => false
  | _ => !colorful

def levelVariable : String := "ORACLE_BRIDGE_LOG_LEVEL"

def configure (env : Settings.Environment) (json : Option Bool) (level : LevelChoice)
    (terminal : Bool) : Journal :=
  let level := ((env.get? levelVariable).map LevelChoice.named).getD level
  let colorful := terminal && (env.lookup "NO_COLOR").isNone
  ⟨level.level, json.getD (jsonByDefault env colorful), colorful⟩

/-- The level of loggers of network libraries: not below warnings. -/
def quietLevel (j : Journal) : Level := max j.level .warning

/-- Whether a logger stands below another one or is it. -/
def isWithin (logger above : String) : Bool :=
  logger = above || (above ++ ".").toList.isPrefixOf logger.toList

/-- The level from which on a logger takes entries. Where nothing is set up, warnings are taken. -/
def threshold (journal : Option Journal) (logger : String) : Level :=
  match journal with
  | none => .warning
  | some j =>
    if isWithin logger rootLogger then (if j.level = 0 then .warning else j.level)
    else if isWithin logger "httpx" || isWithin logger "httpcore" then j.quietLevel
    else .warning

/-- Whether a logger takes entries of a level. Entries without weight are never taken. -/
def takes (journal : Option Journal) (logger : String) (level : Level) : Bool :=
  0 < level && threshold journal logger ≤ level

/-- The line of an entry, if it is written. -/
def line? (j : Journal) (time : String) (r : Record) : Option String :=
  if isWithin r.logger rootLogger && takes j r.logger r.level && j.level ≤ r.level then
    some (if j.json then r.jsonLine time else r.textLine j.color time)
  else none

end Journal

end FeltRelay
