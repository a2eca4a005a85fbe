import FeltRelay.Json

/-!
# Abbreviated context

The context of a failure is kept short: a text is cut after `limit` characters, an array after
sixteen items and an object after sixteen members, at every depth. What was cut is marked.
-/

namespace FeltRelay.Failure

/-- How many items and members are kept. -/
def maxEntries : Nat := 16

/-- The mark of a cut. -/
def cutMark : String := "..."

/-- A text of at most `limit` characters and the mark. -/
def abbreviateText (limit : Nat) (s : String) : String :=
  if s.length ≤ limit then s else String.ofList (s.toList.take limit) ++ cutMark

mutual

/-- A value with long texts, arrays and objects cut. -/
def abbreviate (limit : Nat) : Json → Json
  | .str s => .str (abbreviateText limit s)
  | .arr items => .arr (abbreviateItems limit maxEntries items)
  | .obj ms => .obj (abbreviateMembers limit maxEntries [] ms)
  | v => v

/-- At most `room` items, then the mark. -/
def abbreviateItems (limit : Nat) : Nat → List Json → List Json
  | _, [] => []
  | 0, _ :: _ => [.str cutMark]
  | room + 1, v :: rest => abbreviate limit v :: abbreviateItems limit room rest

/-- At most `room` members, then the mark. -/
def abbreviateMembers (limit : Nat) :
    Nat → List (String × Json) → List (String × Json) → List (String × Json)
  | _, acc, [] => acc
  | 0, acc, _ :: _ => Entries.put cutMark (.str "truncated") acc
  | room + 1, acc, (k, v) :: rest =>
    abbreviateMembers limit room (Entries.put k (abbreviate limit v) acc) rest

end

/-- The longest text that is kept whole. -/
def textLimit : Nat := 256

/-- Members with everything that is long cut. -/
def shortened (ms : List (String × Json)) : List (String × Json) :=
  abbreviateMembers textLimit maxEntries [] ms

end FeltRelay.Failure
