import FeltRelay.Failure

/-!
# Problems

What stops an activity: a failure that the library describes itself, or an input that it has no
description for.
-/

namespace FeltRelay

/-- What stops an activity. -/
inductive Problem where
  | failure (f : Failure)
  /-- An integer lies beyond the range of what it is given for. -/
  | tooLarge (i : Int)
  /-- A file is not UTF-8 text. -/
  | notText
  /-- A value is of a kind that nothing can be done with. -/
  | wrongKind
  /-- A value is of a kind that lacks what is asked of it. -/
  | unfit
  /-- A value is of the right kind and cannot be used all the same. -/
  | malformed
  /-- There is nothing at a place of a sequence. -/
  | outOfReach
  /-- An address that no request can go to. -/
  | unusableUrl (url : String)
  /-- A header holds a character beyond ASCII. -/
  | unsendableHeader
  /-- A body holds a number that JSON has no text for. -/
  | unsendableBody
deriving Inhabited

abbrev Attempt := Except Problem

def Attempt.ofExcept {α : Type} : Except Failure α → Attempt α
  | .ok a => .ok a
  | .error f => .error (.failure f)

end FeltRelay
