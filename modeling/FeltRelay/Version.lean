import FeltRelay.Text.Blank

/-!
# Version

The release number, followed by a description of the build where one is given.
-/

namespace FeltRelay

def release : String := "0.1.0"

/-- The release number with a description of the build after a plus sign. Blanks around the
description do not count. -/
def version (build : Option String) : String :=
  let text := Text.trim (build.getD "")
  if text.isEmpty then release else release ++ "+" ++ text

example : version none = "0.1.0" := rfl

end FeltRelay
