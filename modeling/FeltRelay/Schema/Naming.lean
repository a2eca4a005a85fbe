import FeltRelay.Text.Case

/-!
# Names

How declared names become selectors, paths and variants. `snake` writes a name in small letters
with single underscores between its words; `upperCamel` writes the words together, each with a
capital.
-/

namespace FeltRelay.Schema.Naming

open FeltRelay.Text

/-- The longest selector: a short string has to fit one field element. -/
def maxSelectorBytes : Nat := 31

/-- Small letters, with an underscore before each capital that follows a small letter or a digit and
for each other character. `afterSmall` tells what was read last. -/
def snakeFrom : Bool → List Char → List Char
  | _, [] => []
  | afterSmall, c :: rest =>
    if isAlphanumeric c then
      let lead := if isCapital c && afterSmall then ['_'] else []
      lead ++ smallOf c ++ snakeFrom (isSmall c || isDigitLike c) rest
    else '_' :: snakeFrom false rest

/-- The words between underscores. -/
def wordsOf (s : List Char) : List (List Char) :=
  (s.splitOnP (· = '_')).filter (!·.isEmpty)

def snakeWords (s : List Char) : List (List Char) := wordsOf (snakeFrom false s)

/-- A name in small letters, its words joined by single underscores. -/
def snake (s : String) : String := String.ofList (['_'].intercalate (snakeWords s.toList))

def capitalized : List Char → List Char
  | [] => []
  | c :: rest => capitalOf c ++ rest

/-- The words of a name, written together, each with a capital. -/
def upperCamel (s : String) : String := String.ofList ((snakeWords s.toList).flatMap capitalized)

/-- A variant without its enumeration's name in front, if what is left starts a new word. -/
def stripEnumName (enum variant : String) : String :=
  let e := enum.toList
  let v := variant.toList
  let stripped := if e.isPrefixOf v then v.drop e.length else v
  match stripped with
  | c :: _ => if isCapital c then String.ofList stripped else variant
  | [] => variant

/-- The short string that a method is raised with. -/
def selectorOf (method : String) : String := snake method

/-- The path segment of a method. -/
def pathOf (method : String) : String := lower method

example : snake "getHTTPResponse2Go" = "get_httpresponse2_go" := by decide +kernel
example : upperCamel "COLOR_DARK_RED" = "ColorDarkRed" := by decide +kernel

end FeltRelay.Schema.Naming
