import FeltRelay.Decimal.Layout
import FeltRelay.Json
import FeltRelay.Text.Printable

/-!
# Values quoted in messages

A text is shown between single quotes, or between double quotes if it holds a single quote and no
double quote. Backslash, the quote itself, line feed, carriage return and tab are escaped, other
characters that are not printable stand as `\xNN`, `\uNNNN` or `\UNNNNNNNN`. Other values have a
notation of their own: `None`, `True`, `[1, 'a']`, `('a',)`, the mapping `'k': 1` between braces.
-/

namespace FeltRelay.Text

/-- The escape of a character that is not printable. -/
def escapeCode (c : Char) : List Char :=
  let n := c.toNat
  if n < 0x100 then '\\' :: 'x' :: padLeft 2 '0' (inBase 16 n)
  else if n < 0x10000 then '\\' :: 'u' :: padLeft 4 '0' (inBase 16 n)
  else '\\' :: 'U' :: padLeft 8 '0' (inBase 16 n)

/-- One character between quotes `q`. -/
def quotedChar (q c : Char) : List Char :=
  if c = q ∨ c = '\\' then ['\\', c]
  else if c = '\n' then ['\\', 'n']
  else if c = '\r' then ['\\', 'r']
  else if c = '\t' then ['\\', 't']
  else if isPrintable c then [c]
  else escapeCode c

/-- The quote that a text is shown with. -/
def quoteMark (s : List Char) : Char := if s.contains '\'' && !s.contains '"' then '"' else '\''

def quotedChars (s : List Char) : List Char :=
  let q := quoteMark s
  q :: s.flatMap (quotedChar q) ++ [q]

def quoted (s : String) : String := String.ofList (quotedChars s.toList)

/-- Bytes between quotes, after a `b`. -/
def quotedBytes (bytes : List UInt8) : String :=
  let chars := bytes.map fun b => Char.ofNat b.toNat
  let q := quoteMark chars
  let one (c : Char) : List Char := if c.toNat < 127 then quotedChar q c else escapeCode c
  String.ofList ('b' :: q :: chars.flatMap one ++ [q])

end FeltRelay.Text

namespace FeltRelay.Json

open FeltRelay.Text

mutual

def shown : Json → String
  | .null => "None"
  | .bool true => "True"
  | .bool false => "False"
  | .int i => integer i
  | .num x => Decimal.render Decimal.shortNames x
  | .str s => quoted s
  | .arr items => "[" ++ ", ".intercalate (shownItems items) ++ "]"
  | .obj ms => "\x7b" ++ ", ".intercalate (shownMembers ms) ++ "\x7d"

def shownItems : List Json → List String
  | [] => []
  | v :: rest => shown v :: shownItems rest

def shownMembers : List (String × Json) → List String
  | [] => []
  | (k, v) :: rest => (quoted k ++ ": " ++ shown v) :: shownMembers rest

end

/-- A text as it is, any other value as it is shown. -/
def plainText : Json → String
  | .str s => s
  | v => v.shown

/-- The name that messages use for the kind of a value. -/
def kindName : Json → String
  | .null => "NoneType"
  | .bool _ => "bool"
  | .int _ => "int"
  | .num _ => "float"
  | .str _ => "str"
  | .arr _ => "list"
  | .obj _ => "dict"

/-- The name that the JSON standard uses for the kind of a value. -/
def standardName : Json → String
  | .null => "null"
  | .bool _ => "boolean"
  | .int _ | .num _ => "number"
  | .str _ => "string"
  | .arr _ => "array"
  | .obj _ => "object"

end FeltRelay.Json
