import FeltRelay.Decimal.Layout
import FeltRelay.Json

/-!
# JSON text

Values are written under a `Style`, which says what stands between items and after names, whether
lines are indented, and whether characters beyond ASCII are escaped. An empty array or object is
written without a blank. Numbers have the fewest digits that read back; `NaN`, `Infinity` and
`-Infinity` stand for themselves.
-/

namespace FeltRelay.Json

open FeltRelay.Text

/-- How JSON text is laid out. -/
structure Style where
  /-- What separates items and members on one line. -/
  comma : List Char
  /-- What separates a name from its value. -/
  colon : List Char
  /-- The width of one level, if each item has a line of its own. -/
  indent : Option Nat
  /-- Whether characters beyond printable ASCII are escaped. -/
  ascii : Bool

/-- No blanks, every character as it is. -/
def Style.compact : Style := ⟨[','], [':'], none, false⟩

/-- No blanks, ASCII only. -/
def Style.canonical : Style := ⟨[','], [':'], none, true⟩

/-- A blank after comma and colon, ASCII only. -/
def Style.spaced : Style := ⟨[',', ' '], [':', ' '], none, true⟩

/-- A line for each item, two blanks a level, ASCII only. -/
def Style.indented : Style := ⟨[','], [':', ' '], some 2, true⟩

/-- The escape of one 16-bit unit. -/
def unitEscape (n : Nat) : List Char := '\\' :: 'u' :: padLeft 4 '0' (inBase 16 n)

def escapedChar (ascii : Bool) (c : Char) : List Char :=
  let n := c.toNat
  if c = '"' ∨ c = '\\' then ['\\', c]
  else if c = '\n' then ['\\', 'n']
  else if c = '\r' then ['\\', 'r']
  else if c = '\t' then ['\\', 't']
  else if n = 8 then ['\\', 'b']
  else if n = 12 then ['\\', 'f']
  else if n < 32 then unitEscape n
  else if !ascii || n < 127 then [c]
  else if n < 0x10000 then unitEscape n
  else
    unitEscape (0xD800 + (n - 0x10000) / 0x400) ++ unitEscape (0xDC00 + (n - 0x10000) % 0x400)

def writeText (ascii : Bool) (s : String) : List Char :=
  '"' :: s.toList.flatMap (escapedChar ascii) ++ ['"']

/-- A line break and the blanks of a level, where lines are indented. -/
def Style.newline (st : Style) (level : Nat) : List Char :=
  match st.indent with
  | none => []
  | some width => '\n' :: List.replicate (width * level) ' '

mutual

/-- The text of a value that stands at a level. -/
def writeAt (st : Style) (level : Nat) : Json → List Char
  | .null => ['n', 'u', 'l', 'l']
  | .bool true => ['t', 'r', 'u', 'e']
  | .bool false => ['f', 'a', 'l', 's', 'e']
  | .int i => (integer i).toList
  | .num x => (Decimal.render Decimal.longNames x).toList
  | .str s => writeText st.ascii s
  | .arr [] => ['[', ']']
  | .arr (v :: rest) =>
    '[' :: st.newline (level + 1) ++ writeAt st (level + 1) v ++
      (writeItems st (level + 1) rest ++ st.newline level ++ [']'])
  | .obj [] => ['\x7b', '\x7d']
  | .obj ((k, v) :: rest) =>
    '\x7b' :: st.newline (level + 1) ++ writeText st.ascii k ++ st.colon ++
      writeAt st (level + 1) v ++ (writeMembers st (level + 1) rest ++ st.newline level ++ ['\x7d'])

def writeItems (st : Style) (level : Nat) : List Json → List Char
  | [] => []
  | v :: rest => st.comma ++ st.newline level ++ writeAt st level v ++ writeItems st level rest

def writeMembers (st : Style) (level : Nat) : List (String × Json) → List Char
  | [] => []
  | (k, v) :: rest =>
    st.comma ++ st.newline level ++ writeText st.ascii k ++ st.colon ++ writeAt st level v ++
      writeMembers st level rest

end

def write (st : Style) (v : Json) : String := String.ofList (writeAt st 0 v)

example : write .spaced (.obj [("a", .arr [.int 1, .null]), ("b", .obj [])])
    = "\x7b\"a\": [1, null], \"b\": \x7b\x7d\x7d" := by decide +kernel

end FeltRelay.Json
