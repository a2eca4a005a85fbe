import FeltRelay.Text.CharSet

/-!
# Blank characters and lines

White space in the wide sense: the Unicode property `White_Space` (version 14) together with the
four separators U+001C to U+001F. Texts are trimmed of it, and the definitions language and the
duration grammar skip it.

Line breaks come as line feeds, as carriage returns, as both together, and as further characters,
some of which only some notations know.
-/

namespace FeltRelay.Text

def blanks : CharSet := CharSet.ofRuns
  "9 5 14 5 100 1 26 1 5599 1 2431 11 29 2 5 1 47 1 4000 1"

/-- White space, the four information separators included. -/
def isBlank (c : Char) : Bool :=
  if c.toNat < 128 then (9 ≤ c.toNat && c.toNat ≤ 13) || (28 ≤ c.toNat && c.toNat ≤ 32)
  else blanks.contains c

def trimLeft (s : List Char) : List Char := s.dropWhile isBlank

def trimChars (s : List Char) : List Char := (trimLeft (trimLeft s).reverse).reverse

def trim (s : String) : String := String.ofList (trimChars s.toList)

/-- Every character that core calls white space is blank. -/
theorem isBlank_of_isWhitespace (c : Char) (h : c.isWhitespace = true) : isBlank c = true := by
  simp [Char.isWhitespace] at h
  rcases h with ((h | h) | h) | h <;> subst h <;> decide

/-! ### Lines -/

/-- Line breaks of every kind as line feeds; a carriage return with a line feed is one break. -/
def unifyBreaks (isBreak : Char → Bool) : List Char → List Char
  | '\r' :: '\n' :: rest => '\n' :: unifyBreaks isBreak rest
  | c :: rest => (if isBreak c then '\n' else c) :: unifyBreaks isBreak rest
  | [] => []

/-- A character that ends a line: those of ASCII, the separators of files, groups and records, and
three more of Unicode. -/
def endsLine (c : Char) : Bool :=
  (10 ≤ c.toNat && c.toNat ≤ 13) || (28 ≤ c.toNat && c.toNat ≤ 30) ||
    ['\x85', '\u2028', '\u2029'].contains c

/-- The lines of a text. A line break at its end starts no further line. -/
def lines (s : String) : List String :=
  let parts := (unifyBreaks endsLine s.toList).splitOnP (· = '\n')
  let parts := if parts.getLast? = some [] then parts.dropLast else parts
  parts.map String.ofList

example : lines "a\n\r\nb\u2028" = ["a", "", "b"] := by decide +kernel

end FeltRelay.Text
