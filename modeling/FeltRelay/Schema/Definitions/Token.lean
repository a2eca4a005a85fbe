import FeltRelay.Failure
import FeltRelay.Text.Blank

/-!
# Tokens of a definitions text

A text is cut into pieces from the front. Blanks and comments are skipped, the other pieces are
tokens: quoted strings, numbers, names (possibly dotted) and punctuation. Each token knows the line
and column of its first character.
-/

namespace FeltRelay.Schema.Definitions

open FeltRelay.Text

inductive TokenKind where
  | string | number | name | mark
deriving DecidableEq, Repr, Inhabited

/-- What messages call a kind of token. -/
def TokenKind.label : TokenKind → String
  | string => "string"
  | number => "number"
  | name => "ident"
  | mark => "punct"

/-- A place in a text, both counted from one. -/
structure Position where
  line : Nat
  column : Nat
deriving DecidableEq, Repr, Inhabited

def Position.after (p : Position) (c : Char) : Position :=
  if c = '\n' then ⟨p.line + 1, 1⟩ else ⟨p.line, p.column + 1⟩

def Position.afterAll (p : Position) (s : List Char) : Position := s.foldl after p

/-- A token: its kind, its characters as they stand, its place. -/
structure Token where
  kind : TokenKind
  text : String
  position : Position
deriving DecidableEq, Repr, Inhabited

/-! ### Pieces

Each function gives the number of characters of a piece at the front of a text, if there is one. -/

/-- Up to and with the first end of a block comment. -/
def blockEnd? : List Char → Option Nat
  | '*' :: '/' :: _ => some 2
  | _ :: rest => (blockEnd? rest).map (· + 1)
  | [] => none

/-- Up to and with the closing quote; a backslash takes the next character with it. -/
def stringEnd? (quote : Char) : List Char → Option Nat
  | [] => none
  | '\\' :: _ :: rest => (stringEnd? quote rest).map (· + 2)
  | c :: rest =>
    if c = quote then some 1
    else if c = '\\' ∨ c = '\n' then none
    else (stringEnd? quote rest).map (· + 1)

/-- The number of characters at the front that a class holds. -/
def spanLength (p : Char → Bool) (s : List Char) : Nat := (s.takeWhile p).length

/-- Digits without a sign: hexadecimal after `0x`, else decimal. -/
def magnitudeLength? (s : List Char) : Option Nat :=
  let decimal := match spanLength isDecimalDigit s with
    | 0 => none
    | n => some n
  match s with
  | '0' :: x :: rest =>
    if x = 'x' ∨ x = 'X' then
      match spanLength isHexDigit rest with
      | 0 => decimal
      | n => some (n + 2)
    else decimal
  | _ => decimal

def isNameStart (c : Char) : Bool := c.isAlpha || c = '_'

def isNamePart (c : Char) : Bool := c.isAlphanum || c = '_'

/-- The words of a dotted name after the first character of a word. -/
def nameTail : List Char → Nat
  | [] => 0
  | '.' :: c :: rest => if isNameStart c then nameTail rest + 2 else 0
  | c :: rest => if isNamePart c then nameTail rest + 1 else 0

/-- A name, perhaps with a dot in front. -/
def nameLength? : List Char → Option Nat
  | '.' :: c :: rest => if isNameStart c then some (nameTail rest + 2) else none
  | c :: rest => if isNameStart c then some (nameTail rest + 1) else none
  | [] => none

def marks : List Char := ['\x7b', '\x7d', '(', ')', '[', ']', ';', '=', '<', '>', ',']

def tokenLength? (s : List Char) : Option (TokenKind × Nat) :=
  match s with
  | [] => none
  | c :: rest =>
    if c = '"' ∨ c = '\'' then (stringEnd? c rest).map fun n => (.string, n + 1)
    else if c = '-' then (magnitudeLength? rest).map fun n => (.number, n + 1)
    else match magnitudeLength? s with
      | some n => some (.number, n)
      | none =>
        match nameLength? s with
        | some n => some (.name, n)
        | none => if marks.contains c then some (.mark, 1) else none

/-- A stretch of blanks or a comment at the front of a text. -/
def gapLength? (s : List Char) : Option Nat :=
  match spanLength isBlank s with
  | 0 =>
    match s with
    | '/' :: '/' :: rest => some (spanLength (· ≠ '\n') rest + 2)
    | '/' :: '*' :: rest => (blockEnd? rest).map (· + 2)
    | _ => none
  | n => some n

/-- The piece at the front of a text: a gap, or a token of some kind. -/
def pieceLength? (s : List Char) : Option (Option TokenKind × Nat) :=
  match gapLength? s with
  | some n => some (none, n)
  | none => (tokenLength? s).map fun (k, n) => (some k, n)

/-- The tokens of a text that starts at a place. Every piece has at least one character, so `fuel`
need not exceed their number. -/
def tokensFrom : Nat → Position → List Char → Except Failure (List Token)
  | _, _, [] => .ok []
  | 0, _, _ :: _ => .ok []
  | fuel + 1, p, c :: rest =>
    match pieceLength? (c :: rest) with
    | none =>
      .error (.parseError ("unexpected character " ++ quoted (String.singleton c)) p.line p.column)
    | some (kind, n) =>
      let piece := (c :: rest).take n
      match tokensFrom fuel (p.afterAll piece) ((c :: rest).drop n), kind with
      | .ok tokens, some k => .ok (⟨k, String.ofList piece, p⟩ :: tokens)
      | result, _ => result

def tokenize (text : String) : Except Failure (List Token) :=
  let s := text.toList
  tokensFrom s.length ⟨1, 1⟩ s

def Token.value (t : Token) : Int :=
  let (negative, s) := match t.text.toList with
    | '-' :: rest => (true, rest)
    | s => (false, s)
  let n : Int := match s with
    | '0' :: x :: rest => if x = 'x' ∨ x = 'X' then hexValue rest else decimalValue s
    | _ => decimalValue s
  if negative then -n else n

end FeltRelay.Schema.Definitions
