import FeltRelay.Text.Units
import FeltRelay.Yaml.Scalar

/-!
# Pieces of YAML text

Blanks, comments and line breaks between values, and the scalars themselves, plain or quoted. A
scalar may go on over several lines: one line break becomes a blank, of more than one all but the
first are kept.
-/

namespace FeltRelay.Yaml

open FeltRelay.Text

structure Cursor where
  rest : List Char
  /-- The column; it is kept up only where a block may start. -/
  column : Nat
  /-- Whether only blanks stand before on the line. -/
  fresh : Bool

/-- Passes over blanks, line breaks and comments. -/
def skipFrom : Bool → List Char → Nat → Bool → Cursor
  | _, [], column, fresh => ⟨[], column, fresh⟩
  | comment, c :: rest, column, fresh =>
    if c = '\n' then skipFrom false rest 0 true
    else if comment then skipFrom true rest (column + 1) fresh
    else if c = ' ' then skipFrom false rest (column + 1) fresh
    else if c = '#' then skipFrom true rest (column + 1) fresh
    else ⟨c :: rest, column, fresh⟩

def Cursor.skip (c : Cursor) : Cursor := skipFrom false c.rest c.column c.fresh

/-- The next token of a text that goes on after another token. -/
def skip (s : List Char) : Cursor := skipFrom false s 0 false

/-- The end of the text, a blank or a line break comes next. -/
def endsWord : List Char → Bool
  | [] => true
  | c :: _ => c = ' ' || c = '\t' || c = '\n'

def isFlowMark (c : Char) : Bool := [',', '[', ']', '\x7b', '\x7d'].contains c

def plainEnds (flow : Bool) : List Char → Bool
  | ':' :: rest => endsWord rest || (flow && isFlowMark (rest.headD ' '))
  | c :: rest => endsWord (c :: rest) || (flow && (c = '?' || isFlowMark c))
  | [] => true

def startsPlain (flow : Bool) : List Char → Bool
  | [] => false
  | c :: rest =>
    if c = '-' then !endsWord rest
    else if c = '?' ∨ c = ':' then !flow && !endsWord rest
    else !endsWord (c :: rest) && !isFlowMark c &&
      !(['#', '&', '*', '!', '|', '>', '\'', '"', '%', '@', '\x60'].contains c)

def plainPiece (flow : Bool) : List Char → List Char × List Char
  | [] => ([], [])
  | c :: rest =>
    if plainEnds flow (c :: rest) then ([], c :: rest)
    else
      let (piece, after) := plainPiece flow rest
      (c :: piece, after)

/-- Blanks and line breaks: the rest, its column, the blanks at the end and the count of breaks. -/
def gap : List Char → Nat → Nat → Nat → List Char × Nat × Nat × Nat
  | [], column, blanks, breaks => ([], column, blanks, breaks)
  | c :: rest, column, blanks, breaks =>
    if c = ' ' then gap rest (column + 1) (blanks + 1) breaks
    else if c = '\n' then gap rest 0 0 (breaks + 1)
    else (c :: rest, column, blanks, breaks)

/-- What line breaks inside a scalar become. -/
def folded (breaks : Nat) : List Char :=
  if breaks = 1 then [' '] else List.replicate (breaks - 1) '\n'

structure Scanned where
  text : List Char
  /-- The place after it. -/
  after : Cursor
  /-- Whether it goes over more than one line. -/
  multiline : Bool

/-- The further pieces of a plain scalar. Lines that belong to it start at column `least` or
later. -/
def plainRest (flow : Bool) (least : Nat) : Nat → List Char → Bool → List Char → Scanned
  | 0, text, multiline, s => ⟨text, ⟨s, 0, false⟩, multiline⟩
  | fuel + 1, text, multiline, s =>
    let (rest, column, blanks, breaks) := gap s 0 0 0
    let stop : Scanned := ⟨text, ⟨rest, column, breaks ≠ 0⟩, multiline⟩
    if blanks = 0 ∧ breaks = 0 then stop
    else if rest.head? = some '#' then stop
    else if !flow && breaks ≠ 0 && column < least then stop
    else match plainPiece flow rest with
      | ([], _) => stop
      | (piece, after) =>
        let between := if breaks = 0 then List.replicate blanks ' ' else folded breaks
        plainRest flow least fuel (text ++ between ++ piece) (multiline || breaks ≠ 0) after

def plain (flow : Bool) (least : Nat) (s : List Char) : Scanned :=
  let (piece, after) := plainPiece flow s
  plainRest flow least s.length piece false after

/-- Blanks and line breaks inside quotes: what they become, the count of breaks, and the rest. -/
def quotedGap : List Char → List Char → Nat → List Char × Nat × List Char
  | blanks, c :: rest, breaks =>
    if c = ' ' ∨ c = '\t' then quotedGap (blanks ++ [c]) rest breaks
    else if c = '\n' then quotedGap [] rest (breaks + 1)
    else (if breaks = 0 then blanks else folded breaks, breaks, c :: rest)
  | blanks, [], breaks => (blanks, breaks, [])

def escapes : List (Char × Nat) :=
  [('0', 0), ('a', 7), ('b', 8), ('t', 9), ('\t', 9), ('n', 10), ('v', 11), ('f', 12), ('r', 13),
    ('e', 27), (' ', 32), ('"', 34), ('\\', 92), ('/', 47), ('N', 0x85), ('_', 0xA0),
    ('L', 0x2028), ('P', 0x2029)]

/-- How many digits follow the escapes of code points. -/
def escapeWidth? : Char → Option Nat
  | 'x' => some 2
  | 'u' => some 4
  | 'U' => some 8
  | _ => none

/-- The character of an escape, and the rest. -/
def escape? (e : Char) (rest : List Char) : Option (Char × List Char) :=
  match escapes.lookup e, escapeWidth? e with
  | some n, _ => some (Char.ofNat n, rest)
  | none, some width =>
    let digits := rest.take width
    let n := hexValue digits
    if digits.length = width ∧ digits.all isHexDigit ∧ n ≤ 0x10FFFF then
      some (Units.lone n, rest.drop width)
    else none
  | none, none => none

/-- The rest of a scalar between quotes. Between single quotes two of them stand for one, between
double quotes a backslash escapes. -/
def quotedRest (double : Bool) : Nat → List Char → Bool → List Char → Option Scanned
  | 0, _, _, _ => none
  | _ + 1, _, _, [] => none
  | fuel + 1, text, multiline, c :: rest =>
    if c = ' ' ∨ c = '\t' ∨ c = '\n' then
      let (between, breaks, after) := quotedGap [] (c :: rest) 0
      quotedRest double fuel (text ++ between) (multiline || breaks ≠ 0) after
    else if double && c = '\\' then
      match rest with
      | '\n' :: rest =>
        let (_, breaks, after) := quotedGap [] rest 0
        quotedRest double fuel (text ++ List.replicate breaks '\n') true after
      | e :: rest =>
        match escape? e rest with
        | some (d, after) => quotedRest double fuel (text ++ [d]) multiline after
        | none => none
      | [] => none
    else if double && c = '"' then some ⟨text, ⟨rest, 0, false⟩, multiline⟩
    else if !double && c = '\'' then
      match rest with
      | '\'' :: rest => quotedRest double fuel (text ++ ['\'']) multiline rest
      | _ => some ⟨text, ⟨rest, 0, false⟩, multiline⟩
    else quotedRest double fuel (text ++ [c]) multiline rest

/-- A scalar of any kind, with its value. -/
def scalar? (flow : Bool) (least : Nat) (s : List Char) :
    Option (Weighed Scalar × Cursor × Bool) :=
  match s with
  | '"' :: rest =>
    (quotedRest true (s.length + 1) [] false rest).map fun t =>
      (.ok (.str (String.ofList t.text)), t.after, t.multiline)
  | '\'' :: rest =>
    (quotedRest false (s.length + 1) [] false rest).map fun t =>
      (.ok (.str (String.ofList t.text)), t.after, t.multiline)
  | _ =>
    if startsPlain flow s then
      let t := plain flow least s
      (plainValue? t.text).map fun v => (v, t.after, t.multiline)
    else none

end FeltRelay.Yaml
