import FeltRelay.Text.Blank
import FeltRelay.Text.Letter

/-!
# Cairo identifiers

A name becomes an identifier: blanks at the ends are dropped, characters that are no letter, numeral
or underscore become underscores, a keyword gets an underscore behind it and a leading digit one in
front.
-/

namespace FeltRelay.Cairo

open FeltRelay.Text

def keywords : List String :=
  ["as", "break", "const", "continue", "do", "dyn", "else", "enum", "extern", "false", "fn", "for",
    "hint", "if", "impl", "implicits", "in", "let", "loop", "macro", "match", "mod", "move", "mut",
    "nopanic", "of", "pub", "ref", "return", "self", "Self", "static", "struct", "super", "trait",
    "true", "try", "type", "typeof", "use", "where", "while", "yield"]

def identifierChar (c : Char) : Char := if isAlphanumeric c || c = '_' then c else '_'

def identifier (name : String) : String :=
  let s := (trimChars name.toList).map identifierChar
  let s := if s.isEmpty then ['x'] else s
  let s := if keywords.contains (String.ofList s) then s ++ ['_'] else s
  String.ofList (if s.head?.any isDigitLike then '_' :: s else s)

example : identifier "type" = "type_" := by decide +kernel
example : identifier "2 fast" = "_2_fast" := by decide +kernel

end FeltRelay.Cairo
