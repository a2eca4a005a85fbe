import FeltRelay.Text.Hex
import FeltRelay.Text.Template

/-!
# Fields of journal entries

A field holds a JSON value or something that JSON has no form of its own for. It is written as JSON,
or as text for people. Bytes are digits where they are a field themselves; inside of other values
they are shown between quotes.
-/

namespace FeltRelay.Journal

open FeltRelay.Text

/-- What a field holds. -/
inductive FieldValue where
  | json (v : Json)
  | bytes (bytes : List UInt8)
  | path (path : String)
  /-- A fixed number of values. -/
  | items (items : List FieldValue)
  /-- Anything else, by its text. -/
  | other (text : String)

instance : Inhabited FieldValue := ⟨.json .null⟩
instance : Coe Json FieldValue := ⟨.json⟩

abbrev Fields := List (String × FieldValue)

namespace FieldValue

mutual

def innerJson : FieldValue → Json
  | json v => v
  | bytes b => .str (quotedBytes b)
  | path s | other s => .str s
  | items vs => .arr (innerItems vs)

def innerItems : List FieldValue → List Json
  | [] => []
  | v :: rest => innerJson v :: innerItems rest

end

def toJson : FieldValue → Json
  | bytes b => .str (Hex.encode b)
  | v => v.innerJson

mutual

/-- A value inside of another one, for people. -/
def shown : FieldValue → String
  | json v => v.shown
  | bytes b => quotedBytes b
  | path s => "PosixPath(" ++ quoted s ++ ")"
  | other s => s
  | items [v] => "(" ++ shown v ++ ",)"
  | items vs => "(" ++ ", ".intercalate (shownItems vs) ++ ")"

def shownItems : List FieldValue → List String
  | [] => []
  | v :: rest => shown v :: shownItems rest

end

def text : FieldValue → String
  | json v => v.plainText
  | bytes b => Hex.encode b
  | path s | other s => s
  | items vs => "[" ++ ", ".intercalate (shownItems vs) ++ "]"

def isNull : FieldValue → Bool
  | json .null => true
  | _ => false

end FieldValue

def Fields.toJson (fields : Fields) : List (String × Json) :=
  fields.map fun (name, v) => (name, v.toJson)

example : (FieldValue.items [.bytes [0, 39], .items [.json (.int 1)]]).text
    = "[b\"\\x00'\", (1,)]" := by decide +kernel

end FeltRelay.Journal
