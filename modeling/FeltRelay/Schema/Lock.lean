import FeltRelay.Digest.Sha3
import FeltRelay.Json.Writer
import FeltRelay.Schema.Model
import FeltRelay.Text.Hex
import FeltRelay.Text.Utf8

/-!
# Locks

A lock is the JSON snapshot of a model with a hash of it. The hash is SHA3-256 over the canonical
text of the document without the hash: members in order of their names, no blanks, ASCII only.
Fields stand in a list, so their order counts.
-/

namespace FeltRelay.Schema

def lockVersion : Int := 1

structure Lock where
  model : Model
  /-- `0x` and 64 small hexadecimal digits. -/
  hash : String
  /-- The version as the document states it. -/
  version : Json := .int lockVersion

namespace Model

def fieldDocument (f : Field) : Json := .obj [("name", f.name), ("type", f.type.descriptor)]

def methodDocument (m : Method) : Json :=
  .obj [("selector", m.selector), ("path", m.path), ("request", m.request),
    ("response", m.response)]

/-- The document of a model, without the hash. -/
def document (m : Model) : List (String × Json) :=
  [("version", .int lockVersion), ("package", .optional m.package),
    ("messages", .obj (m.messages.map fun s => (s.name, .arr (s.fields.map fieldDocument)))),
    ("enums", .obj (m.enums.map fun e => (e.name, .strings e.variants))),
    ("services", .obj (m.services.map fun s =>
      (s.name, .obj (s.methods.map fun x => (x.name, methodDocument x)))))]

/-- The text that is hashed. -/
def canonicalText (m : Model) : String := (Json.obj m.document).sorted.write .canonical

def hash (m : Model) : String :=
  "0x" ++ Text.Hex.encode (Digest.Sha3.sum256 (Text.Utf8.encode m.canonicalText))

def lock (m : Model) : Lock := ⟨m, m.hash, .int lockVersion⟩

end Model

/-- The number that a sequence of bytes spells, most significant first. -/
def bigEndian (bytes : List UInt8) : Nat := bytes.foldl (fun n b => n * 256 + b.toNat) 0

/-- A hash as one field element: its first 31 bytes, since all 32 do not fit. Nothing if the text
is not hexadecimal. -/
def hashElement? (hash : String) : Option Nat :=
  let s := hash.toList
  let digits := if ['0', 'x'].isPrefixOf s then s.drop 2 else s
  (Text.Hex.decode? digits).map fun bytes => bigEndian (bytes.take 31)

/-- The document of a lock, indented, members in order of their names. -/
def Lock.text (l : Lock) : String :=
  (Json.obj (Entries.put "schema_hash" l.hash l.model.document)).sorted.write .indented ++ "\n"

end FeltRelay.Schema
