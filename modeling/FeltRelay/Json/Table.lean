import FeltRelay.Problem

/-!
# Tables as JSON values

A table is an object, or an array of entries of two parts each: a key and a value. An entry is an
array of two items, an object of two members, whose names count, or a text of two characters. What
stands for nothing is the empty table.
-/

namespace FeltRelay.Json

/-- The two parts of an entry. -/
def entry : Json → Attempt (Json × Json)
  | .arr [k, v] => .ok (k, v)
  | .obj [(k, _), (v, _)] => .ok (.str k, .str v)
  | .str s =>
    match s.toList with
    | [k, v] => .ok (.str (String.singleton k), .str (String.singleton v))
    | _ => .error .malformed
  | .arr _ | .obj _ => .error .malformed
  | _ => .error .wrongKind

/-- The entries of a table. No key is an array or an object. -/
def entries : Json → Attempt (List (Json × Json))
  | .obj ms => .ok (ms.map fun (k, v) => (.str k, v))
  | .arr items => items.mapM fun item => do
    match ← entry item with
    | (.arr _, _) | (.obj _, _) => throw .wrongKind
    | e => return e
  | .str s => if s.isEmpty then .ok [] else .error .malformed
  | v => if v.isEmpty then .ok [] else .error .wrongKind

end FeltRelay.Json
