import FeltRelay.Schema.Model

/-!
# Messages within themselves

A message that contains itself through plain message fields has no finite value. A cycle through an
optional or an array is fine, since those end with an absent value or an empty array.
-/

namespace FeltRelay.Schema.Model

/-- The fields of a message that hold a message whole, with the name of that message. -/
def plainFields (m : Model) (name : String) : List (String × String) :=
  match m.message? name with
  | some spec => spec.fields.filterMap fun f => f.type.plainMessage?.map fun n => (f.name, n)
  | none => []

/-- Walks the plain fields of a message depth first. `path` holds the messages that contain it,
`done` those that are known to be finite. -/
def visit (m : Model) : Nat → List String → List String → String → Except Failure (List String)
  | 0, _, done, _ => .ok done
  | budget + 1, path, done, name =>
    if done.contains name then .ok done
    else do
      let path := name :: path
      let done ← (m.plainFields name).foldlM (fun done (field, inner) =>
        if path.contains inner then .error (.unsupportedField name field "recursive message")
        else m.visit budget path done inner) done
      return name :: done

/-- Refuses a model in which a message contains itself, naming a field on such a cycle. -/
def checkContainment (m : Model) : Except Failure Unit := do
  let _ ← m.messages.foldlM (fun done spec => m.visit (m.messages.length + 1) [] done spec.name) []
  return ()

end FeltRelay.Schema.Model
