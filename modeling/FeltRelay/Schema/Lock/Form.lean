import FeltRelay.Failure

/-!
# The form of a document

A form says what JSON values a place in a document admits. `Form.faults` lists the places of a
value that break its form; the fault to report is the first of those that lie least deep.
-/

namespace FeltRelay.Schema

/-- A step from a value to a part of it. -/
inductive Step where
  | member (name : String)
  | item (index : Nat)
deriving DecidableEq, Repr

def Step.text : Step → String
  | member name => name
  | item i => Text.decimal i

/-- A path from the document to a part of it; the document itself is `$`. -/
def pathText : List Step → String
  | [] => "$"
  | steps => "/".intercalate (steps.map Step.text)

/-- The place to report, if there is any: the first of the least deep ones. -/
def shallowest? : List (List Step) → Option (List Step)
  | [] => none
  | p :: rest =>
    match shallowest? rest with
    | none => some p
    | some q => if p.length ≤ q.length then some p else some q

/-- The faults of the items of an array, each under its index. -/
def itemFaults (faults : Json → List (List Step)) (v : List Json) : List (List Step) :=
  v.zipIdx.flatMap fun (item, i) => (faults item).map (.item i :: ·)

/-- The faults of one member of an object, if it is there. -/
def memberFaults (faults : Json → List (List Step)) (name : String) (ms : List (String × Json)) :
    List (List Step) :=
  match ms.lookup name with
  | some v => (faults v).map (.member name :: ·)
  | none => []

def everyMemberFaults (faults : Json → List (List Step)) (ms : List (String × Json)) :
    List (List Step) :=
  ms.flatMap fun (name, v) => (faults v).map (.member name :: ·)

/-- The object itself is at fault if a name is missing or not among those known. -/
def nameFaults (required known : List String) (ms : List (String × Json)) : List (List Step) :=
  (if required.all (Entries.has · ms) then [] else [[]]) ++
    (if (Entries.keys ms).all known.contains then [] else [[]])

/-- The value itself is at fault unless it is a text. -/
def textFaults : Json → List (List Step)
  | .str _ => []
  | _ => [[]]

end FeltRelay.Schema
