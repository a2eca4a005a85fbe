import FeltRelay.Failure
import FeltRelay.Schema.Scalar

/-!
# Types

A type is a scalar, a declared message or enumeration by its name, or an optional or an array of
another type. A descriptor is the JSON form of a type: an object of one member, whose name says
which of these it is.
-/

namespace FeltRelay.Schema

inductive Ty where
  | scalar (kind : Scalar)
  | message (name : String)
  | enum (name : String)
  | optional (inner : Ty)
  | array (item : Ty)
deriving DecidableEq, Repr, Inhabited

namespace Ty

def isOptional : Ty → Bool
  | optional _ => true
  | _ => false

/-- The message that a value contains whole, with no optional or array in between. -/
def plainMessage? : Ty → Option String
  | message n => some n
  | _ => none

def descriptor : Ty → Json
  | scalar s => .obj [("scalar", s.name)]
  | message n => .obj [("message", n)]
  | enum n => .obj [("enum", n)]
  | optional t => .obj [("optional", t.descriptor)]
  | array t => .obj [("array", t.descriptor)]

def ofDescriptor : Json → Except Failure Ty
  | .obj [(tag, v)] =>
    if tag = "scalar" then
      match Scalar.ofName? v.plainText with
      | some s => .ok (scalar s)
      | none => .error (.unknownScalar v.plainText)
    else if tag = "message" then .ok (message v.plainText)
    else if tag = "enum" then .ok (enum v.plainText)
    else if tag = "optional" then (ofDescriptor v).map optional
    else if tag = "array" then (ofDescriptor v).map array
    else .error (.unknownDescriptor tag)
  | v => .error (.malformedDescriptor v)

/-- A descriptor leads back to its type. -/
theorem ofDescriptor_descriptor (t : Ty) : ofDescriptor t.descriptor = .ok t := by
  induction t with
  | scalar s => simp [descriptor, ofDescriptor, Json.plainText, Scalar.ofName?_name]
  | message n => simp [descriptor, ofDescriptor, Json.plainText]
  | enum n => simp [descriptor, ofDescriptor, Json.plainText]
  | optional t ih => simp [descriptor, ofDescriptor, ih, Except.map]
  | array t ih => simp [descriptor, ofDescriptor, ih, Except.map]

end Ty

end FeltRelay.Schema
