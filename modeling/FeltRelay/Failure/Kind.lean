/-!
# Kinds of failure

Every failure has a kind, and every kind a stable code in capitals. Kinds form families: each has
a wider kind above it, up to `bridge`.
-/

namespace FeltRelay.Failure

/-- What went wrong, coarsely. -/
inductive Kind where
  | bridge
  | schema | parse | unsupportedField | duplicateType | duplicateMember | unknownReference
  | selectorTooLong | duplicateSelector
  | lock | lockLoad | lockCorrupted | lockSerialization | schemaDrift
  | encode | typeMismatch | rangeOverflow | unknownVariant | emptyField
  | decode | truncated | invalidEnumIndex | elementOutOfRange | invalidPresence | trailingElements
  | routing | methodNotFound | serverNotConfigured
  | transport
  | protocol | malformedResponse | oracleRejected
  | outputFiles
  | config
  | dispatchFailed
deriving DecidableEq, Repr, Inhabited

namespace Kind

def code : Kind → String
  | bridge => "BRIDGE_ERROR"
  | schema => "SCHEMA_ERROR"
  | parse => "PARSE_ERROR"
  | unsupportedField => "UNSUPPORTED_FIELD_KIND"
  | duplicateType => "DUPLICATE_TYPE_NAME"
  | duplicateMember => "DUPLICATE_FIELD_NAME"
  | unknownReference => "UNKNOWN_TYPE_REFERENCE"
  | selectorTooLong => "SELECTOR_TOO_LONG"
  | duplicateSelector => "DUPLICATE_SELECTOR"
  | lock => "LOCK_ERROR"
  | lockLoad => "LOCK_LOAD_ERROR"
  | lockCorrupted => "LOCK_CORRUPTED"
  | lockSerialization => "LOCK_SERIALIZATION_ERROR"
  | schemaDrift => "SCHEMA_DRIFT"
  | encode => "ENCODE_ERROR"
  | typeMismatch => "TYPE_MISMATCH"
  | rangeOverflow => "RANGE_OVERFLOW"
  | unknownVariant => "UNKNOWN_ENUM_VARIANT"
  | emptyField => "EMPTY_FIELD"
  | decode => "DECODE_ERROR"
  | truncated => "TRUNCATED"
  | invalidEnumIndex => "INVALID_ENUM_INDEX"
  | elementOutOfRange => "ELEMENT_OUT_OF_RANGE"
  | invalidPresence => "INVALID_PRESENCE"
  | trailingElements => "TRAILING_ELEMENTS"
  | routing => "ROUTING_ERROR"
  | methodNotFound => "METHOD_NOT_FOUND"
  | serverNotConfigured => "SERVER_NOT_CONFIGURED"
  | transport => "TRANSPORT_ERROR"
  | protocol => "PROTOCOL_ERROR"
  | malformedResponse => "MALFORMED_RESPONSE"
  | oracleRejected => "ORACLE_REJECTED"
  | outputFiles => "CODEGEN_IO_ERROR"
  | config => "CONFIG_ERROR"
  | dispatchFailed => "DISPATCH_FAILED"

/-- The next wider kind. -/
def parent? : Kind → Option Kind
  | bridge => none
  | parse | unsupportedField | duplicateType | duplicateMember | unknownReference
  | selectorTooLong | duplicateSelector => some schema
  | lockLoad | lockCorrupted | lockSerialization | schemaDrift => some lock
  | typeMismatch | rangeOverflow | unknownVariant | emptyField => some encode
  | truncated | invalidEnumIndex | elementOutOfRange | invalidPresence | trailingElements =>
    some decode
  | methodNotFound | serverNotConfigured => some routing
  | malformedResponse | oracleRejected => some protocol
  | _ => some bridge

/-- The wider kinds, nearest first. No family is more than three deep. -/
def ancestors (k : Kind) : List Kind :=
  match k.parent? with
  | none => []
  | some p => p :: match p.parent? with
    | none => []
    | some q => [q]

/-- A kind belongs to a family if it is the family's kind or has it above it. -/
def isWithin (k family : Kind) : Bool := k == family || k.ancestors.contains family

/-- Ancestors end at the widest kind. -/
theorem ancestors_getLast (k : Kind) (h : k ≠ bridge) : k.ancestors.getLast? = some bridge := by
  cases k with
  | bridge => exact absurd rfl h
  | _ => rfl

end Kind

end FeltRelay.Failure
