import FeltRelay.Proofs.Cairo.Reader
import FeltRelay.Proofs.Cairo.Value
import FeltRelay.Proofs.Codec.ByteArray

/-!
# The derived serialisation

How the VM serialises a value by what a file declares. The members of a struct stand back to back, a
variant is its index and its payload, an array its length and its items, a byte array its words of
31 bytes, an integer its residue. Only a type that derives `Serde` has a serialisation.
-/

namespace FeltRelay.Cairo

open FeltRelay.Codec FeltRelay.Schema

/-! ### Byte arrays -/

/-- Full words of 31 bytes, and the number that the bytes behind them spell. -/
structure Words where
  full : List Nat := []
  pending : Nat := 0
  length : Nat := 0

def Words.push (a : Words) (b : UInt8) : Words :=
  let pending := a.pending * 256 + b.toNat
  if a.length + 1 = 31 then { full := a.full ++ [pending] }
  else ⟨a.full, pending, a.length + 1⟩

/-- The byte array that bytes are appended to one by one. -/
def Words.ofBytes (bytes : List UInt8) : Words := bytes.foldl Words.push {}

def Words.elements (a : Words) : List Int :=
  (a.full.length :: a.full ++ [a.pending, a.length]).map Int.ofNat

theorem Words.ofBytes_concat (bytes : List UInt8) (b : UInt8) :
    Words.ofBytes (bytes ++ [b]) = (Words.ofBytes bytes).push b := by
  rw [Words.ofBytes, List.foldl_append]
  rfl

/-- What bytes have been appended stands in full words, but for the last ones. -/
theorem Words.ofBytes_eq (bytes : List UInt8) :
    Words.ofBytes bytes = ⟨fullWords (bytes.length / wordBytes) bytes,
      wordValue (bytes.drop (bytes.length / wordBytes * wordBytes)), bytes.length % wordBytes⟩ := by
  induction bytes using List.reverseRecOn with
  | nil => rfl
  | append_singleton bytes b ih =>
    obtain ⟨count, hcount⟩ : ∃ count, bytes.length / wordBytes = count := ⟨_, rfl⟩
    obtain ⟨pending, hpending⟩ : ∃ pending, bytes.length % wordBytes = pending := ⟨_, rfl⟩
    rw [hcount, hpending] at ih
    simp only [wordBytes] at hcount hpending
    have hle : count * wordBytes ≤ bytes.length := by
      simp only [wordBytes]
      omega
    have hdrop : (bytes ++ [b]).drop (count * wordBytes) = bytes.drop (count * wordBytes) ++ [b] :=
      List.drop_append_of_le_length hle
    rw [Words.ofBytes_concat, ih, Words.push, List.length_append, List.length_singleton]
    split
    · -- The byte fills a word.
      rename_i hfull
      dsimp only at hfull
      have hlen : (bytes ++ [b]).length = (count + 1) * wordBytes := by
        simp only [List.length_append, List.length_singleton, wordBytes]
        omega
      have htake : (bytes.drop (count * wordBytes) ++ [b]).length ≤ wordBytes := by
        simp only [List.length_append, List.length_drop, List.length_singleton, wordBytes]
        omega
      have hcount' : (bytes.length + 1) / wordBytes = count + 1 := by
        simp only [wordBytes]
        omega
      have hpending' : (bytes.length + 1) % wordBytes = 0 := by
        simp only [wordBytes]
        omega
      rw [hcount', hpending', ← hlen, List.drop_length, fullWords_concat, hdrop,
        List.take_of_length_le htake, wordValue_concat, fullWords_append _ _ _ hle]
      rfl
    · rename_i hpart
      dsimp only at hpart
      have hcount' : (bytes.length + 1) / wordBytes = count := by
        simp only [wordBytes]
        omega
      have hpending' : (bytes.length + 1) % wordBytes = pending + 1 := by
        simp only [wordBytes]
        omega
      rw [hcount', hpending', hdrop, wordValue_concat, fullWords_append _ _ _ hle]

/-- A byte array serialises to the elements of its bytes. -/
theorem Words.elements_ofBytes (bytes : List UInt8) :
    (Words.ofBytes bytes).elements = (packBytes bytes).map Int.ofNat := by
  have hpending : (bytes.drop (bytes.length / wordBytes * wordBytes)).length =
      bytes.length % wordBytes := by
    have hdiv := Nat.div_add_mod' bytes.length wordBytes
    rw [List.length_drop]
    omega
  rw [Words.ofBytes_eq, Words.elements, packBytes, length_fullWords, hpending]

/-! ### Types -/

/-- What a type is made of. -/
inductive Shape where
  | unit
  | bool
  | byteArray
  | integer (least greatest : Int)
  | array (item : TypeExpr)
  | struct (members : List (String × TypeExpr))
  | enum (variants : List (String × TypeExpr))
deriving DecidableEq

def Shape.unsigned (bits : Nat) : Shape := .integer 0 (2 ^ bits - 1)

def Shape.signed (bits : Nat) : Shape := .integer (-2 ^ (bits - 1)) (2 ^ (bits - 1) - 1)

/-- The types that need no declaration, other than arrays. -/
def builtins : List (String × Shape) :=
  [("bool", .bool), ("ByteArray", .byteArray), ("felt252", .integer 0 (starkPrime - 1)),
    ("u8", .unsigned 8), ("u16", .unsigned 16), ("u32", .unsigned 32), ("u64", .unsigned 64),
    ("u128", .unsigned 128), ("i8", .signed 8), ("i16", .signed 16), ("i32", .signed 32),
    ("i64", .signed 64), ("i128", .signed 128)]

/-- The names that are taken without a declaration of the model. -/
def reserved : List String := "Maybe" :: "Array" :: builtins.map (·.1)

/-- A type with an argument for a parameter. -/
def TypeExpr.subst (parameter : String) (argument : TypeExpr) : TypeExpr → TypeExpr
  | .unit => .unit
  | .named name => if name = parameter then argument else .named name
  | .generic name t => .generic name (subst parameter argument t)

def Item.shape (i : Item) (instantiate : TypeExpr → TypeExpr) : Shape :=
  let members := i.members.map fun m => (m.1, instantiate m.2)
  if i.isEnum then .enum members else .struct members

/-- The shape of an item that derives `Serde`, with an argument if it has a parameter. -/
def Item.shape? (i : Item) (argument : Option TypeExpr) : Option Shape :=
  if ¬(i.attributes.contains "derive" ∧ i.attributes.contains "Serde") then none
  else match i.parameter, argument with
    | none, none => some (i.shape id)
    | some parameter, some t => some (i.shape (TypeExpr.subst parameter t))
    | _, _ => none

/-- The shape of a type. What is declared hides what is built in. -/
def shape? (items : List Item) : TypeExpr → Option Shape
  | .unit => some .unit
  | .named name =>
    match items.find? (·.name = name) with
    | some i => i.shape? none
    | none => builtins.lookup name
  | .generic name argument =>
    match items.find? (·.name = name) with
    | some i => i.shape? (some argument)
    | none => if name = "Array" then some (.array argument) else none

section Shape

variable {items : List Item} {i : Item} {name : String}

theorem shape?_named (h : items.find? (·.name = name) = some i) :
    shape? items (.named name) = i.shape? none := by
  rw [shape?, h]

theorem shape?_generic (h : items.find? (·.name = name) = some i) (t : TypeExpr) :
    shape? items (.generic name t) = i.shape? (some t) := by
  rw [shape?, h]

theorem shape?_builtin (h : items.find? (·.name = name) = none) :
    shape? items (.named name) = builtins.lookup name := by
  rw [shape?, h]

theorem shape?_array (h : items.find? (·.name = "Array") = none) (t : TypeExpr) :
    shape? items (.generic "Array" t) = some (.array t) := by
  rw [shape?, h]
  rfl

end Shape

/-! ### Values -/

mutual

/-- The elements of a value of a type. -/
def serialise (items : List Item) : TypeExpr → Value → Option (List Int)
  | t, .unit => if shape? items t = some .unit then some [] else none
  | t, .bool b => if shape? items t = some .bool then some [if b then 1 else 0] else none
  | t, .bytes bytes =>
    if shape? items t = some .byteArray then some (Words.ofBytes bytes).elements else none
  | t, .int i =>
    match shape? items t with
    | some (.integer least greatest) =>
      if least ≤ i ∧ i ≤ greatest then some [i % starkPrime] else none
    | _ => none
  | t, .array vs =>
    match shape? items t with
    | some (.array u) => (serialiseAll items u vs).map ((vs.length : Int) :: ·)
    | _ => none
  | t, .struct ms =>
    match shape? items t with
    | some (.struct members) => serialiseMembers items members ms
    | _ => none
  | t, .variant name payload =>
    match shape? items t with
    | some (.enum variants) =>
      match variants.findIdx? (·.1 = name), variants.find? (·.1 = name) with
      | some i, some (_, u) => (serialise items u payload).map ((i : Int) :: ·)
      | _, _ => none
    | _ => none

/-- Items of a type, one after the other. -/
def serialiseAll (items : List Item) : TypeExpr → List Value → Option (List Int)
  | _, [] => some []
  | t, v :: vs => do
    let xs ← serialise items t v
    let ys ← serialiseAll items t vs
    return xs ++ ys

/-- Members, each under its name. -/
def serialiseMembers (items : List Item) :
    List (String × TypeExpr) → List (String × Value) → Option (List Int)
  | [], [] => some []
  | (name, t) :: members, (name', v) :: vs =>
    if name = name' then do
      let xs ← serialise items t v
      let ys ← serialiseMembers items members vs
      return xs ++ ys
    else none
  | _, _ => none

end

theorem serialise_unit (items : List Item) : serialise items .unit .unit = some [] := by
  rw [serialise, shape?, if_pos rfl]

end FeltRelay.Cairo
