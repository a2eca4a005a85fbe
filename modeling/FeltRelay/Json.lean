import FeltRelay.Entries

/-!
# JSON values

Integers of any size are kept apart from floating-point numbers. The members of an object keep
their order.
-/

namespace FeltRelay

inductive Json where
  | null
  | bool (b : Bool)
  | int (i : Int)
  | num (x : Float)
  | str (s : String)
  | arr (items : List Json)
  | obj (members : List (String × Json))
deriving Inhabited

namespace Json

instance : Coe String Json := ⟨.str⟩
instance : Coe Nat Json := ⟨fun n => .int n⟩
instance : Coe Int Json := ⟨.int⟩

def strings (texts : List String) : Json := .arr (texts.map .str)

def optional (text : Option String) : Json := (text.map Json.str).getD .null

/-- The members of an object; other values have none. -/
def members : Json → List (String × Json)
  | .obj ms => ms
  | _ => []

/-- The member of an object with a given name. -/
def member? (name : String) (v : Json) : Option Json := v.members.lookup name

mutual

/-- How many arrays and objects are nested in a value, itself included. -/
def depth : Json → Nat
  | .arr items => depthItems items + 1
  | .obj ms => depthMembers ms + 1
  | _ => 0

def depthItems : List Json → Nat
  | [] => 0
  | v :: rest => max (depth v) (depthItems rest)

def depthMembers : List (String × Json) → Nat
  | [] => 0
  | (_, v) :: rest => max (depth v) (depthMembers rest)

end

/-- Whether a value stands for nothing: null, false, zero, or without contents. -/
def isEmpty : Json → Bool
  | null | bool false | arr [] | obj [] => true
  | int i => i = 0
  | num x => x == 0.0
  | str s => s.isEmpty
  | _ => false

mutual

/-- Whether every number in a value has a text in JSON. -/
def isFinite : Json → Bool
  | .num x => x.isFinite
  | .arr items => itemsFinite items
  | .obj ms => membersFinite ms
  | _ => true

def itemsFinite : List Json → Bool
  | [] => true
  | v :: rest => isFinite v && itemsFinite rest

def membersFinite : List (String × Json) → Bool
  | [] => true
  | (_, v) :: rest => isFinite v && membersFinite rest

end

mutual

/-- The value with the members of every object in ascending order of their names. -/
def sorted : Json → Json
  | .arr items => .arr (sortedItems items)
  | .obj ms => .obj (Entries.sorted (sortedMembers ms))
  | v => v

def sortedItems : List Json → List Json
  | [] => []
  | v :: rest => sorted v :: sortedItems rest

/-- Member by member, order kept. -/
def sortedMembers : List (String × Json) → List (String × Json)
  | [] => []
  | (k, v) :: rest => (k, sorted v) :: sortedMembers rest

end

/-- What holds of an array if it holds of its items, and of an object if it holds of the values of
its members, holds of every value if it holds of the others. -/
@[elab_as_elim]
theorem induction {p : Json → Prop} (null : p .null) (bool : ∀ b, p (.bool b))
    (int : ∀ i, p (.int i)) (num : ∀ x, p (.num x)) (str : ∀ s, p (.str s))
    (arr : ∀ items, (∀ v ∈ items, p v) → p (.arr items))
    (obj : ∀ ms, (∀ e ∈ ms, p e.2) → p (.obj ms)) (v : Json) : p v :=
  @Json.rec p (fun items => ∀ v ∈ items, p v) (fun ms => ∀ e ∈ ms, p e.2) (fun e => p e.2)
    null bool int num str arr obj
    (fun _ h => absurd h List.not_mem_nil)
    (fun _ _ hv hrest => List.forall_mem_cons.2 ⟨hv, hrest⟩)
    (fun _ h => absurd h List.not_mem_nil)
    (fun _ _ he hrest => List.forall_mem_cons.2 ⟨he, hrest⟩)
    (fun _ _ hv => hv) v

/-- A member is shallower than its object. -/
theorem depth_lt_of_lookup {ms : List (String × Json)} {name : String} {v : Json}
    (h : ms.lookup name = some v) : v.depth < (Json.obj ms).depth := by
  have key : v.depth ≤ depthMembers ms := by
    induction ms with
    | nil => simp at h
    | cons e rest ih =>
      obtain ⟨k, w⟩ := e
      simp only [List.lookup_cons] at h
      split at h
      · cases h
        exact Nat.le_max_left ..
      · exact Nat.le_trans (ih h) (Nat.le_max_right ..)
  exact Nat.lt_succ_of_le key

/-- An item is shallower than its array. -/
theorem depth_lt_of_mem {items : List Json} {v : Json} (h : v ∈ items) :
    v.depth < (Json.arr items).depth := by
  have key : v.depth ≤ depthItems items := by
    induction items with
    | nil => simp at h
    | cons w rest ih =>
      rcases List.mem_cons.1 h with rfl | h
      · exact Nat.le_max_left ..
      · exact Nat.le_trans (ih h) (Nat.le_max_right ..)
  exact Nat.lt_succ_of_le key

end Json

end FeltRelay
