import FeltRelay.Proofs.Cairo.Lexeme

/-!
# The declarations of a Cairo file

What a file declares, read from its lexemes: structs and enums with the words of the attribute in
front, each perhaps with one type parameter. Imports, constants and implementations are passed over.
-/

namespace FeltRelay.Cairo

/-- A type as it is written. -/
inductive TypeExpr where
  | unit
  | named (name : String)
  | generic (name : String) (argument : TypeExpr)
deriving DecidableEq, Repr

/-- A declared struct or enum. A variant without a type has the unit as its payload. -/
structure Item where
  attributes : List String
  isEnum : Bool
  name : String
  parameter : Option String
  members : List (String × TypeExpr)
deriving DecidableEq, Repr

/-- The type in front, and what follows it. -/
def typeExpr? : List Lexeme → Option (TypeExpr × List Lexeme)
  | .mark '(' :: .mark ')' :: rest => some (.unit, rest)
  | .word name :: .mark '<' :: rest =>
    match typeExpr? rest with
    | some (argument, .mark '>' :: rest) => some (.generic name argument, rest)
    | _ => none
  | .word name :: rest => some (.named name, rest)
  | _ => none

/-- Members up to the closing brace, each with a comma behind it, and what follows the brace. -/
def members? : Nat → List Lexeme → Option (List (String × TypeExpr) × List Lexeme)
  | 0, _ => none
  | _ + 1, .mark '\x7d' :: rest => some ([], rest)
  | fuel + 1, .word name :: .mark ',' :: rest =>
    (members? fuel rest).map fun r => ((name, .unit) :: r.1, r.2)
  | fuel + 1, .word name :: .mark ':' :: rest =>
    match typeExpr? rest with
    | some (t, .mark ',' :: rest) => (members? fuel rest).map fun r => ((name, t) :: r.1, r.2)
    | _ => none
  | _ + 1, _ => none

/-- The item behind `struct` or `enum`, and what follows it. -/
def item? (attributes : List String) (isEnum : Bool) : List Lexeme → Option (Item × List Lexeme)
  | .word name :: .mark '<' :: .word parameter :: .mark '>' :: .mark '\x7b' :: rest =>
    (members? rest.length rest).map fun r => (⟨attributes, isEnum, name, parameter, r.1⟩, r.2)
  | .word name :: .mark '\x7b' :: rest =>
    (members? rest.length rest).map fun r => (⟨attributes, isEnum, name, none, r.1⟩, r.2)
  | _ => none

/-- What follows the first of some marks. -/
def behind (c : Char) (ls : List Lexeme) : List Lexeme := (ls.dropWhile (· ≠ .mark c)).tail

/-- What follows the first body in braces. -/
def behindBody : Nat → List Lexeme → List Lexeme
  | _, [] => []
  | depth, l :: rest =>
    if l = .mark '\x7b' then behindBody (depth + 1) rest
    else if l = .mark '\x7d' then if depth ≤ 1 then rest else behindBody (depth - 1) rest
    else behindBody depth rest

/-- The words up to a mark. -/
def wordsUpTo (c : Char) (ls : List Lexeme) : List String :=
  (ls.takeWhile (· ≠ .mark c)).filterMap fun
    | .word s => some s
    | .mark _ => none

/-- The items of a file; `attributes` are the words of the attribute in front. -/
def items? : Nat → List String → List Lexeme → Option (List Item)
  | _, _, [] => some []
  | 0, _, _ => none
  | fuel + 1, _, .mark '#' :: rest => items? fuel (wordsUpTo ']' rest) (behind ']' rest)
  | fuel + 1, attributes, .word kind :: rest =>
    if kind = "struct" ∨ kind = "enum" then
      match item? attributes (kind = "enum") rest with
      | some (item, rest) => (items? fuel [] rest).map (item :: ·)
      | none => none
    else if kind = "impl" then items? fuel [] (behindBody 0 rest)
    else if kind = "use" ∨ kind = "const" then items? fuel [] (behind ';' rest)
    else none
  | _, _, _ => none

/-- The items that a text declares. -/
def declarations? (text : String) : Option (List Item) :=
  let ls := lexemes text
  items? ls.length [] ls

/-! ### What the reader finds -/

variable {ls rest : List Lexeme}

theorem behind_append {c : Char} (h : .mark c ∉ ls) : behind c (ls ++ .mark c :: rest) = rest := by
  have hall : ∀ l ∈ ls, decide (l ≠ .mark c) = true :=
    fun l hl => decide_eq_true fun heq => h (heq ▸ hl)
  rw [behind, List.dropWhile_append_of_pos hall, List.dropWhile_cons_of_neg (by simp),
    List.tail_cons]

theorem wordsUpTo_append {c : Char} (h : .mark c ∉ ls) :
    wordsUpTo c (ls ++ .mark c :: rest) = wordsUpTo c (ls ++ [.mark c]) := by
  have hall : ∀ l ∈ ls, decide (l ≠ .mark c) = true :=
    fun l hl => decide_eq_true fun heq => h (heq ▸ hl)
  rw [wordsUpTo, wordsUpTo, List.takeWhile_append_of_pos hall, List.takeWhile_append_of_pos hall,
    List.takeWhile_cons_of_neg (by simp), List.takeWhile_cons_of_neg (by simp)]

/-- Lexemes without braces do not change the depth. -/
theorem behindBody_append {depth : Nat} (h : ∀ l ∈ ls, l ≠ .mark '\x7b' ∧ l ≠ .mark '\x7d') :
    behindBody depth (ls ++ rest) = behindBody depth rest := by
  induction ls with
  | nil => rfl
  | cons l ls ih =>
    obtain ⟨hopen, hclose⟩ := h l (List.mem_cons_self ..)
    rw [List.cons_append, behindBody, if_neg hopen, if_neg hclose]
    exact ih fun l hl => h l (List.mem_cons_of_mem _ hl)

end FeltRelay.Cairo
