import FeltRelay.Proofs.Schema.Definitions.Taken
import Mathlib.Data.List.Basic

/-!
# Brackets in what is skipped

A statement is skipped up to a semicolon where brackets were closed as often as opened, or more
often. If no bracket is closed that was not opened within the statement, all of its brackets are
closed (`balanced_iff_of_skipStatement`).
-/

namespace FeltRelay.Schema.Definitions

inductive Bracket where
  | round | square | curly
deriving DecidableEq, Repr

namespace Token

def opens? (t : Token) : Option Bracket :=
  if t.text = "(" then some .round
  else if t.text = "[" then some .square
  else if t.text = "\x7b" then some .curly
  else none

def closes? (t : Token) : Option Bracket :=
  if t.text = ")" then some .round
  else if t.text = "]" then some .square
  else if t.text = "\x7d" then some .curly
  else none

/-- The open brackets behind a token, the innermost first. Only that one can be closed. -/
def unwind (stack : List Bracket) (t : Token) : Option (List Bracket) :=
  match t.opens? with
  | some b => some (b :: stack)
  | none =>
    match t.closes? with
    | none => some stack
    | some b =>
      match stack with
      | [] => none
      | top :: below => if top = b then some below else none

end Token

/-- The open brackets behind some tokens, if each that is closed is the innermost one then. -/
def unwind (stack : List Bracket) (ts : List Token) : Option (List Bracket) :=
  ts.foldlM Token.unwind stack

/-- All brackets that are opened are closed, and no others. -/
def Balanced (ts : List Token) : Prop := unwind [] ts = some []

instance (ts : List Token) : Decidable (Balanced ts) :=
  inferInstanceAs (Decidable (unwind [] ts = some []))

variable {stack stack' below : List Bracket} {t : Token} {ts us : List Token}

/-! ### Open brackets -/

theorem unwind_cons : unwind stack (t :: ts) = (t.unwind stack).bind (unwind · ts) := rfl

theorem unwind_append : unwind stack (ts ++ us) = (unwind stack ts).bind (unwind · us) :=
  List.foldlM_append ..

/-- A token opens a bracket, leaves them as they are, or closes the innermost one. -/
theorem Token.unwind_eq_some_iff : t.unwind stack = some stack' ↔
    (∃ b, t.opens? = some b ∧ stack' = b :: stack) ∨
      (t.opens? = none ∧ t.closes? = none ∧ stack' = stack) ∨
      ∃ b, t.opens? = none ∧ t.closes? = some b ∧ stack = b :: stack' := by
  unfold Token.unwind
  cases t.opens? with
  | some b => simp [eq_comm]
  | none =>
    cases t.closes? with
    | none => simp [eq_comm]
    | some b =>
      cases stack with
      | nil => simp
      | cons top below => simp

/-- Brackets that were open before stay open below. -/
theorem Token.unwind_below (h : t.unwind stack = some stack') (below : List Bracket) :
    t.unwind (stack ++ below) = some (stack' ++ below) := by
  rw [unwind_eq_some_iff] at h ⊢
  obtain ⟨b, hopen, rfl⟩ | ⟨hopen, hclose, rfl⟩ | ⟨b, hopen, hclose, rfl⟩ := h
  · exact .inl ⟨b, hopen, rfl⟩
  · exact .inr (.inl ⟨hopen, hclose, rfl⟩)
  · exact .inr (.inr ⟨b, hopen, hclose, rfl⟩)

theorem unwind_below (h : unwind stack ts = some stack') (below : List Bracket) :
    unwind (stack ++ below) ts = some (stack' ++ below) := by
  induction ts generalizing stack with
  | nil =>
    cases h
    rfl
  | cons t ts ih =>
    rw [unwind_cons] at h
    obtain ⟨mid, ht, hts⟩ := Option.bind_eq_some_iff.1 h
    rw [unwind_cons, Token.unwind_below ht below, Option.bind_some]
    exact ih hts

theorem Balanced.unwind (h : Balanced ts) (stack : List Bracket) :
    unwind stack ts = some stack :=
  unwind_below h stack

theorem Balanced.append (hts : Balanced ts) (hus : Balanced us) : Balanced (ts ++ us) := by
  unfold Balanced
  rw [unwind_append, hts, Option.bind_some]
  exact hus

/-! ### Counting brackets -/

theorem Token.turn_eq (t : Token) : t.turn = match t.opens?, t.closes? with
    | some _, _ => 1
    | none, some _ => -1
    | none, none => 0 := by
  unfold turn opens? closes?
  grind

theorem Token.length_of_unwind (h : t.unwind stack = some stack') :
    (stack'.length : Int) = stack.length + t.turn := by
  rw [t.turn_eq]
  obtain ⟨b, hopen, rfl⟩ | ⟨hopen, hclose, rfl⟩ | ⟨b, hopen, hclose, rfl⟩ :=
    unwind_eq_some_iff.1 h
  · rw [hopen, List.length_cons]
    dsimp only
    omega
  · rw [hopen, hclose]
    dsimp only
    omega
  · rw [hopen, hclose, List.length_cons]
    dsimp only
    omega

/-- How tokens change the number of open brackets. -/
def turns : List Token → Int
  | [] => 0
  | t :: ts => t.turn + turns ts

theorem length_of_unwind (h : unwind stack ts = some stack') :
    (stack'.length : Int) = stack.length + turns ts := by
  induction ts generalizing stack with
  | nil =>
    cases h
    simp [turns]
  | cons t ts ih =>
    rw [unwind_cons] at h
    obtain ⟨mid, ht, hts⟩ := Option.bind_eq_some_iff.1 h
    have hhead := Token.length_of_unwind ht
    have htail := ih hts
    rw [turns]
    omega

/-- A statement ends with a semicolon where its brackets were closed as often as opened, or more
often. -/
theorem Skips.exists_end {depth : Int} (h : Skips depth us) :
    ∃ stmt semicolon, us = stmt ++ [semicolon] ∧ semicolon.text = ";" ∧
      depth + turns stmt ≤ 0 := by
  induction h with
  | @stop depth t hend hdepth => exact ⟨[], t, rfl, hend, by simpa [turns] using hdepth⟩
  | @pass depth t us hgo rest ih =>
    obtain ⟨stmt, semicolon, rfl, hend, hsum⟩ := ih
    refine ⟨t :: stmt, semicolon, rfl, hend, ?_⟩
    rw [turns]
    omega

/-- What is skipped is balanced up to its semicolon if no bracket is closed in it that was not
opened in it. -/
theorem balanced_iff_of_skipStatement {c c' : Cursor} (h : skipStatement.run c = .ok ((), c')) :
    ∃ stmt semicolon, c.rest = stmt ++ semicolon :: c'.rest ∧ semicolon.text = ";" ∧
      (Balanced stmt ↔ (unwind [] stmt).isSome) := by
  obtain ⟨us, hus, hskips⟩ := takes_skipStatement c () c' h (Nat.le_refl _)
  obtain ⟨stmt, semicolon, rfl, hend, hsum⟩ := hskips.exists_end
  refine ⟨stmt, semicolon, by rw [hus, List.append_assoc]; rfl, hend, ?_⟩
  unfold Balanced
  cases hstack : unwind [] stmt with
  | none => simp
  | some stack =>
    have hlength := length_of_unwind hstack
    have hnil : stack = [] := by
      apply List.length_eq_zero_iff.1
      simp only [List.length_nil] at hlength
      omega
    simp [hnil]

end FeltRelay.Schema.Definitions
