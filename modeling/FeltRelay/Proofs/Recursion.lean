import FeltRelay.Failure
import Mathlib.Data.Prod.Lex
import Mathlib.Order.WellFounded

/-!
# Recursion

A recursive function is given by one step of it, in which the recursive calls are those of a
function that is handed in. It is well founded if the step makes no call but of a lower rank (`Terminates`).
A function that is bounded by a budget satisfies the equation of the step if its budget suffices for
every call that lies below (`Grounded.unfolds_of_budget`).
-/

namespace FeltRelay

/-- Ranks are compared by what is left of the input, then by height, then by size. -/
abbrev Rank := ℕ ×ₗ ℕ ×ₗ ℕ

def Rank.mk (rest height size : ℕ) : Rank := toLex (rest, toLex (height, size))

theorem Rank.lt_of_rest {rest rest' : ℕ} (h : rest < rest') (height height' size size' : ℕ) :
    Rank.mk rest height size < Rank.mk rest' height' size' :=
  Prod.Lex.toLex_lt_toLex.2 (.inl h)

theorem Rank.lt_of_height {rest rest' height height' : ℕ} (hrest : rest ≤ rest')
    (h : height < height') (size size' : ℕ) :
    Rank.mk rest height size < Rank.mk rest' height' size' := by
  rcases Nat.lt_or_eq_of_le hrest with hlt | rfl
  · exact lt_of_rest hlt ..
  · exact Prod.Lex.toLex_lt_toLex.2 (.inr ⟨rfl, Prod.Lex.toLex_lt_toLex.2 (.inl h)⟩)

theorem Rank.lt_of_size {rest rest' size size' : ℕ} (hrest : rest ≤ rest') (height : ℕ)
    (h : size < size') : Rank.mk rest height size < Rank.mk rest' height size' := by
  rcases Nat.lt_or_eq_of_le hrest with hlt | rfl
  · exact lt_of_rest hlt ..
  · exact Prod.Lex.toLex_lt_toLex.2 (.inr ⟨rfl, Prod.Lex.toLex_lt_toLex.2 (.inr ⟨rfl, h⟩)⟩)

section

variable {C α : Type}

/-- A step makes a call, the other calls giving what they give: whatever goes wrong in the call goes
wrong in the step. -/
def Calls (step : (C → Except Failure α) → C → Except Failure α) (self : C → Except Failure α)
    (c inner : C) : Prop :=
  ∀ other f, (∀ d, d ≠ inner → other d = self d) → other inner = .error f → step other c = .error f

/-- A function is what a recursion computes, for the calls that it is meant for. The recursion ends,
as each call that is made has a lower rank, and no other function satisfies its equation. -/
structure Terminates (step : (C → Except Failure α) → C → Except Failure α)
    (run : C → Except Failure α) (Valid : C → Prop) (rank : C → Rank) : Prop where
  unfolds : ∀ c, Valid c → run c = step run c
  descends : ∀ c inner, Valid c → Calls step run c inner → Valid inner ∧ rank inner < rank c
  determined : ∀ other, (∀ c, Valid c → other c = step other c) → ∀ c, Valid c → other c = run c

/-- What a step does depends on the calls below alone, up to results that are alike. -/
structure Grounded (step : (C → Except Failure α) → C → Except Failure α) (Valid : C → Prop)
    (Below : C → C → Prop) (rank : C → Rank)
    (Alike : C → Except Failure α → Except Failure α → Prop) : Prop where
  valid : ∀ {inner c}, Valid c → Below inner c → Valid inner
  lower : ∀ {inner c}, Valid c → Below inner c → rank inner < rank c
  eq : ∀ {c r r'}, Alike c r r' → r = r'
  step : ∀ {self self' c}, Valid c →
    (∀ inner, Below inner c → Alike inner (self inner) (self' inner)) →
    Alike c (step self c) (step self' c)

namespace Grounded

variable {step : (C → Except Failure α) → C → Except Failure α} {Valid : C → Prop}
  {Below : C → C → Prop} {rank : C → Rank} {Alike : C → Except Failure α → Except Failure α → Prop}

/-- What holds of a call if it holds of the calls below holds of every call. -/
theorem induction (h : Grounded step Valid Below rank Alike) {P : C → Prop}
    (hstep : ∀ c, Valid c → (∀ inner, Below inner c → P inner) → P c) {c : C} (hc : Valid c) :
    P c := by
  -- A call below has a lower rank, and ranks are well founded.
  induction hr : rank c using WellFoundedLT.induction generalizing c with
  | ind r ih =>
    subst hr
    refine hstep c hc fun inner hinner => ?_
    exact ih _ (h.lower hc hinner) (h.valid hc hinner) rfl

/-- The equation of the step has one solution. -/
theorem alike_of_unfolds (h : Grounded step Valid Below rank Alike) {f g : C → Except Failure α}
    (hf : ∀ c, Valid c → f c = step f c) (hg : ∀ c, Valid c → g c = step g c) {c : C}
    (hc : Valid c) : Alike c (f c) (g c) := by
  refine h.induction (P := fun c => Alike c (f c) (g c)) (fun c hc ih => ?_) hc
  rw [hf c hc, hg c hc]
  exact h.step hc ih

theorem exists_unfolds (h : Grounded step Valid Below rank Alike) :
    ∃ f : C → Except Failure α, ∀ c, Valid c → f c = step f c := by
  classical
  -- The step looks at calls below alone, so that any failure will do for those of no lower rank.
  let f : C → Except Failure α := (InvImage.wf rank wellFounded_lt).fix fun c lower =>
    step (fun d => if hd : rank d < rank c then lower d hd else
      .error ⟨.decode, "", .nowhere, []⟩) c
  have hf : ∀ c, f c = step (fun d => if rank d < rank c then f d else
      .error ⟨.decode, "", .nowhere, []⟩) c := fun c => WellFounded.fix_eq _ _ c
  have halike : ∀ {c}, Valid c → Alike c (f c) (f c) := by
    intro c hc
    refine h.induction (P := fun c => Alike c (f c) (f c)) (fun c hc ih => ?_) hc
    rw [hf c]
    refine h.step hc fun d hd => ?_
    rw [if_pos (h.lower hc hd)]
    exact ih d hd
  refine ⟨f, fun c hc => (hf c).trans (h.eq (h.step hc fun d hd => ?_))⟩
  rw [if_pos (h.lower hc hd)]
  exact halike (h.valid hc hd)

/-- A call that is made lies below: the step does not notice any other one. -/
theorem below_of_calls (h : Grounded step Valid Below rank Alike) {run : C → Except Failure α}
    (hrun : ∀ c, Valid c → run c = step run c) {c inner : C} (hc : Valid c)
    (hcalls : Calls step run c inner) : Below inner c := by
  classical
  by_contra hbelow
  -- The step would not notice how the call fails, and so it would fail in every way.
  have hsame : ∀ f, run c = .error f := by
    intro f
    let other := Function.update run inner (.error f)
    have hother : ∀ d, d ≠ inner → other d = run d := fun d hd => Function.update_of_ne hd _ _
    have hstep : Alike c (step run c) (step other c) := by
      refine h.step hc fun d hd => ?_
      have hne : d ≠ inner := fun he => hbelow (he ▸ hd)
      rw [hother d hne]
      exact h.alike_of_unfolds hrun hrun (h.valid hc hd)
    rw [hrun c hc, h.eq hstep]
    exact hcalls other f hother (Function.update_self ..)
  have heq := (hsame ⟨.decode, "", .nowhere, []⟩).symm.trans (hsame ⟨.parse, "", .nowhere, []⟩)
  cases heq

theorem terminates (h : Grounded step Valid Below rank Alike) {run : C → Except Failure α}
    (hrun : ∀ c, Valid c → run c = step run c) : Terminates step run Valid rank where
  unfolds := hrun
  descends := by
    intro c inner hc hcalls
    have hbelow := h.below_of_calls hrun hc hcalls
    exact ⟨h.valid hc hbelow, h.lower hc hbelow⟩
  determined := by
    intro other hother c hc
    exact h.eq (h.alike_of_unfolds hother hrun hc)

/-- Functions that each have a budget. One whose budget suffices for a call takes a step to some
whose budget suffices for the calls below. -/
def Unrolls (step : (C → Except Failure α) → C → Except Failure α) (Valid : C → Prop)
    (Below : C → C → Prop) (need : C → ℕ) (family : ℕ → C → Except Failure α) : Prop :=
  ∀ budget c, Valid c → need c ≤ budget → ∃ budget', family budget c = step (family budget') c ∧
    ∀ inner, Below inner c → need inner ≤ budget'

/-- Budgets that suffice make no difference. -/
theorem alike_of_budget (h : Grounded step Valid Below rank Alike) {need : C → ℕ}
    {family : ℕ → C → Except Failure α} (hfamily : Unrolls step Valid Below need family)
    {b b' : ℕ} {c : C} (hc : Valid c) (hb : need c ≤ b) (hb' : need c ≤ b') :
    Alike c (family b c) (family b' c) := by
  refine h.induction (P := fun c => ∀ b b', need c ≤ b → need c ≤ b' →
    Alike c (family b c) (family b' c)) (fun c hc ih b b' hb hb' => ?_) hc b b' hb hb'
  obtain ⟨b₁, hstep, hbelow⟩ := hfamily b c hc hb
  obtain ⟨b₁', hstep', hbelow'⟩ := hfamily b' c hc hb'
  rw [hstep, hstep']
  exact h.step hc fun inner hinner =>
    ih inner hinner _ _ (hbelow inner hinner) (hbelow' inner hinner)

/-- With a budget that suffices for each call, the functions satisfy the equation of the step. -/
theorem unfolds_of_budget (h : Grounded step Valid Below rank Alike) {need : C → ℕ}
    {family : ℕ → C → Except Failure α} (hfamily : Unrolls step Valid Below need family)
    (bound : C → ℕ) (hbound : ∀ c, Valid c → need c ≤ bound c) (c : C) (hc : Valid c) :
    family (bound c) c = step (fun inner => family (bound inner) inner) c := by
  obtain ⟨budget, hstep, hbelow⟩ := hfamily (bound c) c hc (hbound c hc)
  rw [hstep]
  refine h.eq (h.step hc fun inner hinner => ?_)
  have hinner' := h.valid hc hinner
  exact h.alike_of_budget hfamily hinner' (hbelow inner hinner) (hbound inner hinner')

end Grounded

end

end FeltRelay
