import FeltRelay.Codec.Input
import FeltRelay.Proofs.Result

/-!
# What a decoder reads

A decoder reads a value from some items if it gives the value wherever the items stand and whatever
follows them (`Reads`). What was read in fact is the difference of two inputs (`Consumed`).
-/

namespace FeltRelay.Codec

variable {α β : Type}

/-- A decoder gives a value for some items, wherever they stand and whatever follows. -/
def Reads (d : Decoder α) (items : List Json) (a : α) : Prop :=
  ∀ rest position, d.run ⟨items ++ rest, position⟩ = .ok (a, ⟨rest, position + items.length⟩)

namespace Reads

theorem pure (a : α) : Reads (Pure.pure a : Decoder α) [] a := fun _ _ => rfl

theorem bind {x : Decoder α} {f : α → Decoder β} {xs ys : List Json} {a : α} {b : β}
    (hx : Reads x xs a) (hf : Reads (f a) ys b) : Reads (x >>= f) (xs ++ ys) b := by
  intro rest position
  rw [StateT.run_bind, List.append_assoc, hx, ok_bind, hf, List.length_append, Nat.add_assoc]

/-- Looking at the input reads nothing. What is found there begins with the items. -/
theorem get_bind {f : Input → Decoder α} {items : List Json} {a : α}
    (h : ∀ s : Input, items <+: s.rest → Reads (f s) items a) : Reads (get >>= f) items a := by
  intro rest position
  exact h ⟨items ++ rest, position⟩ (List.prefix_append ..) rest position

/-- A step that does not depend on the input reads nothing. -/
theorem liftM_bind {x : Except Failure α} {f : α → Decoder β} {items : List Json} {a : α} {b : β}
    (hx : x = .ok a) (hf : Reads (f a) items b) : Reads (liftM x >>= f) items b := by
  intro rest position
  rw [StateT.run_bind, run_liftM, hx]
  exact hf rest position

/-- A step behind all items. -/
theorem bind_nil {x : Decoder α} {f : α → Decoder β} {items : List Json} {a : α} {b : β}
    (hx : Reads x items a) (hf : Reads (f a) [] b) : Reads (x >>= f) items b := by
  have hb := hx.bind hf
  rwa [List.append_nil] at hb

theorem liftM {x : Except Failure α} {a : α} (hx : x = .ok a) :
    Reads (liftM x : Decoder α) [] a := by
  intro rest position
  rw [run_liftM, hx]
  rfl

/-- A value that is read some times over. -/
theorem readTimes {d : Decoder Json} {parts : List (List Json)} {vs : List Json}
    (h : List.Forall₂ (Reads d) parts vs) :
    Reads (Codec.readTimes d vs.length) parts.flatten vs := by
  induction h with
  | nil => exact Reads.pure []
  | cons hhead _ ih => exact hhead.bind (ih.bind_nil (Reads.pure _))

end Reads

/-- How many items follow. -/
theorem length_extended (items : List Json) {suf : List Json} (h : suf ≠ []) :
    items.length ≠ (items ++ suf).length ∧
      (items ++ suf).length - items.length = suf.length := by
  have hpos := List.length_pos_iff.2 h
  rw [List.length_append]
  omega

/-- What is left of an input after some items. -/
structure Consumed (s : Input) (items : List Json) (s' : Input) : Prop where
  rest : s.rest = items ++ s'.rest
  position : s'.position = s.position + items.length

namespace Consumed

variable {s s₁ s₂ : Input} {xs ys : List Json}

theorem refl (s : Input) : Consumed s [] s := ⟨rfl, rfl⟩

theorem trans (h₁ : Consumed s xs s₁) (h₂ : Consumed s₁ ys s₂) : Consumed s (xs ++ ys) s₂ := by
  refine ⟨?_, ?_⟩
  · rw [h₁.rest, h₂.rest, List.append_assoc]
  · rw [h₂.position, h₁.position, List.length_append, Nat.add_assoc]

end Consumed

end FeltRelay.Codec
