import FeltRelay.Decimal.Layout
import Mathlib.Order.Basic

/-!
# Comparisons of floating-point numbers

Two numbers are in order, one way or the other (`not_le_iff`, `not_lt_iff`). What is no number is in
no comparison, and does not come from reading digits.
-/

namespace FeltRelay.Decimal

open Float.Model (UnpackedFloat Format)
open Float.Model.UnpackedFloat (Sign packComponents unpackMantissa_packComponents
  unpackExponent_packComponents roundWithAccuracy)

variable {x y : Float} {spec : Format}

/-! ### What is a number -/

theorem isNaN_packComponents {s : Sign} {e : BitVec spec.exponentBits}
    {m : BitVec spec.mantissaBitsWithoutImplicit} (h : e ≠ -1#_ ∨ m = 0#_) :
    (UnpackedFloat.unpack spec (packComponents spec s e m)).isNaN = false := by
  unfold UnpackedFloat.unpack
  by_cases he : UnpackedFloat.unpackExponent (packComponents spec s e m) = -1#_
  · rw [unpackExponent_packComponents] at he
    have hm := h.resolve_left (not_not.2 he)
    rw [if_pos (unpackExponent_packComponents.trans he),
      if_pos (unpackMantissa_packComponents.trans hm)]
    rfl
  rw [if_neg he]
  by_cases hzero : UnpackedFloat.unpackExponent (packComponents spec s e m) = 0#_
  · rw [if_pos hzero]
    by_cases hm : UnpackedFloat.unpackMantissa (packComponents spec s e m) = 0#_
    · rw [dif_pos hm]
      rfl
    · rw [dif_neg hm]
      rfl
  · rw [if_neg hzero]
    rfl

theorem isNaN_unpack_pack (u : UnpackedFloat) :
    (UnpackedFloat.unpack .binary64 (UnpackedFloat.pack .binary64 u)).isNaN = u.isNaN := by
  fun_cases UnpackedFloat.pack with
  | case1 => rfl
  | case2 s => exact isNaN_packComponents (.inr rfl)
  | case3 s => exact isNaN_packComponents (.inr rfl)
  | case4 s m e hm biased h => exact isNaN_packComponents (.inr rfl)
  | case5 s m e hm bits biased hsmall hbits =>
    -- the exponent of all ones is left to infinity
    refine isNaN_packComponents (.inl ?_)
    intro h
    have hnat := congrArg BitVec.toNat h
    simp at hnat hsmall
    omega
  | case6 s m e hm bits biased hsmall hbits => exact isNaN_packComponents (.inl (by decide))

theorem isNaN_ofModel (u : UnpackedFloat) :
    (Float.ofModel (Float.Model.pack u)).isNaN = u.isNaN := isNaN_unpack_pack u

theorem isNaN_roundWithAccuracy {s : Sign} {m : Nat} {e : Int} {a} :
    (roundWithAccuracy spec s m e a).isNaN = false := by
  fun_cases roundWithAccuracy <;> rfl

theorem isNaN_mul_finite {u : UnpackedFloat} {s : Sign} {m : Nat} {e : Int} {h : 0 < m}
    (hu : u.isNaN = false) : (UnpackedFloat.mul spec u (.finite s m e h)).isNaN = false := by
  cases u with
  | notANumber => cases hu
  | infinity | zero => rfl
  | finite => exact isNaN_roundWithAccuracy

theorem isNaN_div_finite {u : UnpackedFloat} {s : Sign} {m : Nat} {e : Int} {h : 0 < m}
    (hu : u.isNaN = false) : (UnpackedFloat.div spec u (.finite s m e h)).isNaN = false := by
  cases u with
  | notANumber => cases hu
  | infinity | zero => rfl
  | finite => exact isNaN_roundWithAccuracy

theorem exists_finite (hy : y.isFinite = true) (hzero : (y == 0.0) = false) :
    ∃ s m e h, y.toModel.unpack = .finite s m e h := by
  change y.toModel.unpack.isFinite = true at hy
  change y.toModel.unpack.beq (Float.toModel 0.0).unpack = false at hzero
  cases hu : y.toModel.unpack with
  | infinity s => rw [hu] at hy; cases hy
  | notANumber => rw [hu] at hy; cases hy
  | zero s => rw [hu] at hzero; cases hzero
  | finite s m e h => exact ⟨s, m, e, h, rfl⟩

theorem isNaN_mul (hx : x.isNaN = false) (hy : y.isFinite = true) (hzero : (y == 0.0) = false) :
    (x * y).isNaN = false := by
  obtain ⟨s, m, e, h, hu⟩ := exists_finite hy hzero
  refine (isNaN_ofModel _).trans ?_
  rw [hu]
  exact isNaN_mul_finite hx

theorem isNaN_div (hx : x.isNaN = false) (hy : y.isFinite = true) (hzero : (y == 0.0) = false) :
    (x / y).isNaN = false := by
  obtain ⟨s, m, e, h, hu⟩ := exists_finite hy hzero
  refine (isNaN_ofModel _).trans ?_
  rw [hu]
  exact isNaN_div_finite hx

theorem isNaN_neg (hx : x.isNaN = false) : (-x).isNaN = false := by
  refine (isNaN_ofModel _).trans ?_
  change x.toModel.unpack.isNaN = false at hx
  cases hu : x.toModel.unpack with
  | notANumber => rw [hu] at hx; cases hx
  | _ => rfl

/-! ### What is read -/

theorem isNaN_toFloat (n : UInt64) : n.toFloat.isNaN = false := by
  refine (isNaN_ofModel _).trans ?_
  unfold UnpackedFloat.ofUInt64 UnpackedFloat.ofNat UnpackedFloat.ofInt UnpackedFloat.normalize
  split
  · exact isNaN_roundWithAccuracy
  · rfl
  · exact isNaN_roundWithAccuracy

theorem finite_of_mem_powers : ∀ p ∈ Float.exactlyRepresentablePowersOfTen.toList,
    p.isFinite = true ∧ (p == 0.0) = false := by
  decide +kernel

theorem isNaN_scientific (m : Nat) (e : Int) :
    (UnpackedFloat.ofScientific .binary64 m e).isNaN = false := by
  fun_cases UnpackedFloat.ofScientific with
  | case1 | case2 | case3 => rfl
  | case4 | case5 => exact isNaN_roundWithAccuracy

theorem isNaN_ofScientific (m : Nat) (s : Bool) (e : Nat) :
    (Float.ofScientific m s e).isNaN = false := by
  unfold Float.ofScientific
  split
  · obtain ⟨hfinite, hzero⟩ := finite_of_mem_powers _ (Array.getElem_mem_toList _)
    dsimp only
    split
    · exact isNaN_div (isNaN_toFloat _) hfinite hzero
    · exact isNaN_mul (isNaN_toFloat _) hfinite hzero
  · exact (isNaN_ofModel _).trans (isNaN_scientific _ _)

theorem isNaN_read (negative : Bool) (digits : Nat) (exponent : Int) :
    (read negative digits exponent).isNaN = false := by
  have hsize : ∀ size : Float, size.isNaN = false →
      (if negative then -size else size).isNaN = false := by
    intro size h
    split
    · exact isNaN_neg h
    · exact h
  unfold read
  apply hsize
  split
  · rfl
  split
  · rfl
  · exact isNaN_ofScientific _ _ _

theorem isNaN_of_ofInt? {i : Int} (h : ofInt? i = some x) : x.isNaN = false := by
  unfold ofInt? at h
  dsimp only at h
  split at h
  · cases h
  · cases h
    exact isNaN_read _ _ _

/-! ### Order -/

theorem swap_compare_then (e f : Int) (m n : Nat) :
    ((compare e f).then (compare m n)).swap = (compare f e).then (compare n m) := by
  rw [Ordering.swap_then, ← Std.OrientedCmp.eq_swap, ← Std.OrientedCmp.eq_swap]

theorem compare_swap (a b : UnpackedFloat) : b.compare a = (a.compare b).map Ordering.swap := by
  cases a with
  | notANumber => cases b <;> rfl
  | infinity s => cases s <;> cases b with
    | infinity t => cases t <;> rfl
    | _ => rfl
  | zero s => cases b with
    | infinity t => cases t <;> rfl
    | finite t n f k => cases t <;> rfl
    | _ => rfl
  | finite s m e h => cases b with
    | infinity t => cases s <;> cases t <;> rfl
    | finite t n f k =>
      have hflip := (swap_compare_then e f m n).symm
      cases s <;> cases t
      · exact congrArg (fun o => some o.swap) hflip
      · rfl
      · rfl
      · exact congrArg some hflip
    | _ => cases s <;> rfl

theorem compare_isSome {a b : UnpackedFloat} (ha : a.isNaN = false) (hb : b.isNaN = false) :
    (a.compare b).isSome = true := by
  cases a with
  | notANumber => cases ha
  | infinity s => cases s <;> cases b with
    | notANumber => cases hb
    | _ => rfl
  | zero s => cases b with
    | notANumber => cases hb
    | infinity t => cases t <;> rfl
    | finite t n f k => cases t <;> rfl
    | _ => rfl
  | finite s m e h => cases s <;> cases b with
    | notANumber => cases hb
    | infinity t => cases t <;> rfl
    | finite t n f k => cases t <;> rfl
    | _ => rfl

/-- How two numbers compare, if both are numbers. -/
def order? (x y : Float) : Option Ordering := x.toModel.unpack.compare y.toModel.unpack

theorem le_iff_order : x ≤ y ↔ (order? x y).any (·.isLE) = true :=
  decide_eq_true_iff (p := (order? x y).any (·.isLE) = true)

theorem lt_iff_order : x < y ↔ (order? x y == some .lt) = true :=
  decide_eq_true_iff (p := (order? x y == some .lt) = true)

theorem order?_swap (x y : Float) : order? y x = (order? x y).map Ordering.swap := compare_swap _ _

theorem order?_isSome (hx : x.isNaN = false) (hy : y.isNaN = false) :
    (order? x y).isSome = true := compare_isSome hx hy

theorem order?_of_isNaN (hx : x.isNaN = true) : order? x y = none := by
  change x.toModel.unpack.isNaN = true at hx
  unfold order?
  cases hu : x.toModel.unpack with
  | notANumber => rfl
  | _ => rw [hu] at hx; cases hx

theorem not_le_iff (hx : x.isNaN = false) (hy : y.isNaN = false) : ¬x ≤ y ↔ y < x := by
  obtain ⟨o, ho⟩ := Option.isSome_iff_exists.1 (order?_isSome hx hy)
  rw [le_iff_order, lt_iff_order, order?_swap x, ho]
  cases o <;> decide

theorem not_lt_iff (hx : x.isNaN = false) (hy : y.isNaN = false) : ¬x < y ↔ y ≤ x := by
  obtain ⟨o, ho⟩ := Option.isSome_iff_exists.1 (order?_isSome hx hy)
  rw [le_iff_order, lt_iff_order, order?_swap x, ho]
  cases o <;> decide

theorem not_gt_of_isNaN (hx : x.isNaN = true) : ¬y < x := by
  rw [lt_iff_order, order?_swap x, order?_of_isNaN hx]
  decide

theorem not_ge_of_isNaN (hx : x.isNaN = true) : ¬y ≤ x := by
  rw [le_iff_order, order?_swap x, order?_of_isNaN hx]
  decide

end FeltRelay.Decimal
