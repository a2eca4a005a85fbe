import FeltRelay.Text.Numeral
import Mathlib.Algebra.Order.Ring.Nat

/-!
# Numbers read back

The digits of a number spell the number in every base (`valueOf_inBase`), with zeros in front as
well (`mapM_padLeft`). It has no more digits than it needs (`length_inBase_le`), and only zero begins
with a zero (`inBase_eq_cons`).
-/

namespace FeltRelay.Text

/-! ### Digits -/

theorem digitIn?_digitChar {base d : Nat} (hd : d < base) (hb : base ≤ 16) :
    digitIn? base (digitChar d) = some d := by
  have key : ∀ k < 16, digitIn? 16 (digitChar k) = some k := by decide
  have h16 := key d (by omega)
  unfold digitIn? at h16 ⊢
  simp only [Option.filter_eq_some_iff] at h16 ⊢
  exact ⟨h16.1, by simpa using hd⟩

theorem isDigit_digitChar {d : Nat} (hd : d < 10) : (digitChar d).isDigit = true := by
  have key : ∀ k < 10, (digitChar k).isDigit = true := by decide
  exact key d hd

theorem digitValue?_digitChar {d : Nat} (hd : d < 10) : digitValue? (digitChar d) = some d := by
  have key : ∀ k < 10, digitValue? (digitChar k) = some k := by decide
  exact key d hd

theorem valueOf_append (base : Nat) (ds : List Nat) (d : Nat) :
    valueOf base (ds ++ [d]) = valueOf base ds * base + d := by
  simp [valueOf, List.foldl_append]

theorem valueOf_digitsRev {base : Nat} (hb : 2 ≤ base) (fuel n : Nat) (h : n < base ^ fuel) :
    valueOf base (digitsRev base fuel n).reverse = n := by
  induction fuel generalizing n with
  | zero =>
    have h0 : n = 0 := by simpa using h
    subst h0
    rfl
  | succ fuel ih =>
    unfold digitsRev
    by_cases hn : n < base
    · rw [if_pos hn]
      simp [valueOf]
    · rw [if_neg hn, List.reverse_cons, valueOf_append]
      have hq : n / base < base ^ fuel := by
        rw [Nat.div_lt_iff_lt_mul (by omega)]
        rwa [pow_succ] at h
      rw [ih (n / base) hq]
      exact Nat.div_add_mod' n base

theorem lt_of_mem_digitsRev {base : Nat} (hb : 2 ≤ base) (fuel n : Nat) :
    ∀ d ∈ digitsRev base fuel n, d < base := by
  induction fuel generalizing n with
  | zero => simp [digitsRev]
  | succ fuel ih =>
    intro d hd
    unfold digitsRev at hd
    split at hd
    · simp only [List.mem_singleton] at hd
      omega
    · rcases List.mem_cons.1 hd with hd | hd
      · rw [hd]
        exact Nat.mod_lt n (by omega)
      · exact ih (n / base) d hd

theorem lt_pow_log2 {base : Nat} (hb : 2 ≤ base) (n : Nat) : n < base ^ (n.log2 + 1) :=
  lt_of_lt_of_le Nat.lt_log2_self (Nat.pow_le_pow_left hb (n.log2 + 1))

theorem inBase_ne_nil (base n : Nat) : inBase base n ≠ [] := by
  unfold inBase digitsRev
  split <;> simp

/-- The digits of a number, one by one. -/
theorem mem_inBase {base : Nat} (hb : 2 ≤ base) {n : Nat} {c : Char} (h : c ∈ inBase base n) :
    ∃ d, d < base ∧ c = digitChar d := by
  obtain ⟨d, hd, rfl⟩ := List.mem_map.1 h
  exact ⟨d, lt_of_mem_digitsRev hb _ n d (List.mem_reverse.1 hd), rfl⟩

/-- The digits of a number, read one by one, spell it. -/
theorem mapM_inBase {base : Nat} (hb : 2 ≤ base) (hb' : base ≤ 16) (n : Nat) :
    ∃ ds, (inBase base n).mapM (digitIn? base) = some ds ∧ valueOf base ds = n := by
  refine ⟨(digitsRev base (n.log2 + 1) n).reverse, ?_,
    valueOf_digitsRev hb _ n (lt_pow_log2 hb n)⟩
  have hlt : ∀ d ∈ (digitsRev base (n.log2 + 1) n).reverse, d < base :=
    fun d hd => lt_of_mem_digitsRev hb _ n d (List.mem_reverse.1 hd)
  unfold inBase
  generalize (digitsRev base (n.log2 + 1) n).reverse = ds at hlt ⊢
  induction ds with
  | nil => rfl
  | cons d ds ih =>
    rw [List.map_cons, List.mapM_cons, digitIn?_digitChar (hlt d (List.mem_cons_self ..)) hb',
      ih fun k hk => hlt k (List.mem_cons_of_mem _ hk)]
    rfl

theorem decimalValue_inBase (n : Nat) : decimalValue (inBase 10 n) = n := by
  have hlt : ∀ d ∈ (digitsRev 10 (n.log2 + 1) n).reverse, d < 10 :=
    fun d hd => lt_of_mem_digitsRev (by decide) _ n d (List.mem_reverse.1 hd)
  have hspell := valueOf_digitsRev (by decide : 2 ≤ 10) _ n (lt_pow_log2 (by decide) n)
  rw [decimalValue, inBase, List.map_map]
  generalize (digitsRev 10 (n.log2 + 1) n).reverse = ds at hlt hspell ⊢
  have hback : ds.map ((fun c => (digitValue? c).getD 0) ∘ digitChar) = ds := by
    clear hspell
    induction ds with
    | nil => rfl
    | cons d ds ih =>
      rw [List.map_cons, Function.comp_apply, digitValue?_digitChar (hlt d (List.mem_cons_self ..)),
        ih fun k hk => hlt k (List.mem_cons_of_mem _ hk)]
      rfl
  rw [hback, hspell]

/-! ### How many digits -/

theorem length_digitsRev_le {base : Nat} (hb : 2 ≤ base) (fuel : Nat) {n k : Nat}
    (h : n < base ^ (k + 1)) : (digitsRev base fuel n).length ≤ k + 1 := by
  induction fuel generalizing n k with
  | zero => exact Nat.zero_le _
  | succ fuel ih =>
    unfold digitsRev
    by_cases hn : n < base
    · rw [if_pos hn]
      exact Nat.succ_le_succ (Nat.zero_le k)
    · rw [if_neg hn]
      cases k with
      | zero =>
        rw [Nat.zero_add, pow_one] at h
        exact absurd h hn
      | succ k =>
        have hq : n / base < base ^ (k + 1) := by
          rw [Nat.div_lt_iff_lt_mul (by omega)]
          rwa [pow_succ] at h
        exact Nat.succ_le_succ (ih hq)

theorem length_inBase_le {base : Nat} (hb : 2 ≤ base) {n k : Nat} (h : n < base ^ (k + 1)) :
    (inBase base n).length ≤ k + 1 := by
  rw [inBase, List.length_map, List.length_reverse]
  exact length_digitsRev_le hb _ h

/-- The first digit of a number is no zero. -/
theorem digitsRev_eq_append {base : Nat} (hb : 2 ≤ base) (fuel : Nat) {n : Nat} (h0 : n ≠ 0)
    (h : n < base ^ fuel) : ∃ ds d, digitsRev base fuel n = ds ++ [d] ∧ d ≠ 0 ∧ d < base := by
  induction fuel generalizing n with
  | zero => exact absurd (Nat.lt_one_iff.1 h) h0
  | succ fuel ih =>
    unfold digitsRev
    by_cases hn : n < base
    · rw [if_pos hn]
      exact ⟨[], n, rfl, h0, hn⟩
    · rw [if_neg hn]
      have hq : n / base < base ^ fuel := by
        rw [Nat.div_lt_iff_lt_mul (by omega)]
        rwa [pow_succ] at h
      have hq0 : n / base ≠ 0 := by
        have := Nat.div_pos (Nat.le_of_not_lt hn) (by omega)
        omega
      obtain ⟨ds, d, heq, hd0, hd⟩ := ih hq0 hq
      exact ⟨n % base :: ds, d, by rw [heq]; rfl, hd0, hd⟩

theorem inBase_eq_cons {base : Nat} (hb : 2 ≤ base) (hb' : base ≤ 16) {n : Nat} (h0 : n ≠ 0) :
    ∃ c s, inBase base n = c :: s ∧ c ≠ '0' := by
  obtain ⟨ds, d, heq, hd0, hd⟩ := digitsRev_eq_append hb _ h0 (lt_pow_log2 hb n)
  refine ⟨digitChar d, ds.reverse.map digitChar, ?_, ?_⟩
  · rw [inBase, heq, List.reverse_append]
    rfl
  · have key : ∀ k < 16, k ≠ 0 → digitChar k ≠ '0' := by decide
    exact key d (by omega) hd0

/-! ### Zeros in front -/

theorem valueOf_zeros (base k : Nat) (ds : List Nat) :
    valueOf base (List.replicate k 0 ++ ds) = valueOf base ds := by
  induction k with
  | zero => rfl
  | succ k ih =>
    rw [List.replicate_succ, List.cons_append, ← ih]
    simp [valueOf]

/-- Zeros in front do not change what digits spell. -/
theorem mapM_padLeft {base : Nat} (hb : 2 ≤ base) (hb' : base ≤ 16) (width n : Nat) :
    ∃ ds, (padLeft width '0' (inBase base n)).mapM (digitIn? base) = some ds ∧
      valueOf base ds = n := by
  obtain ⟨ds, hds, hvalue⟩ := mapM_inBase hb hb' n
  have hzero : digitIn? base '0' = some 0 := digitIn?_digitChar (d := 0) (by omega) hb'
  refine ⟨List.replicate (width - (inBase base n).length) 0 ++ ds, ?_, ?_⟩
  · rw [padLeft]
    generalize width - (inBase base n).length = k
    induction k with
    | zero => exact hds
    | succ k ih =>
      rw [List.replicate_succ, List.cons_append, List.mapM_cons, hzero, ih]
      rfl
  · rw [valueOf_zeros, hvalue]

theorem length_padLeft {width : Nat} {pad : Char} {s : List Char} (h : s.length ≤ width) :
    (padLeft width pad s).length = width := by
  rw [padLeft, List.length_append, List.length_replicate]
  omega

end FeltRelay.Text
