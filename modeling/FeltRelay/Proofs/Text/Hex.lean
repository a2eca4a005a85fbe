import FeltRelay.Text.Hex
import Mathlib.Algebra.Order.Ring.Nat

/-!
# Hexadecimal bytes read back

Written bytes are read back (`decode?_flatMap_digits`). A text that is read and written again comes
out in small letters and without the blanks between its pairs (`flatMap_digits_of_decode?`).
-/

namespace FeltRelay.Text.Hex

theorem decode?_digits (b : UInt8) (rest : List Char) :
    decode? (digits b ++ rest) = (decode? rest).map (b :: ·) := by
  have hb : b.toNat < 256 := b.toNat_lt
  have blank : ∀ k < 16, isAsciiBlank (digitChar k) = false := by decide
  have value : ∀ k < 16, digitIn? 16 (digitChar k) = some k := by decide
  have hbyte : UInt8.ofNat (16 * (b.toNat / 16) + b.toNat % 16) = b := by
    rw [Nat.div_add_mod]
    exact UInt8.ofNat_toNat
  simp only [digits, List.cons_append, List.nil_append]
  rw [decode?, blank _ (by omega)]
  simp only [Bool.false_eq_true, if_false, value _ (show b.toNat / 16 < 16 by omega),
    value _ (show b.toNat % 16 < 16 by omega), hbyte]

theorem decode?_flatMap_digits (bytes : List UInt8) :
    decode? (bytes.flatMap digits) = some bytes := by
  induction bytes with
  | nil => rfl
  | cons b bytes ih => rw [List.flatMap_cons, decode?_digits, ih, Option.map_some]

/-- The characters between which all digits lie. -/
theorem toNat_of_digitIn? {base : Nat} {c : Char} {k : Nat} (h : digitIn? base c = some k) :
    48 ≤ c.toNat ∧ c.toNat < 128 := by
  have between : ∀ {a b : Char}, a ≤ c ∧ c ≤ b → a.toNat ≤ c.toNat ∧ c.toNat ≤ b.toNat :=
    fun hc => ⟨UInt32.le_iff_toNat_le.1 hc.1, UInt32.le_iff_toNat_le.1 hc.2⟩
  have widen : ∀ {a b : Char}, 48 ≤ a.toNat → b.toNat < 128 → a ≤ c ∧ c ≤ b →
      48 ≤ c.toNat ∧ c.toNat < 128 := fun ha hb hc =>
    ⟨ha.trans (between hc).1, (between hc).2.trans_lt hb⟩
  unfold digitIn? at h
  split_ifs at h with h1 h2 h3
  · exact widen (by decide) (by decide) h1
  · exact widen (by decide) (by decide) h2
  · exact widen (by decide) (by decide) h3
  · cases h

/-- What a hexadecimal digit is: no blank, and in small letters the digit of its value. -/
theorem digit_of_digitIn? {c : Char} {k : Nat} (h : digitIn? 16 c = some k) :
    k < 16 ∧ isAsciiBlank c = false ∧ c.toLower = digitChar k := by
  have key : ∀ n < 128, ∀ k ∈ digitIn? 16 (Char.ofNat n), k < 16 ∧
      isAsciiBlank (Char.ofNat n) = false ∧ (Char.ofNat n).toLower = digitChar k := by decide
  have hk := key c.toNat (toNat_of_digitIn? h).2 k (by rw [Char.ofNat_toNat]; exact h)
  rwa [Char.ofNat_toNat] at hk

theorem digits_pair {h l : Nat} (hh : h < 16) (hl : l < 16) :
    digits (UInt8.ofNat (16 * h + l)) = [digitChar h, digitChar l] := by
  have hn : (UInt8.ofNat (16 * h + l)).toNat = 16 * h + l := by
    rw [UInt8.toNat_ofNat']
    exact Nat.mod_eq_of_lt (by omega)
  rw [digits, hn, show (16 * h + l) / 16 = h by omega, show (16 * h + l) % 16 = l by omega]

/-- Digits as they are written: small letters, no blanks. -/
def plain (s : List Char) : List Char := (s.filter (!isAsciiBlank ·)).map Char.toLower

theorem plain_blank {c : Char} (h : isAsciiBlank c = true) (s : List Char) :
    plain (c :: s) = plain s := by
  simp [plain, h]

theorem plain_cons {c : Char} (h : isAsciiBlank c = false) (s : List Char) :
    plain (c :: s) = c.toLower :: plain s := by
  simp [plain, h]

/-- What was read is written as the text without blanks in small letters. -/
theorem flatMap_digits_of_decode? {s : List Char} {bytes : List UInt8}
    (h : decode? s = some bytes) : bytes.flatMap digits = plain s := by
  fun_induction decode? s generalizing bytes with
  | case1 =>
    cases h
    rfl
  | case2 c rest hc ih => rw [plain_blank hc, ih h]
  | case3 c hc => cases h
  | case4 c _ d rest k l hd hc ih =>
    obtain ⟨bs, hbs, rfl⟩ := Option.map_eq_some_iff.1 h
    obtain ⟨hk, hcb, hcl⟩ := digit_of_digitIn? hc
    obtain ⟨hl, hdb, hdl⟩ := digit_of_digitIn? hd
    rw [List.flatMap_cons, digits_pair hk hl, ih hbs, plain_cons hcb, plain_cons hdb, hcl, hdl]
    rfl
  | case5 => cases h

/-- Written bytes have two digits each. -/
theorem length_flatMap_digits (bytes : List UInt8) :
    (bytes.flatMap digits).length = 2 * bytes.length := by
  induction bytes with
  | nil => rfl
  | cons b bytes ih =>
    rw [List.flatMap_cons, List.length_append, ih, List.length_cons]
    simp only [digits, List.length_cons, List.length_nil]
    omega

/-! ### What is accepted -/

/-- Pairs of digits, with blanks before, between and behind them. -/
inductive Pairs : List Char → Prop
  | nil : Pairs []
  | blank {c : Char} {s : List Char} (hc : isAsciiBlank c = true) (h : Pairs s) : Pairs (c :: s)
  | pair {c d : Char} {s : List Char} (hc : isHexDigit c = true) (hd : isHexDigit d = true)
    (h : Pairs s) : Pairs (c :: d :: s)

theorem decode?_isSome_iff {s : List Char} : (decode? s).isSome = true ↔ Pairs s := by
  constructor
  · intro h
    fun_induction decode? s with
    | case1 => exact .nil
    | case2 c rest hc ih => exact .blank hc (ih h)
    | case3 c hc => cases h
    | case4 c _ d rest k l hd hc ih =>
      rw [Option.isSome_map] at h
      exact .pair (Option.isSome_of_mem hc) (Option.isSome_of_mem hd) (ih h)
    | case5 => cases h
  · intro h
    induction h with
    | nil => rfl
    | @blank c s hc _ ih =>
      rw [decode?.eq_def (c :: s)]
      dsimp only
      rw [if_pos hc]
      exact ih
    | pair hc hd _ ih =>
      obtain ⟨k, hk⟩ := Option.isSome_iff_exists.1 hc
      obtain ⟨l, hl⟩ := Option.isSome_iff_exists.1 hd
      have hblank := (digit_of_digitIn? hk).2.1
      rw [decode?, if_neg (by rw [hblank]; exact Bool.false_ne_true)]
      simp only [hk, hl, Option.isSome_map]
      exact ih

end FeltRelay.Text.Hex
