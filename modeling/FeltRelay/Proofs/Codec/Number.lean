import FeltRelay.Codec.Element
import FeltRelay.Decimal.Layout
import FeltRelay.Proofs.Text.Hex
import FeltRelay.Proofs.Text.Literal

/-!
# Integers in JSON

Which integer a JSON value denotes, said without the reader: a number denotes what it equals, and a
text what its digits spell in positional notation, blanks around it left out. The reader finds just
this (`readInteger_eq`).
-/

namespace FeltRelay.Text

/-! ### Spelled integers -/

/-- The number of a text without a sign: in decimal, or in hexadecimal after `0x`. -/
inductive Magnitude : List Char → Nat → Prop
  | decimal {s : List Char} {n : Nat} (h : Numeral 10 s n) : Magnitude s n
  | hexadecimal {s : List Char} {n : Nat} (h : Numeral 16 s n) : Magnitude ('0' :: 'x' :: s) n

/-- The integer that a text spells. -/
inductive Spelled : List Char → Int → Prop
  | plain {s : List Char} {n : Nat} (h : Magnitude s n) : Spelled s n
  | negative {s : List Char} {n : Nat} (h : Magnitude s n) : Spelled ('-' :: s) (-(n : Int))

/-! ### No blanks in integers -/

theorem isBlank_of_digitIn? {base : Nat} {c : Char} (h : (digitIn? base c).isSome) :
    isBlank c = false := by
  obtain ⟨k, hk⟩ := Option.isSome_iff_exists.1 h
  obtain ⟨hmin, hmax⟩ := Hex.toNat_of_digitIn? hk
  rw [isBlank, if_pos hmax]
  simp only [Bool.or_eq_false_iff, Bool.and_eq_false_iff, decide_eq_false_iff_not]
  omega

theorem Magnitude.not_blank {s : List Char} {n : Nat} (h : Magnitude s n) :
    ∀ c ∈ s, isBlank c = false := by
  cases h with
  | decimal h => exact fun c hc => isBlank_of_digitIn? (h.isDigit c hc)
  | hexadecimal h =>
    intro c hc
    rcases List.mem_cons.1 hc with rfl | hc
    · decide
    rcases List.mem_cons.1 hc with rfl | hc
    · decide
    exact isBlank_of_digitIn? (h.isDigit c hc)

theorem Spelled.not_blank {s : List Char} {i : Int} (h : Spelled s i) :
    ∀ c ∈ s, isBlank c = false := by
  cases h with
  | plain h => exact h.not_blank
  | negative h =>
    intro c hc
    rcases List.mem_cons.1 hc with rfl | hc
    · decide
    · exact h.not_blank c hc

theorem Spelled.ne_nil {s : List Char} {i : Int} (h : Spelled s i) : s ≠ [] := by
  cases h with
  | plain h =>
    cases h with
    | decimal h => exact h.ne_nil
    | hexadecimal _ => exact List.cons_ne_nil _ _
  | negative _ => exact List.cons_ne_nil _ _

/-! ### How integers are written -/

theorem Magnitude.signed {s : List Char} {i : Int} (h : Magnitude s i.natAbs) :
    Spelled ((if i < 0 then ['-'] else []) ++ s) i := by
  split
  · rename_i hneg
    have hspelled := Spelled.negative h
    rwa [show -(i.natAbs : Int) = i by omega] at hspelled
  · rename_i hneg
    have hspelled := Spelled.plain h
    rwa [show (i.natAbs : Int) = i by omega] at hspelled

/-- An integer in decimal spells the integer. -/
theorem spelled_integer (i : Int) : Spelled (integer i).toList i := by
  have htext : (integer i).toList = (if i < 0 then ['-'] else []) ++ inBase 10 i.natAbs := by
    rw [integer, decimal]
    split <;> exact String.toList_ofList
  rw [htext]
  exact (Magnitude.decimal (numeral_inBase (by decide) (by decide) i.natAbs)).signed

/-- An integer in hexadecimal spells the integer. -/
theorem spelled_signedHex (i : Int) : Spelled (signedHex i).toList i := by
  have htext : (signedHex i).toList =
      (if i < 0 then ['-'] else []) ++ '0' :: 'x' :: inBase 16 i.natAbs := by
    rw [signedHex, String.toList_append, toList_hexadecimal]
    split <;> rfl
  rw [htext]
  exact (Magnitude.hexadecimal (numeral_inBase (by decide) (by decide) i.natAbs)).signed

end FeltRelay.Text

namespace FeltRelay.Codec

open FeltRelay.Text

/-- What a reader of digits makes of a numeral. -/
theorem digitsIn?_eq_some_iff {base n : Nat} {s : List Char} :
    digitsIn? base s = some n ↔ Numeral base s n := by
  have hempty : s.isEmpty = true ↔ s = [] := List.isEmpty_iff
  constructor
  · intro h
    rw [digitsIn?] at h
    split at h
    · cases h
    · rename_i hne
      obtain ⟨ds, hds, rfl⟩ := Option.map_eq_some_iff.1 h
      exact numeral_of_mapM (fun hs => hne (hempty.2 hs)) hds
  · intro h
    obtain ⟨ds, hds, rfl⟩ := h.digits
    rw [digitsIn?, if_neg fun hs => h.ne_nil (hempty.1 hs), hds]
    rfl

/-- The reader of a text without a sign. -/
def magnitudeOf? (s : List Char) : Option Nat :=
  match s with
  | '0' :: 'x' :: rest => digitsIn? 16 rest
  | s => digitsIn? 10 s

theorem integerOf?_minus (s : List Char) :
    integerOf? ('-' :: s) = (magnitudeOf? s).map fun (n : Nat) => -(n : Int) := by
  change Option.map _ (do let n ← magnitudeOf? s; pure (n : Int)) = _
  cases magnitudeOf? s <;> rfl

theorem integerOf?_of_ne {s : List Char} (hs : ∀ rest, s ≠ '-' :: rest) :
    integerOf? s = (magnitudeOf? s).map fun (n : Nat) => (n : Int) := by
  unfold integerOf?
  split
  rename_i h
  split at h
  · exact absurd rfl (hs _)
  · cases h
    change Option.map _ (do let n ← magnitudeOf? s; pure (n : Int)) = _
    cases magnitudeOf? s <;> rfl

theorem magnitudeOf?_eq_some_iff {s : List Char} {n : Nat} :
    magnitudeOf? s = some n ↔ Magnitude s n := by
  unfold magnitudeOf?
  split
  · rw [digitsIn?_eq_some_iff]
    constructor
    · exact .hexadecimal
    · intro h
      cases h with
      | decimal h => exact absurd (h.isDigit 'x' (by simp)) (by decide)
      | hexadecimal h => exact h
  · rename_i hne
    rw [digitsIn?_eq_some_iff]
    constructor
    · exact .decimal
    · intro h
      cases h with
      | decimal h => exact h
      | hexadecimal h => exact absurd rfl (hne _)

/-- The reader of texts gives what a text spells. -/
theorem integerOf?_eq_some_iff {s : List Char} {i : Int} :
    integerOf? s = some i ↔ Spelled s i := by
  by_cases hs : ∃ rest, s = '-' :: rest
  · obtain ⟨rest, rfl⟩ := hs
    rw [integerOf?_minus, Option.map_eq_some_iff]
    constructor
    · rintro ⟨n, hn, rfl⟩
      exact .negative (magnitudeOf?_eq_some_iff.1 hn)
    · intro h
      cases h with
      | plain h =>
        -- No magnitude begins with a sign.
        cases h with
        | decimal h => exact absurd (h.isDigit '-' (List.mem_cons_self ..)) (by decide)
      | negative h => exact ⟨_, magnitudeOf?_eq_some_iff.2 h, rfl⟩
  · have hne : ∀ rest, s ≠ '-' :: rest := fun rest h => hs ⟨rest, h⟩
    rw [integerOf?_of_ne hne, Option.map_eq_some_iff]
    constructor
    · rintro ⟨n, hn, rfl⟩
      exact .plain (magnitudeOf?_eq_some_iff.1 hn)
    · intro h
      cases h with
      | plain h => exact ⟨_, magnitudeOf?_eq_some_iff.2 h, rfl⟩
      | negative h => exact absurd rfl (hne _)

end FeltRelay.Codec

namespace FeltRelay.Decimal

/-! ### Whole numbers -/

/-- A finite number, which is a fraction with a sign, equals an integer. -/
structure Equals (x : Float) (i : Int) : Prop where
  isNaN : x.isNaN = false
  isInf : x.isInf = false
  value : (if isNegative x then -((Binary.ofFloat x).numerator : Int)
    else (Binary.ofFloat x).numerator) = i * (Binary.ofFloat x).denominator

theorem Binary.denominator_pos (x : Binary) : 0 < x.denominator := Nat.pow_pos (by decide)

/-- A fraction is a whole number if nothing is left over. -/
theorem eq_mul_iff {a d : Nat} (hd : 0 < d) {i : Int} :
    (a : Int) = i * d ↔ a % d = 0 ∧ i = (a / d : Nat) := by
  constructor
  · intro h
    have hi : 0 ≤ i := by
      by_contra hneg
      have := Int.mul_neg_of_neg_of_pos (Int.not_le.1 hneg) (Int.natCast_pos.2 hd)
      omega
    obtain ⟨k, rfl⟩ := Int.eq_ofNat_of_zero_le hi
    have ha : a = k * d := by exact_mod_cast h
    rw [ha, Nat.mul_mod_left, Nat.mul_div_cancel k hd]
    exact ⟨rfl, rfl⟩
  · rintro ⟨hmod, rfl⟩
    have ha := Nat.div_mul_cancel (Nat.dvd_of_mod_eq_zero hmod)
    exact_mod_cast ha.symm

/-- The reader of whole numbers gives what a number equals. -/
theorem toInt?_eq_some_iff {x : Float} {i : Int} : toInt? x = some i ↔ Equals x i := by
  have hsigned : (if isNegative x then -((Binary.ofFloat x).numerator : Int)
      else (Binary.ofFloat x).numerator) = i * (Binary.ofFloat x).denominator ↔
      ((Binary.ofFloat x).numerator : Int) =
        (if isNegative x then -i else i) * (Binary.ofFloat x).denominator := by
    split
    · rw [Int.neg_mul]
      omega
    · exact Iff.rfl
  rw [toInt?]
  by_cases hspecial : (x.isNaN || x.isInf) = true
  · rw [if_pos hspecial]
    constructor
    · intro h
      cases h
    · intro h
      rw [h.isNaN, h.isInf] at hspecial
      cases hspecial
  · have hfinite : x.isNaN = false ∧ x.isInf = false := by
      rwa [Bool.not_eq_true, Bool.or_eq_false_iff] at hspecial
    have hequals : Equals x i ↔ _ :=
      ⟨fun h => h.value, fun h => ⟨hfinite.1, hfinite.2, h⟩⟩
    rw [if_neg hspecial, hequals, hsigned, eq_mul_iff (Binary.denominator_pos _)]
    dsimp only
    by_cases hmod : (Binary.ofFloat x).numerator % (Binary.ofFloat x).denominator = 0
    · rw [if_pos hmod, Option.some.injEq]
      split <;> omega
    · rw [if_neg hmod]
      simp [hmod]

end FeltRelay.Decimal

namespace FeltRelay.Codec

open FeltRelay.Text

/-! ### JSON values -/

/-- The integer that a JSON value denotes. -/
inductive Denotes : Json → Int → Prop
  | integer (i : Int) : Denotes (.int i) i
  | whole {x : Float} {i : Int} (h : Decimal.Equals x i) : Denotes (.num x) i
  | text {s : String} {left mid right : List Char} {i : Int} (hs : s.toList = left ++ mid ++ right)
    (hleft : ∀ c ∈ left, isBlank c = true) (hright : ∀ c ∈ right, isBlank c = true)
    (h : Spelled mid i) : Denotes (.str s) i

theorem denotes_str_iff {s : String} {i : Int} :
    Denotes (.str s) i ↔ integerOf? (trimChars s.toList) = some i := by
  rw [integerOf?_eq_some_iff]
  constructor
  · intro h
    cases h with
    | text hs hleft hright h =>
      rw [hs, trimChars_of_blanks hleft hright h.not_blank h.ne_nil]
      exact h
  · intro h
    obtain ⟨left, right, hs, hleft, hright⟩ := exists_trimChars s.toList
    exact .text hs hleft hright h

/-- The reader of integers gives what a value denotes, and refuses the others where they stand. -/
theorem readInteger_eq (path : String) (v : Json) :
    (∃ i, readInteger path v = .ok i ∧ ∀ j, Denotes v j ↔ j = i) ∨
      ∃ f, readInteger path v = .error f ∧ f.kind = .typeMismatch ∧ f.place = .path path ∧
        ∀ j, ¬Denotes v j := by
  cases v with
  | int i =>
    refine .inl ⟨i, rfl, fun j => ⟨fun h => ?_, ?_⟩⟩
    · cases h
      rfl
    · rintro rfl
      exact .integer j
  | num x =>
    have hiff : ∀ j, Denotes (.num x) j ↔ Decimal.toInt? x = some j := by
      intro j
      rw [Decimal.toInt?_eq_some_iff]
      refine ⟨fun h => ?_, .whole⟩
      cases h with
      | whole h => exact h
    rw [readInteger]
    cases hx : Decimal.toInt? x with
    | some i => exact .inl ⟨i, rfl, fun j => by rw [hiff, hx, Option.some.injEq, eq_comm]⟩
    | none => exact .inr ⟨_, rfl, rfl, rfl, fun j => by simp [hiff, hx]⟩
  | str s =>
    rw [readInteger]
    cases hs : integerOf? (trimChars s.toList) with
    | some i =>
      exact .inl ⟨i, rfl, fun j => by rw [denotes_str_iff, hs, Option.some.injEq, eq_comm]⟩
    | none =>
      exact .inr ⟨_, rfl, rfl, rfl, fun j => by simp [denotes_str_iff, hs]⟩
  | _ => exact .inr ⟨_, rfl, rfl, rfl, fun j h => by cases h⟩

theorem Denotes.readInteger {v : Json} {i : Int} (h : Denotes v i) (path : String) :
    readInteger path v = .ok i := by
  rcases readInteger_eq path v with ⟨j, hread, hj⟩ | ⟨f, -, -, -, hnone⟩
  · rw [hread, (hj i).1 h]
  · exact absurd h (hnone i)

/-- A text that spells an integer denotes it. -/
theorem denotes_of_spelled {s : String} {i : Int} (h : Spelled s.toList i) : Denotes (.str s) i := by
  have hwhole : s.toList = [] ++ s.toList ++ [] := by rw [List.nil_append, List.append_nil]
  exact .text hwhole (fun _ hc => absurd hc List.not_mem_nil)
    (fun _ hc => absurd hc List.not_mem_nil) h

theorem Denotes.unique {v : Json} {i j : Int} (hi : Denotes v i) (hj : Denotes v j) : i = j := by
  rcases readInteger_eq "$" v with ⟨k, -, hk⟩ | ⟨f, -, -, -, hnone⟩
  · exact ((hk i).1 hi).trans ((hk j).1 hj).symm
  · exact absurd hi (hnone i)

end FeltRelay.Codec
