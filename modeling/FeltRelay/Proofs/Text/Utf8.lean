import FeltRelay.Text.Utf8
import Mathlib.Algebra.Order.Ring.Nat

/-!
# UTF-8 is a bijection on what it accepts

A text is read back from its bytes (`decode?_encode`), and bytes that are read are the bytes of
their text (`encode_of_decode?`): no second spelling of a character is accepted.
-/

namespace FeltRelay.Text.Utf8

theorem toNat_ofNat_of_lt {n : Nat} (h : n < 256) : (UInt8.ofNat n).toNat = n := by
  rw [UInt8.toNat_ofNat']
  exact Nat.mod_eq_of_lt h

theorem ofNat_eq_of_toNat {b : UInt8} {n : Nat} (h : n = b.toNat) : UInt8.ofNat n = b := by
  rw [h]
  exact UInt8.ofNat_toNat

theorem exists_byte {n : Nat} (h : n < 256) : ∃ b : UInt8, UInt8.ofNat n = b ∧ b.toNat = n :=
  ⟨_, rfl, toNat_ofNat_of_lt h⟩

/-! ### First bytes -/

theorem leader?_one {b : Nat} (h : b < 0x80) : leader? b = some (0, 0, 0, b) := if_pos h

theorem leader?_two {b : Nat} (hl : 0xC2 ≤ b) (hh : b < 0xE0) :
    leader? b = some (1, 0x80, 0xBF, b - 0xC0) := by
  unfold leader?
  rw [if_neg (by omega), if_neg (by omega), if_pos hh]

/-- `0xE0` excludes longer forms of what two bytes hold, `0xED` the surrogates. -/
theorem leader?_three {b : Nat} (hl : 0xE0 ≤ b) (hh : b < 0xF0) :
    leader? b = some (2, if b = 0xE0 then 0xA0 else 0x80, if b = 0xED then 0x9F else 0xBF,
      b - 0xE0) := by
  have key : ∀ k < 16, leader? (0xE0 + k) = some (2, if 0xE0 + k = 0xE0 then 0xA0 else 0x80,
      if 0xE0 + k = 0xED then 0x9F else 0xBF, 0xE0 + k - 0xE0) := by decide
  have h := key (b - 0xE0) (by omega)
  rwa [Nat.add_sub_cancel' hl] at h

/-- `0xF0` excludes longer forms of what three bytes hold, `0xF4` what lies above U+10FFFF. -/
theorem leader?_four {b : Nat} (hl : 0xF0 ≤ b) (hh : b ≤ 0xF4) :
    leader? b = some (3, if b = 0xF0 then 0x90 else 0x80, if b = 0xF4 then 0x8F else 0xBF,
      b - 0xF0) := by
  have key : ∀ k < 5, leader? (0xF0 + k) = some (3, if 0xF0 + k = 0xF0 then 0x90 else 0x80,
      if 0xF0 + k = 0xF4 then 0x8F else 0xBF, 0xF0 + k - 0xF0) := by decide
  have h := key (b - 0xF0) (by omega)
  rwa [Nat.add_sub_cancel' hl] at h

theorem leader?_none {b : Nat} (h : 0x80 ≤ b ∧ b < 0xC2 ∨ 0xF4 < b) : leader? b = none := by
  unfold leader?
  split_ifs <;> first | rfl | omega

/-! ### Bytes that follow -/

theorem decodeFrom_continue {k low high bits : Nat} {b : UInt8} {rest : List UInt8}
    (hl : low ≤ b.toNat) (hh : b.toNat ≤ high) :
    decodeFrom (some ⟨k + 1, low, high, bits⟩) (b :: rest) =
      decodeFrom (some ⟨k, 0x80, 0xBF, bits * 64 + (b.toNat - 0x80)⟩) rest := by
  rw [decodeFrom, if_pos ⟨hl, hh⟩]

theorem decodeFrom_last {low high bits : Nat} {b : UInt8} {rest : List UInt8}
    (hl : low ≤ b.toNat) (hh : b.toNat ≤ high) :
    decodeFrom (some ⟨0, low, high, bits⟩) (b :: rest) =
      (decodeFrom none rest).map (Char.ofNat (bits * 64 + (b.toNat - 0x80)) :: ·) := by
  rw [decodeFrom, if_pos ⟨hl, hh⟩]

/-- Inside a character only a byte of the announced range is accepted. -/
theorem exists_of_decodeFrom_pending {p : Pending} {bytes : List UInt8} {cs : List Char}
    (h : decodeFrom (some p) bytes = some cs) :
    ∃ b rest, bytes = b :: rest ∧ p.low ≤ b.toNat ∧ b.toNat ≤ p.high := by
  cases bytes with
  | nil => simp [decodeFrom] at h
  | cons b rest =>
    refine ⟨b, rest, rfl, ?_⟩
    by_contra hb
    rw [decodeFrom, if_neg hb] at h
    cases h

/-! ### Bytes of a text read back -/

/-- The code points: no surrogates among them. -/
theorem toNat_range (c : Char) : c.toNat < 0xD800 ∨ 0xDFFF < c.toNat ∧ c.toNat < 0x110000 := c.valid

theorem decodeFrom_encodeChar (c : Char) (rest : List UInt8) :
    decodeFrom none (encodeChar c ++ rest) = (decodeFrom none rest).map (c :: ·) := by
  have hc := toNat_range c
  have hback : Char.ofNat c.toNat = c := Char.ofNat_toNat c
  dsimp only [encodeChar]
  generalize c.toNat = n at hc hback
  split_ifs with h1 h2 h3
  · obtain ⟨b, hb, hbn⟩ := exists_byte (n := n) (by omega)
    simp only [List.cons_append, List.nil_append, hb]
    rw [decodeFrom, hbn, leader?_one h1]
    dsimp only
    rw [hback]
  · obtain ⟨b, hb, hbn⟩ := exists_byte (n := 0xC0 + n / 0x40) (by omega)
    obtain ⟨b₁, hb₁, hbn₁⟩ := exists_byte (n := 0x80 + n % 0x40) (by omega)
    simp only [List.cons_append, List.nil_append, hb, hb₁]
    rw [decodeFrom, leader?_two (by omega) (by omega)]
    dsimp only
    rw [decodeFrom_last (by omega) (by omega), hbn, hbn₁]
    have hbits : (0xC0 + n / 0x40 - 0xC0) * 64 + (0x80 + n % 0x40 - 0x80) = n := by omega
    rw [hbits, hback]
  · obtain ⟨b, hb, hbn⟩ := exists_byte (n := 0xE0 + n / 0x1000) (by omega)
    obtain ⟨b₁, hb₁, hbn₁⟩ := exists_byte (n := 0x80 + n / 0x40 % 0x40) (by omega)
    obtain ⟨b₂, hb₂, hbn₂⟩ := exists_byte (n := 0x80 + n % 0x40) (by omega)
    simp only [List.cons_append, List.nil_append, hb, hb₁, hb₂]
    rw [decodeFrom, leader?_three (by omega) (by omega)]
    dsimp only
    rw [decodeFrom_continue (by split <;> omega) (by split <;> omega),
      decodeFrom_last (by omega) (by omega), hbn, hbn₁, hbn₂]
    have hbits : ((0xE0 + n / 0x1000 - 0xE0) * 64 + (0x80 + n / 0x40 % 0x40 - 0x80)) * 64 +
        (0x80 + n % 0x40 - 0x80) = n := by omega
    rw [hbits, hback]
  · obtain ⟨b, hb, hbn⟩ := exists_byte (n := 0xF0 + n / 0x40000) (by omega)
    obtain ⟨b₁, hb₁, hbn₁⟩ := exists_byte (n := 0x80 + n / 0x1000 % 0x40) (by omega)
    obtain ⟨b₂, hb₂, hbn₂⟩ := exists_byte (n := 0x80 + n / 0x40 % 0x40) (by omega)
    obtain ⟨b₃, hb₃, hbn₃⟩ := exists_byte (n := 0x80 + n % 0x40) (by omega)
    simp only [List.cons_append, List.nil_append, hb, hb₁, hb₂, hb₃]
    rw [decodeFrom, leader?_four (by omega) (by omega)]
    dsimp only
    rw [decodeFrom_continue (by split <;> omega) (by split <;> omega),
      decodeFrom_continue (by omega) (by omega), decodeFrom_last (by omega) (by omega), hbn, hbn₁,
      hbn₂, hbn₃]
    have hbits : (((0xF0 + n / 0x40000 - 0xF0) * 64 + (0x80 + n / 0x1000 % 0x40 - 0x80)) * 64 +
        (0x80 + n / 0x40 % 0x40 - 0x80)) * 64 + (0x80 + n % 0x40 - 0x80) = n := by omega
    rw [hbits, hback]

/-- A text is read back from its bytes. -/
theorem decode?_encode (s : String) : decode? (encode s) = some s := by
  have key : ∀ cs : List Char, decodeFrom none (cs.flatMap encodeChar) = some cs := by
    intro cs
    induction cs with
    | nil => rfl
    | cons c cs ih => rw [List.flatMap_cons, decodeFrom_encodeChar, ih, Option.map_some]
  rw [decode?, encode, key, Option.map_some, String.ofList_toList]

/-! ### Bytes written again -/

theorem toNat_ofNat_of_valid {n : Nat} (h : n < 0xD800 ∨ 0xDFFF < n ∧ n < 0x110000) :
    (Char.ofNat n).toNat = n := by
  have hv : n.isValidChar := h
  rw [Char.ofNat, dif_pos hv]
  rfl

/-- One character at the front of what was read, which its bytes encode. -/
def ReadsOne (bytes : List UInt8) (cs : List Char) : Prop :=
  ∃ c tail cs', cs = c :: cs' ∧ bytes = encodeChar c ++ tail ∧ decodeFrom none tail = some cs'

variable {b : UInt8} {rest : List UInt8} {cs : List Char}

theorem readsOne_one (hb : b.toNat < 0x80) (h : decodeFrom none (b :: rest) = some cs) :
    ReadsOne (b :: rest) cs := by
  rw [decodeFrom, leader?_one hb] at h
  obtain ⟨cs', hcs, rfl⟩ := Option.map_eq_some_iff.1 h
  refine ⟨_, rest, cs', rfl, ?_, hcs⟩
  rw [encodeChar, toNat_ofNat_of_valid (by omega), if_pos hb, UInt8.ofNat_toNat]
  rfl

theorem readsOne_two (hlow : 0xC2 ≤ b.toNat) (hb : b.toNat < 0xE0)
    (h : decodeFrom none (b :: rest) = some cs) : ReadsOne (b :: rest) cs := by
  rw [decodeFrom, leader?_two hlow hb] at h
  dsimp only at h
  obtain ⟨b₁, tail, rfl, hl, hh⟩ := exists_of_decodeFrom_pending h
  dsimp only at hl hh
  rw [decodeFrom_last hl hh] at h
  obtain ⟨cs', hcs, rfl⟩ := Option.map_eq_some_iff.1 h
  refine ⟨_, tail, cs', rfl, ?_, hcs⟩
  dsimp only [encodeChar]
  rw [toNat_ofNat_of_valid (by omega), if_neg (by omega), if_pos (by omega),
    ofNat_eq_of_toNat (b := b) (by omega), ofNat_eq_of_toNat (b := b₁) (by omega)]
  rfl

theorem readsOne_three (hlow : 0xE0 ≤ b.toNat) (hb : b.toNat < 0xF0)
    (h : decodeFrom none (b :: rest) = some cs) : ReadsOne (b :: rest) cs := by
  rw [decodeFrom, leader?_three hlow hb] at h
  dsimp only at h
  obtain ⟨b₁, tail, rfl, hl, hh⟩ := exists_of_decodeFrom_pending h
  dsimp only at hl hh
  rw [decodeFrom_continue hl hh] at h
  obtain ⟨b₂, tail, rfl, hl₂, hh₂⟩ := exists_of_decodeFrom_pending h
  dsimp only at hl₂ hh₂
  rw [decodeFrom_last hl₂ hh₂] at h
  obtain ⟨cs', hcs, rfl⟩ := Option.map_eq_some_iff.1 h
  refine ⟨_, tail, cs', rfl, ?_, hcs⟩
  -- The second byte excludes longer spellings of small characters, and surrogates.
  have hrange : (b.toNat = 0xE0 → 0xA0 ≤ b₁.toNat) ∧ (b.toNat = 0xED → b₁.toNat ≤ 0x9F) ∧
      0x80 ≤ b₁.toNat ∧ b₁.toNat ≤ 0xBF := by
    split_ifs at hl hh <;> omega
  dsimp only [encodeChar]
  rw [toNat_ofNat_of_valid (by omega), if_neg (by omega), if_neg (by omega), if_pos (by omega),
    ofNat_eq_of_toNat (b := b) (by omega), ofNat_eq_of_toNat (b := b₁) (by omega),
    ofNat_eq_of_toNat (b := b₂) (by omega)]
  rfl

theorem readsOne_four (hlow : 0xF0 ≤ b.toNat) (hb : b.toNat ≤ 0xF4)
    (h : decodeFrom none (b :: rest) = some cs) : ReadsOne (b :: rest) cs := by
  rw [decodeFrom, leader?_four hlow hb] at h
  dsimp only at h
  obtain ⟨b₁, tail, rfl, hl, hh⟩ := exists_of_decodeFrom_pending h
  dsimp only at hl hh
  rw [decodeFrom_continue hl hh] at h
  obtain ⟨b₂, tail, rfl, hl₂, hh₂⟩ := exists_of_decodeFrom_pending h
  dsimp only at hl₂ hh₂
  rw [decodeFrom_continue hl₂ hh₂] at h
  obtain ⟨b₃, tail, rfl, hl₃, hh₃⟩ := exists_of_decodeFrom_pending h
  dsimp only at hl₃ hh₃
  rw [decodeFrom_last hl₃ hh₃] at h
  obtain ⟨cs', hcs, rfl⟩ := Option.map_eq_some_iff.1 h
  refine ⟨_, tail, cs', rfl, ?_, hcs⟩
  -- The second byte excludes longer spellings, and what lies beyond the last character.
  have hrange : (b.toNat = 0xF0 → 0x90 ≤ b₁.toNat) ∧ (b.toNat = 0xF4 → b₁.toNat ≤ 0x8F) ∧
      0x80 ≤ b₁.toNat ∧ b₁.toNat ≤ 0xBF := by
    split_ifs at hl hh <;> omega
  dsimp only [encodeChar]
  rw [toNat_ofNat_of_valid (by omega), if_neg (by omega), if_neg (by omega), if_neg (by omega),
    ofNat_eq_of_toNat (b := b) (by omega), ofNat_eq_of_toNat (b := b₁) (by omega),
    ofNat_eq_of_toNat (b := b₂) (by omega), ofNat_eq_of_toNat (b := b₃) (by omega)]
  rfl

/-- The first byte tells how many bytes the character has. -/
theorem readsOne_of_decodeFrom (h : decodeFrom none (b :: rest) = some cs) :
    ReadsOne (b :: rest) cs := by
  by_cases h1 : b.toNat < 0x80
  · exact readsOne_one h1 h
  by_cases h2 : b.toNat < 0xC2 ∨ 0xF4 < b.toNat
  · rw [decodeFrom, leader?_none (by omega)] at h
    cases h
  by_cases h3 : b.toNat < 0xE0
  · exact readsOne_two (by omega) h3 h
  by_cases h4 : b.toNat < 0xF0
  · exact readsOne_three (by omega) h4 h
  · exact readsOne_four (by omega) (by omega) h

theorem encode_of_decodeFrom (n : Nat) (bytes : List UInt8) (cs : List Char)
    (hn : bytes.length ≤ n) (h : decodeFrom none bytes = some cs) :
    cs.flatMap encodeChar = bytes := by
  induction n generalizing bytes cs with
  | zero =>
    have hb : bytes = [] := List.eq_nil_of_length_eq_zero (by omega)
    subst hb
    cases h
    rfl
  | succ n ih =>
    cases bytes with
    | nil =>
      cases h
      rfl
    | cons b rest =>
      obtain ⟨c, tail, cs', rfl, hbytes, htail⟩ := readsOne_of_decodeFrom h
      have hpos : 0 < (encodeChar c).length := by
        dsimp only [encodeChar]
        split_ifs <;> simp
      have hlen := congrArg List.length hbytes
      rw [List.length_append] at hlen
      rw [List.flatMap_cons, ih tail cs' (by omega) htail, hbytes]

/-- Only the shortest form of a text is read. -/
theorem encode_of_decode? {bytes : List UInt8} {s : String} (h : decode? bytes = some s) :
    encode s = bytes := by
  obtain ⟨cs, hcs, rfl⟩ := Option.map_eq_some_iff.1 h
  rw [encode, String.toList_ofList]
  exact encode_of_decodeFrom bytes.length bytes cs (le_refl _) hcs

end FeltRelay.Text.Utf8
