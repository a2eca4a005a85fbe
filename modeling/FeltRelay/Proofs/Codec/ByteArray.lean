import FeltRelay.Codec.ByteArray
import FeltRelay.Proofs.Result
import FeltRelay.Proofs.Text.Hex
import FeltRelay.Proofs.Text.Utf8
import Mathlib.Data.List.Induction

/-!
# The layout of byte strings

Packing and unpacking are inverse: packed bytes are unpacked whatever follows them
(`unpackBytes_packBytes`), and elements that are unpacked are the packed bytes, so no second layout
of a byte string is accepted (`eq_packBytes_of_unpackBytes`).
-/

namespace FeltRelay.Codec

open FeltRelay.Schema FeltRelay.Text

/-! ### Words -/

theorem wordValue_concat (bytes : List UInt8) (b : UInt8) :
    wordValue (bytes ++ [b]) = wordValue bytes * 256 + b.toNat := by
  simp only [wordValue, List.foldl_append, List.foldl_cons, List.foldl_nil]

theorem wordValue_lt (bytes : List UInt8) : wordValue bytes < 256 ^ bytes.length := by
  induction bytes using List.reverseRecOn with
  | nil => simp [wordValue]
  | append_singleton bytes b ih =>
    have hb : b.toNat < 256 := b.toNat_lt
    rw [wordValue_concat, List.length_append, List.length_singleton, pow_succ]
    omega

theorem length_wordDigits (count n : Nat) : (wordDigits count n).length = count := by
  induction count generalizing n with
  | zero => rfl
  | succ count ih =>
    rw [wordDigits, List.length_append, ih]
    rfl

theorem wordDigits_wordValue (bytes : List UInt8) :
    wordDigits bytes.length (wordValue bytes) = bytes := by
  induction bytes using List.reverseRecOn with
  | nil => rfl
  | append_singleton bytes b ih =>
    have hb : b.toNat < 256 := b.toNat_lt
    have hdiv : (wordValue bytes * 256 + b.toNat) / 256 = wordValue bytes := by omega
    have hmod : (wordValue bytes * 256 + b.toNat) % 256 = b.toNat := by omega
    rw [wordValue_concat, List.length_append, List.length_singleton, wordDigits, hdiv, hmod, ih,
      UInt8.ofNat_toNat]

theorem wordValue_wordDigits (count n : Nat) (h : n < 256 ^ count) :
    wordValue (wordDigits count n) = n := by
  induction count generalizing n with
  | zero =>
    have h0 : n = 0 := by simpa using h
    rw [h0]
    rfl
  | succ count ih =>
    have hq : n / 256 < 256 ^ count := by
      rw [pow_succ] at h
      omega
    rw [wordDigits, wordValue_concat, ih _ hq, UInt8.toNat_ofNat']
    omega

/-! ### Full words -/

theorem length_fullWords (count : Nat) (bytes : List UInt8) :
    (fullWords count bytes).length = count := by
  induction count generalizing bytes with
  | zero => rfl
  | succ count ih => rw [fullWords, List.length_cons, ih]

/-- The words of bytes are those of a shorter piece and one more. -/
theorem fullWords_concat (count : Nat) (bytes : List UInt8) :
    fullWords (count + 1) bytes =
      fullWords count bytes ++ [wordValue ((bytes.drop (count * wordBytes)).take wordBytes)] := by
  induction count generalizing bytes with
  | zero => rw [Nat.zero_mul, List.drop_zero]; rfl
  | succ count ih =>
    rw [fullWords, ih, List.drop_drop, fullWords, List.cons_append, Nat.succ_mul,
      Nat.add_comm wordBytes]

/-- Only the bytes of the words themselves count. -/
theorem fullWords_append (count : Nat) (bytes more : List UInt8)
    (h : count * wordBytes ≤ bytes.length) :
    fullWords count (bytes ++ more) = fullWords count bytes := by
  induction count generalizing bytes with
  | zero => rfl
  | succ count ih =>
    have hw : wordBytes ≤ bytes.length := by
      rw [Nat.succ_mul] at h
      omega
    have hrest : count * wordBytes ≤ (bytes.drop wordBytes).length := by
      rw [List.length_drop]
      rw [Nat.succ_mul] at h
      omega
    rw [fullWords, fullWords, List.take_append_of_le_length hw, List.drop_append_of_le_length hw,
      ih _ hrest]

theorem fullWords_lt {count : Nat} {bytes : List UInt8} {e : Nat} (he : e ∈ fullWords count bytes) :
    e < 256 ^ wordBytes := by
  induction count generalizing bytes with
  | zero => simp [fullWords] at he
  | succ count ih =>
    rw [fullWords] at he
    rcases List.mem_cons.1 he with he | he
    · rw [he]
      have hlen : (bytes.take wordBytes).length ≤ wordBytes := List.length_take_le ..
      exact lt_of_lt_of_le (wordValue_lt _) (Nat.pow_le_pow_right (by decide) hlen)
    · exact ih he

theorem readWords_fullWords (count offset : Nat) (bytes : List UInt8) (rest : List Nat)
    (h : count * wordBytes ≤ bytes.length) :
    readWords count offset (fullWords count bytes ++ rest) =
      .ok (bytes.take (count * wordBytes), rest) := by
  induction count generalizing offset bytes with
  | zero => simp [readWords, fullWords]
  | succ count ih =>
    have hw : (bytes.take wordBytes).length = wordBytes := by
      rw [List.length_take]
      rw [Nat.succ_mul] at h
      omega
    have hlt : wordValue (bytes.take wordBytes) < Nat.pow 256 wordBytes := by
      have := wordValue_lt (bytes.take wordBytes)
      rwa [hw] at this
    have hrest : count * wordBytes ≤ (bytes.drop wordBytes).length := by
      rw [List.length_drop]
      rw [Nat.succ_mul] at h
      omega
    have hback : wordDigits wordBytes (wordValue (bytes.take wordBytes)) = bytes.take wordBytes := by
      have := wordDigits_wordValue (bytes.take wordBytes)
      rwa [hw] at this
    rw [fullWords, List.cons_append, readWords, if_neg (Nat.not_le.2 hlt), ih _ _ hrest]
    simp only [ok_bind, pure_eq_ok, hback]
    rw [Nat.succ_mul, Nat.add_comm, List.take_add]

/-- What was read as words are the words of the bytes. -/
theorem eq_fullWords_of_readWords {count offset : Nat} {s rest : List Nat} {bytes : List UInt8}
    (h : readWords count offset s = .ok (bytes, rest)) :
    bytes.length = count * wordBytes ∧ s = fullWords count bytes ++ rest := by
  induction count generalizing offset s bytes with
  | zero =>
    cases h
    exact ⟨by simp, rfl⟩
  | succ count ih =>
    cases s with
    | nil => cases h
    | cons word s =>
      rw [readWords] at h
      split at h
      · cases h
      · rename_i hword
        obtain ⟨⟨bs, rest'⟩, hr, hret⟩ := bind_eq_ok_iff.1 h
        simp only [pure_eq_ok, Except.ok.injEq, Prod.mk.injEq] at hret
        obtain ⟨rfl, rfl⟩ := hret
        obtain ⟨hlen, hs⟩ := ih hr
        have hl := length_wordDigits wordBytes word
        have hv := wordValue_wordDigits wordBytes word (Nat.lt_of_not_le hword)
        refine ⟨?_, ?_⟩
        · rw [List.length_append, hl, hlen, Nat.succ_mul]
          omega
        · rw [fullWords, List.take_left' hl, List.drop_left' hl, hv, hs]
          rfl

/-! ### Byte strings -/

theorem length_packBytes (bytes : List UInt8) :
    (packBytes bytes).length = bytes.length / wordBytes + 3 := by
  simp only [packBytes, List.cons_append, List.length_cons, List.length_append, length_fullWords,
    List.length_nil]

/-- The elements of a byte string behind its word count. -/
theorem packBytes_eq (bytes : List UInt8) :
    ∃ words, packBytes bytes = bytes.length / wordBytes :: words ∧
      words.length = bytes.length / wordBytes + 2 := by
  refine ⟨_, rfl, ?_⟩
  simp [length_fullWords]

/-- No element of a byte string exceeds what 31 bytes hold, unless it has as many words. -/
theorem packBytes_lt {bytes : List UInt8} {e : Nat} (h : bytes.length < 256 ^ wordBytes)
    (he : e ∈ packBytes bytes) : e < 256 ^ wordBytes := by
  have hrest : (bytes.drop (bytes.length / wordBytes * wordBytes)).length ≤ wordBytes := by
    rw [List.length_drop]
    have := Nat.div_add_mod' bytes.length wordBytes
    have := Nat.mod_lt bytes.length (show 0 < wordBytes by decide)
    omega
  simp only [packBytes, List.cons_append, List.mem_cons, List.mem_append, List.not_mem_nil,
    or_false] at he
  rcases he with he | he | he | he
  · rw [he]
    exact lt_of_le_of_lt (Nat.div_le_self ..) h
  · exact fullWords_lt he
  · rw [he]
    exact lt_of_lt_of_le (wordValue_lt _) (Nat.pow_le_pow_right (by decide) hrest)
  · rw [he]
    exact lt_of_le_of_lt hrest (Nat.lt_pow_self (by decide))

/-- The elements of a byte string of fewer than `2^64` bytes lie in the field. -/
theorem packBytes_lt_modulus {modulus : Int} (hp : 2 ^ 248 < modulus) {bytes : List UInt8}
    (hlen : bytes.length < 2 ^ 64) : ∀ n ∈ packBytes bytes, (n : Int) < modulus := by
  intro n hn
  have hwords : bytes.length < 256 ^ wordBytes := Nat.lt_trans hlen (by decide)
  have hlt := packBytes_lt hwords hn
  have hpow : (256 : Nat) ^ wordBytes = 2 ^ 248 := by decide
  omega

/-- Packed bytes are unpacked, whatever follows. -/
theorem unpackBytes_packBytes (offset : Nat) (bytes : List UInt8) (rest : List Nat) :
    unpackBytes offset (packBytes bytes ++ rest) = .ok (bytes, rest) := by
  have hdiv := Nat.div_add_mod' bytes.length wordBytes
  have hmod := Nat.mod_lt bytes.length (show 0 < wordBytes by decide)
  have hlen : (bytes.drop (bytes.length / wordBytes * wordBytes)).length < wordBytes := by
    rw [List.length_drop]
    omega
  have hpending : ¬Nat.pow 256 (bytes.drop (bytes.length / wordBytes * wordBytes)).length ≤
      wordValue (bytes.drop (bytes.length / wordBytes * wordBytes)) :=
    Nat.not_le.2 (wordValue_lt _)
  have hback := wordDigits_wordValue (bytes.drop (bytes.length / wordBytes * wordBytes))
  simp only [packBytes, List.cons_append, List.append_assoc, List.nil_append]
  rw [unpackBytes, if_neg (by simp [length_fullWords]),
    readWords_fullWords _ _ _ _ (by omega : bytes.length / wordBytes * wordBytes ≤ bytes.length)]
  simp only [ok_bind, pure_eq_ok]
  rw [if_neg (Nat.not_le.2 hlen), if_neg hpending]
  simp only [hback, List.take_append_drop]

/-- Elements that are unpacked are the packed bytes. -/
theorem eq_packBytes_of_unpackBytes {offset : Nat} {s rest : List Nat} {bytes : List UInt8}
    (h : unpackBytes offset s = .ok (bytes, rest)) : s = packBytes bytes ++ rest := by
  cases s with
  | nil => cases h
  | cons count s =>
    rw [unpackBytes] at h
    split at h
    · cases h
    obtain ⟨⟨full, s'⟩, hr, hdo⟩ := bind_eq_ok_iff.1 h
    obtain ⟨hfull, rfl⟩ := eq_fullWords_of_readWords hr
    clear h hr
    rcases s' with _ | ⟨pending, _ | ⟨length, s'⟩⟩
    · cases hdo
    · cases hdo
    · dsimp only at hdo
      by_cases hlen : wordBytes ≤ length
      · rw [if_pos hlen] at hdo
        cases hdo
      by_cases hpending : Nat.pow 256 length ≤ pending
      · rw [if_neg hlen, if_pos hpending] at hdo
        cases hdo
      rw [if_neg hlen, if_neg hpending] at hdo
      simp only [pure_eq_ok, Except.ok.injEq, Prod.mk.injEq] at hdo
      obtain ⟨rfl, rfl⟩ := hdo
      have hl := length_wordDigits length pending
      have hv := wordValue_wordDigits length pending (Nat.lt_of_not_le hpending)
      have hcount : (full ++ wordDigits length pending).length / wordBytes = count := by
        rw [List.length_append, hfull, hl, Nat.mul_comm, Nat.mul_add_div (by decide),
          Nat.div_eq_of_lt (Nat.lt_of_not_le hlen)]
        rfl
      simp only [packBytes, hcount, List.cons_append, List.append_assoc, List.nil_append]
      rw [List.drop_left' hfull, hv, hl, fullWords_append _ _ _ (le_of_eq hfull.symm)]

/-! ### Failures -/

theorem fault_of_readWords {count offset : Nat} {s : List Nat} {f : Failure}
    (h : readWords count offset s = .error f) :
    f.kind = .truncated ∨ f.kind = .elementOutOfRange := by
  induction count generalizing offset s with
  | zero => cases h
  | succ count ih =>
    cases s with
    | nil =>
      cases h
      exact .inl rfl
    | cons word rest =>
      rw [readWords] at h
      split at h
      · cases h
        exact .inr rfl
      · rcases bind_eq_error_iff.1 h with h | ⟨r, -, h⟩
        · exact ih h
        · cases h

/-- Elements that are no byte string are too few, or one of them is too large. -/
theorem fault_of_unpackBytes {offset : Nat} {s : List Nat} {f : Failure}
    (h : unpackBytes offset s = .error f) :
    f.kind = .truncated ∨ f.kind = .elementOutOfRange := by
  cases s with
  | nil =>
    cases h
    exact .inl rfl
  | cons count rest =>
    rw [unpackBytes] at h
    split at h
    · cases h
      exact .inl rfl
    · rcases bind_eq_error_iff.1 h with h | ⟨⟨bytes, rest'⟩, -, h⟩
      · exact fault_of_readWords h
      · rcases rest' with _ | ⟨pending, _ | ⟨length, rest'⟩⟩
        · cases h
          exact .inl rfl
        · cases h
          exact .inl rfl
        · dsimp only at h
          split at h
          · cases h
            exact .inr rfl
          · split at h <;> cases h
            exact .inr rfl

end FeltRelay.Codec
