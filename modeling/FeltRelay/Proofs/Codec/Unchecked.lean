import FeltRelay.Codec.Unchecked
import FeltRelay.Proofs.Codec.Flat.Element

/-!
# Byte strings read by their indices

The reading of a byte string by indices, of which nothing is known, can miss an item and can meet
one that is no integer. Behind the checks that the decoders make first it can do neither: it finds
what the reading from the front finds (`unpackBytes_of_checked`). On integers it is the inverse of
packing (`unpackBytes_inverse`).
-/

namespace FeltRelay.Codec.Unchecked

open FeltRelay.Schema FeltRelay.Text

variable {items more : List Json} {place : Nat}

/-! ### Single items -/

theorem itemAt_of_drop {v : Json} (h : items.drop place = v :: more) :
    itemAt items place = .ok v := by
  have hget : items[place]? = some v := by
    rw [← Nat.add_zero place, ← List.getElem?_drop, h]
    rfl
  have hplace :
      (if (place : Int) < 0 then items.length + (place : Int) else place).toNat = place := by
    rw [if_neg (by omega), Int.toNat_natCast]
  rw [itemAt, hplace, hget]
  exact if_neg (by omega)

theorem drop_next {v : Json} (h : items.drop place = v :: more) :
    items.drop (place + 1) = more := by
  rw [← List.drop_drop, h]
  rfl

theorem length_of_drop {v : Json} (h : items.drop place = v :: more) :
    items.length = place + more.length + 1 := by
  have hlen := congrArg List.length h
  rw [List.length_drop, List.length_cons] at hlen
  omega

theorem integer?_item (n : Nat) : integer? (item n) = some (n : Int) := rfl

theorem compareItem_item (n : Nat) (bound : Int) :
    compareItem (item n) bound = .ok (some (compare (n : Int) bound)) := rfl

theorem reaches_item (n bound : Nat) : reaches (item n) bound = .ok (decide (bound ≤ n)) := by
  rw [reaches, compareItem_item, ok_bind, pure_eq_ok]
  refine congrArg _ (Bool.eq_iff_iff.2 ?_)
  simp only [Bool.or_eq_true, decide_eq_true_eq, Option.some.injEq, compare_gt_iff_gt,
    compare_eq_iff_eq]
  omega

theorem exceeds_item (n : Nat) (bound : Int) :
    exceeds (item n) bound = .ok (decide (bound < n)) := by
  rw [exceeds, compareItem_item, ok_bind, pure_eq_ok]
  refine congrArg _ (Bool.eq_iff_iff.2 ?_)
  simp only [decide_eq_true_eq, Option.some.injEq, compare_gt_iff_gt]

theorem bytesOf_item (count n : Nat) : bytesOf count (item n) = .ok (wordDigits count n) := rfl

theorem shown_item (n : Nat) : (item n).shown = decimal n := by
  rw [item, Json.shown, integer, if_neg (by omega)]
  rfl

/-! ### Words -/

/-- Words that are integers are read as from the front. -/
theorem readWords_of_drop {words : List Nat} (h : items.drop place = words.map item ++ more)
    {count : Nat} (hcount : count ≤ words.length) :
    readWords items count place =
      Attempt.ofExcept ((Codec.readWords count place words).map (·.1)) := by
  induction count generalizing place words with
  | zero => rfl
  | succ count ih =>
    cases words with
    | nil => cases hcount
    | cons word words =>
      have hnext := ih (drop_next h) (Nat.le_of_succ_le_succ hcount)
      rw [Nat.cast_succ] at hnext
      rw [readWords, itemAt_of_drop h, ok_bind, reaches_item, ok_bind, Codec.readWords]
      by_cases hbig : Nat.pow 256 wordBytes ≤ word
      · rw [if_pos (decide_eq_true hbig), if_pos hbig]
        rfl
      · rw [if_neg (mt of_decide_eq_true hbig), if_neg hbig, bytesOf_item, ok_bind, hnext]
        cases Codec.readWords count (place + 1) words <;> rfl

theorem rest_of_readWords {count offset : Nat} {words rest : List Nat} {bytes : List UInt8}
    (h : Codec.readWords count offset words = .ok (bytes, rest)) : rest = words.drop count := by
  obtain ⟨-, rfl⟩ := eq_fullWords_of_readWords h
  exact (List.drop_left' (length_fullWords count bytes)).symm

/-- Two elements follow the words of a byte string. -/
theorem exists_pending {count : Nat} {words : List Nat} (h : count + 2 ≤ words.length) :
    ∃ pending length left, words.drop count = pending :: length :: left := by
  have htwo : 2 ≤ (words.drop count).length := by
    rw [List.length_drop]
    omega
  generalize words.drop count = tail at htwo ⊢
  rcases tail with _ | ⟨pending, _ | ⟨length, left⟩⟩
  · simp at htwo
  · simp at htwo
  · exact ⟨pending, length, left, rfl⟩

/-! ### Byte strings -/

/-- The word count is compared with what is there, which is what is known or more. -/
theorem exceeds_count {count : Nat} {words : List Nat} {v : Json}
    (h : items.drop place = v :: (words.map item ++ more))
    (hmore : count + 2 ≤ words.length ∨ more = []) :
    exceeds (item count) (items.length - (place + 1) - 2) =
      .ok (decide (words.length < count + 2)) := by
  have hlen := length_of_drop h
  rw [List.length_append, List.length_map] at hlen
  rw [exceeds_item]
  refine congrArg _ (decide_eq_decide.2 ?_)
  rcases hmore with hmore | rfl
  · omega
  · rw [List.length_nil] at hlen
    omega

theorem drop_words {count : Nat} {words left : List Nat}
    (h : items.drop place = words.map item ++ more) (hcount : count ≤ words.length)
    (hleft : words.drop count = left) : items.drop (place + count) = left.map item ++ more := by
  rw [← List.drop_drop, h, List.drop_append_of_le_length, ← List.map_drop, hleft]
  rwa [List.length_map]

/-- A byte string is read by indices as from the front, if as many elements as it claims are there or
nothing follows those that are. -/
theorem unpackBytes_of_drop {count : Nat} {words : List Nat}
    (h : items.drop place = (count :: words).map item ++ more)
    (hmore : count + 2 ≤ words.length ∨ more = []) :
    unpackBytes items place = Attempt.ofExcept
      ((Codec.unpackBytes place (count :: words)).map fun r =>
        (r.1, ((place + count + 3 : Nat) : Int))) := by
  rw [List.map_cons, List.cons_append] at h
  have hlen := length_of_drop h
  have hhere : ¬(items.length : Int) ≤ place := by omega
  rw [unpackBytes, if_neg hhere, itemAt_of_drop h]
  simp only [ok_bind, pure_eq_ok, exceeds_count h hmore, Codec.unpackBytes]
  by_cases hshort : words.length < count + 2
  · rw [if_pos (decide_eq_true hshort), if_pos hshort, shown_item]
    rfl
  rw [if_neg (mt of_decide_eq_true hshort), if_neg hshort]
  -- Both readings go on with the words, and behind these are the two elements that end them.
  obtain ⟨pending, length, left, hlast⟩ := exists_pending (Nat.le_of_not_lt hshort)
  have hcount : count ≤ words.length := by omega
  have hends := drop_words (drop_next h) hcount hlast
  have hpending := itemAt_of_drop hends
  have hlength := itemAt_of_drop (drop_next hends)
  have hread := readWords_of_drop (drop_next h) hcount
  push_cast at hpending hlength hread
  simp only [integer?_item, Int.toNat_natCast, hread]
  cases hwords : Codec.readWords count (place + 1) words with
  | error f => rfl
  | ok r =>
    obtain ⟨bytes, rest⟩ := r
    obtain rfl : rest = pending :: length :: left := (rest_of_readWords hwords).trans hlast
    simp only [map_ok, Attempt.ofExcept, ok_bind, hpending, hlength, reaches_item]
    by_cases hlong : wordBytes ≤ length
    · rw [if_pos (decide_eq_true hlong), if_pos hlong]
      rfl
    rw [if_neg (mt of_decide_eq_true hlong), if_neg hlong]
    simp only [integer?_item, Int.toNat_natCast]
    rw [if_neg (by omega)]
    by_cases hwide : Nat.pow 256 length ≤ pending
    · rw [if_pos (decide_eq_true hwide), if_pos hwide]
      rfl
    rw [if_neg (mt of_decide_eq_true hwide), if_neg hwide]
    have hbehind : (place : Int) + 1 + count + 2 = ((place + count + 3 : Nat) : Int) := by omega
    by_cases hzero : length = 0
    · subst hzero
      rw [if_pos Int.natCast_zero, hbehind]
      rfl
    · rw [if_neg (by exact_mod_cast hzero), bytesOf_item, ok_bind, hbehind]
      rfl

/-- Behind the checks of its elements a byte string is read by indices as from the front. -/
theorem unpackBytes_of_checked {modulus : Int} {count : Nat} {words : List Nat}
    (h : Flat.checkElements modulus place ((items.drop place).take (count + 3)) =
      .ok (count :: words)) :
    unpackBytes items place = Attempt.ofExcept
      ((Codec.unpackBytes place (count :: words)).map fun r =>
        (r.1, ((place + count + 3 : Nat) : Int))) := by
  have htake := Flat.eq_items_of_checkElements h
  have hdrop : items.drop place =
      (count :: words).map item ++ (items.drop place).drop (count + 3) := by
    rw [← htake, List.take_append_drop]
  have hlen := congrArg List.length htake
  rw [List.length_take, List.length_map, List.length_cons] at hlen
  refine unpackBytes_of_drop hdrop ?_
  by_cases hall : count + 3 ≤ (items.drop place).length
  · left
    omega
  · exact .inr (List.drop_eq_nil_of_le (by omega))

/-- A sequence of integers is read by indices as from its front, and the place behind a byte string
is found by what is left. -/
theorem unpackBytes_items (elements : List Nat) (offset : Nat) :
    unpackBytes (elements.map item) offset =
      Attempt.ofExcept ((unpackBytesAt elements offset).map fun r => (r.1, (r.2 : Int))) := by
  rw [unpackBytesAt]
  cases hdrop : elements.drop offset with
  | nil =>
    have hbeyond := List.drop_eq_nil_iff.1 hdrop
    rw [unpackBytes, if_pos (by rw [List.length_map]; omega)]
    rfl
  | cons count words =>
    have hitems : (elements.map item).drop offset = (count :: words).map item ++ [] := by
      rw [← List.map_drop, hdrop, List.append_nil]
    rw [unpackBytes_of_drop hitems (.inr rfl)]
    cases hread : Codec.unpackBytes offset (count :: words) with
    | error f => rfl
    | ok r =>
      obtain ⟨bytes, rest⟩ := r
      obtain ⟨tail, hpack, htail⟩ := packBytes_eq bytes
      have heq := eq_packBytes_of_unpackBytes hread
      rw [hpack, List.cons_append, List.cons.injEq] at heq
      obtain ⟨rfl, rfl⟩ := heq
      have hlen := congrArg List.length hdrop
      rw [List.length_drop, List.length_cons, List.length_append, htail] at hlen
      have hstop : offset + bytes.length / wordBytes + 3 = elements.length - rest.length := by omega
      simp only [map_ok, ok_bind, pure_eq_ok, hstop]

end FeltRelay.Codec.Unchecked
