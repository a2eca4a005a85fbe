import FeltRelay.Json.Reader
import FeltRelay.Json.Writer
import FeltRelay.Proofs.Text.Numeral
import FeltRelay.Proofs.Text.Utf8

/-!
# Texts in JSON read back

Every text is read back from the characters that are written for it, whether those beyond ASCII are
escaped or not (`readText_writeText`).
-/

namespace FeltRelay.Json

open FeltRelay.Text

/-! ### Escapes of units -/

/-- The escape of a unit has four digits, which spell it. -/
theorem unitEscape_eq {n : Nat} (h : n < 0x10000) :
    ∃ a b c d, unitEscape n = ['\\', 'u', a, b, c, d] ∧ unit? a b c d = some n := by
  obtain ⟨ds, hds, hvalue⟩ := mapM_padLeft (by decide : 2 ≤ 16) (by decide) 4 n
  have hlen : (padLeft 4 '0' (inBase 16 n)).length = 4 :=
    length_padLeft (length_inBase_le (k := 3) (by decide) h)
  rw [unitEscape]
  generalize padLeft 4 '0' (inBase 16 n) = s at hds hlen
  obtain ⟨a, b, c, d, rfl⟩ : ∃ a b c d, s = [a, b, c, d] := by
    rcases s with _ | ⟨a, _ | ⟨b, _ | ⟨c, _ | ⟨d, _ | ⟨e, s⟩⟩⟩⟩⟩ <;> simp at hlen
    exact ⟨a, b, c, d, rfl⟩
  refine ⟨a, b, c, d, rfl, ?_⟩
  simp only [List.mapM_cons, List.mapM_nil, Option.bind_eq_bind, Option.bind_eq_some_iff,
    Option.pure_def, Option.some.injEq] at hds
  obtain ⟨a', ha, _, ⟨b', hb, _, ⟨c', hc, _, ⟨d', hd, _, rfl, rfl⟩, rfl⟩, rfl⟩, rfl⟩ := hds
  rw [← hvalue, unit?, ha, hb, hc, hd]
  rfl

/-- A unit that begins no pair is a character by itself, whatever follows. -/
theorem readText_lone {m : Nat} (hm : Units.isHigh m = false) {a b c d : Char}
    (h : unit? a b c d = some m) (rest : List Char) :
    readText ('\\' :: 'u' :: a :: b :: c :: d :: rest) =
      (readText rest).map fun (s, r) => (Units.lone m :: s, r) := by
  by_cases hnext : ∃ e f g k rest', rest = '\\' :: 'u' :: e :: f :: g :: k :: rest'
  · obtain ⟨e, f, g, k, rest', rfl⟩ := hnext
    rw [readText, h]
    cases unit? e f g k with
    | none => rfl
    | some n => simp only [hm, Bool.false_and, Bool.false_eq_true, if_false]
  · rw [readText, h]
    intro e f g k rest' heq
    exact hnext ⟨e, f, g, k, rest', heq⟩

theorem readText_pair {m n : Nat} (hm : Units.isHigh m = true) (hn : Units.isLow n = true)
    {a b c d e f g k : Char} (h : unit? a b c d = some m) (h' : unit? e f g k = some n)
    (rest : List Char) :
    readText ('\\' :: 'u' :: a :: b :: c :: d :: '\\' :: 'u' :: e :: f :: g :: k :: rest) =
      (readText rest).map fun (s, r) => (Units.paired m n :: s, r) := by
  rw [readText, h, h']
  simp only [hm, hn, Bool.and_self, if_true]

/-! ### Characters -/

theorem readText_unitEscape {n : Nat} (h : n < 0xD800 ∨ 0xDFFF < n ∧ n < 0x10000)
    (rest : List Char) :
    readText (unitEscape n ++ rest) =
      (readText rest).map fun (s, r) => (Char.ofNat n :: s, r) := by
  obtain ⟨a, b, c, d, heq, hunit⟩ := unitEscape_eq (n := n) (by omega)
  have hhigh : Units.isHigh n = false := by
    rw [Units.isHigh, Bool.and_eq_false_iff, decide_eq_false_iff_not, decide_eq_false_iff_not]
    omega
  have hlow : Units.isLow n = false := by
    rw [Units.isLow, Bool.and_eq_false_iff, decide_eq_false_iff_not, decide_eq_false_iff_not]
    omega
  have hlone : Units.lone n = Char.ofNat n := by
    rw [Units.lone, hhigh, hlow]
    rfl
  rw [heq]
  have hread := readText_lone hhigh hunit rest
  rw [hlone] at hread
  exact hread

theorem readText_plain {c : Char} (h : ¬(c = '"' ∨ c = '\\')) (h32 : ¬c.toNat < 32)
    (rest : List Char) : readText (c :: rest) = (readText rest).map fun (s, r) => (c :: s, r) := by
  rw [not_or] at h
  have hguard : ¬(c.toNat < 32 ∨ c = '\\') := not_or.2 ⟨h32, h.2⟩
  rw [readText, if_neg hguard]
  · exact h.1
  · intro a b c' d e f g k rest' hc
    exact absurd hc h.2
  · intro a b c' d rest' hc
    exact absurd hc h.2
  · intro e rest' hc
    exact absurd hc h.2

/-- A character beyond the first plane is read back from its pair of units. -/
theorem readText_pairEscape {n : Nat} (h : 0x10000 ≤ n) (h' : n < 0x110000) (rest : List Char) :
    readText (unitEscape (0xD800 + (n - 0x10000) / 0x400) ++
        unitEscape (0xDC00 + (n - 0x10000) % 0x400) ++ rest) =
      (readText rest).map fun (s, r) => (Char.ofNat n :: s, r) := by
  obtain ⟨a, b, c, d, heq, hunit⟩ := unitEscape_eq (n := 0xD800 + (n - 0x10000) / 0x400) (by omega)
  obtain ⟨e, f, g, k, heq', hunit'⟩ := unitEscape_eq (n := 0xDC00 + (n - 0x10000) % 0x400) (by omega)
  have hhigh : Units.isHigh (0xD800 + (n - 0x10000) / 0x400) = true := by
    rw [Units.isHigh, Bool.and_eq_true, decide_eq_true_eq, decide_eq_true_eq]
    omega
  have hlow : Units.isLow (0xDC00 + (n - 0x10000) % 0x400) = true := by
    rw [Units.isLow, Bool.and_eq_true, decide_eq_true_eq, decide_eq_true_eq]
    omega
  have hpaired : Units.paired (0xD800 + (n - 0x10000) / 0x400) (0xDC00 + (n - 0x10000) % 0x400) =
      Char.ofNat n := by
    have hsum : 0x10000 + (0xD800 + (n - 0x10000) / 0x400 - 0xD800) * 0x400 +
        (0xDC00 + (n - 0x10000) % 0x400 - 0xDC00) = n := by omega
    rw [Units.paired, hsum]
  rw [heq, heq']
  have hread := readText_pair hhigh hlow hunit hunit' rest
  rw [hpaired] at hread
  exact hread

/-- A character is read back from what is written for it. -/
theorem readText_escapedChar (ascii : Bool) (c : Char) (rest : List Char) :
    readText (escapedChar ascii c ++ rest) =
      (readText rest).map fun (s, r) => (c :: s, r) := by
  have hrange := Utf8.toNat_range c
  have hback : Char.ofNat c.toNat = c := Char.ofNat_toNat c
  unfold escapedChar
  dsimp only
  split_ifs with h1 h2 h3 h4 h5 h6 h7 h8 h9
  · rcases h1 with rfl | rfl <;> rfl
  · subst h2
    rfl
  · subst h3
    rfl
  · subst h4
    rfl
  · have hc : c = Char.ofNat 8 := by rw [← hback, h5]
    subst hc
    rfl
  · have hc : c = Char.ofNat 12 := by rw [← hback, h6]
    subst hc
    rfl
  · have hread := readText_unitEscape (n := c.toNat) (by omega) rest
    rwa [hback] at hread
  · exact readText_plain h1 h7 rest
  · have hread := readText_unitEscape (n := c.toNat) (by omega) rest
    rwa [hback] at hread
  · have hread := readText_pairEscape (n := c.toNat) (by omega) (by omega) rest
    rwa [hback] at hread

/-! ### Texts -/

theorem readText_flatMap (ascii : Bool) (s rest : List Char) :
    readText (s.flatMap (escapedChar ascii) ++ '"' :: rest) = some (s, rest) := by
  induction s with
  | nil => rfl
  | cons c s ih =>
    rw [List.flatMap_cons, List.append_assoc, readText_escapedChar, ih]
    rfl

/-- A text is read back from what is written after its opening quote. -/
theorem readText_writeText (ascii : Bool) (s : String) (rest : List Char) :
    ∃ body, writeText ascii s ++ rest = '"' :: body ∧ readText body = some (s.toList, rest) := by
  refine ⟨s.toList.flatMap (escapedChar ascii) ++ '"' :: rest, ?_, readText_flatMap ..⟩
  simp [writeText]

end FeltRelay.Json
