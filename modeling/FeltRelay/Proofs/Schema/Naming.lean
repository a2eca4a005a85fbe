import FeltRelay.Schema.Naming
import Mathlib.Data.List.Flatten

/-!
# Names made of ASCII names

The small form of an ASCII name consists of small letters, digits and underscores
(`of_mem_snake`), and a variant's name of letters and digits, a small letter not being the first of
them (`isVariantName_variant`).
-/

namespace FeltRelay.Schema.Naming

open FeltRelay.Text

/-- What holds of all 128 characters holds of an ASCII character. -/
theorem of_ascii {p : Char → Prop} (h : ∀ n < 128, p (Char.ofNat n)) {c : Char}
    (hc : c.toNat < 128) : p c := by
  have hp := h c.toNat hc
  rwa [Char.ofNat_toNat] at hp

theorem lt_of_isAlphanum {c : Char} (h : c.isAlphanum = true) : c.toNat < 128 := by
  have hupper : c.isUpper = true → c.val ≤ 'Z'.val := fun h => (of_decide_eq_true h).2
  have hlower : c.isLower = true → c.val ≤ 'z'.val := fun h =>
    of_decide_eq_true (Bool.and_eq_true_iff.1 h).2
  have hdigit : c.isDigit = true → c.val ≤ '9'.val := fun h =>
    of_decide_eq_true (Bool.and_eq_true_iff.1 h).2
  have hlt : ∀ d : Char, d.toNat < 128 → c.val ≤ d.val → c.toNat < 128 := fun d hd hle =>
    Nat.lt_of_le_of_lt (UInt32.le_iff_toNat_le.1 hle) hd
  have hcases : (c.isUpper || c.isLower || c.isDigit) = true := h
  rw [Bool.or_eq_true, Bool.or_eq_true] at hcases
  rcases hcases with (h | h) | h
  · exact hlt 'Z' (by decide) (hupper h)
  · exact hlt 'z' (by decide) (hlower h)
  · exact hlt '9' (by decide) (hdigit h)

theorem isAlphanum_of_isLower_or_isDigit {c : Char} (h : c.isLower = true ∨ c.isDigit = true) :
    c.isAlphanum = true := by
  show (c.isUpper || c.isLower || c.isDigit) = true
  rcases h with h | h <;> simp [h]

theorem isLower_or_isDigit_toLower {c : Char} (h : c.isAlphanum = true) :
    c.toLower.isLower = true ∨ c.toLower.isDigit = true := by
  have hall : c.isAlphanum = true → c.toLower.isLower = true ∨ c.toLower.isDigit = true :=
    of_ascii (p := fun c => c.isAlphanum = true →
      c.toLower.isLower = true ∨ c.toLower.isDigit = true) (by decide +kernel) (lt_of_isAlphanum h)
  exact hall h

/-! ### Small letters -/

theorem of_mem_snakeFrom {s : List Char} (hs : ∀ c ∈ s, c.toNat < 128) {afterSmall : Bool} {c : Char}
    (h : c ∈ snakeFrom afterSmall s) : c = '_' ∨ c.isLower = true ∨ c.isDigit = true := by
  induction s generalizing afterSmall with
  | nil => simp [snakeFrom] at h
  | cons d s ih =>
    have hd : d.toNat < 128 := hs d (List.mem_cons_self ..)
    have htail : ∀ c ∈ s, c.toNat < 128 := fun c hc => hs c (List.mem_cons_of_mem _ hc)
    rw [snakeFrom] at h
    split at h
    · rename_i hal
      simp only [List.mem_append, smallOf, hd, if_true, List.mem_singleton] at h
      rcases h with (hlead | rfl) | h
      · split at hlead
        · exact .inl (List.mem_singleton.1 hlead)
        · simp at hlead
      · simp only [isAlphanumeric, hd, if_true] at hal
        exact .inr (isLower_or_isDigit_toLower hal)
      · exact ih htail h
    · rcases List.mem_cons.1 h with rfl | h
      · exact .inl rfl
      · exact ih htail h

/-- The characters between underscores. -/
theorem of_mem_splitOnP {s w : List Char} (hw : w ∈ s.splitOnP (· = '_')) {c : Char} (hc : c ∈ w) :
    c ∈ s ∧ c ≠ '_' := by
  induction s generalizing w with
  | nil =>
    rw [List.splitOnP_nil, List.mem_singleton] at hw
    simp [hw] at hc
  | cons d s ih =>
    rw [List.splitOnP_cons_eq_if_modifyHead] at hw
    split at hw
    · rcases List.mem_cons.1 hw with rfl | hw
      · cases hc
      · exact ⟨List.mem_cons_of_mem _ (ih hw hc).1, (ih hw hc).2⟩
    · rename_i hd
      -- The character goes to the front of the first piece; the others are those behind it.
      cases hrest : s.splitOnP (· = '_') with
      | nil => exact absurd hrest (by simp)
      | cons v vs =>
        rw [hrest, List.modifyHead_cons] at hw
        rw [hrest] at ih
        rcases List.mem_cons.1 hw with rfl | hw
        · rcases List.mem_cons.1 hc with rfl | hc
          · exact ⟨List.mem_cons_self .., by simpa using hd⟩
          · have := ih (List.mem_cons_self ..) hc
            exact ⟨List.mem_cons_of_mem _ this.1, this.2⟩
        · have := ih (List.mem_cons_of_mem _ hw) hc
          exact ⟨List.mem_cons_of_mem _ this.1, this.2⟩

/-- The words of an ASCII name are not empty and consist of small letters and digits. -/
theorem of_mem_snakeWords {s w : List Char} (hs : ∀ c ∈ s, c.toNat < 128) (hw : w ∈ snakeWords s) :
    w ≠ [] ∧ ∀ c ∈ w, c.isLower = true ∨ c.isDigit = true := by
  rw [snakeWords, wordsOf, List.mem_filter] at hw
  refine ⟨by simpa using hw.2, fun c hc => ?_⟩
  obtain ⟨hmem, hne⟩ := of_mem_splitOnP hw.1 hc
  exact (of_mem_snakeFrom hs hmem).resolve_left hne

theorem not_mem_of_mem_snakeWords {s w : List Char} (hs : ∀ c ∈ s, c.toNat < 128)
    (hw : w ∈ snakeWords s) : w ≠ [] ∧ '_' ∉ w := by
  obtain ⟨hne, hchars⟩ := of_mem_snakeWords hs hw
  exact ⟨hne, fun hmark => absurd (hchars '_' hmark) (by decide)⟩

theorem of_mem_intercalate {sep : Char} {ws : List (List Char)} {c : Char}
    (h : c ∈ [sep].intercalate ws) : c = sep ∨ ∃ w ∈ ws, c ∈ w := by
  rw [List.intercalate, List.mem_flatten] at h
  obtain ⟨w, hw, hc⟩ := h
  induction ws with
  | nil => simp at hw
  | cons v ws ih =>
    cases ws with
    | nil => exact .inr ⟨w, by simpa using hw, hc⟩
    | cons u us =>
      rw [List.intersperse_cons_cons] at hw
      rcases List.mem_cons.1 hw with rfl | hw
      · exact .inr ⟨w, List.mem_cons_self .., hc⟩
      rcases List.mem_cons.1 hw with rfl | hw
      · exact .inl (List.mem_singleton.1 hc)
      · refine (ih hw).imp_right ?_
        rintro ⟨w, hw, hc⟩
        exact ⟨w, List.mem_cons_of_mem _ hw, hc⟩

/-- The small form of an ASCII name. -/
theorem of_mem_snake {s : String} (hs : ∀ c ∈ s.toList, c.toNat < 128) {c : Char}
    (h : c ∈ (snake s).toList) : c = '_' ∨ c.isLower = true ∨ c.isDigit = true := by
  rw [snake, String.toList_ofList] at h
  refine (of_mem_intercalate h).imp_right ?_
  rintro ⟨w, hw, hc⟩
  exact (of_mem_snakeWords hs hw).2 c hc

/-- A text without an underscore at either end. -/
structure IsBare (s : List Char) : Prop where
  head : s.head? ≠ some '_'
  last : s.getLast? ≠ some '_'

theorem isBare_intercalate {ws : List (List Char)} (h : ∀ w ∈ ws, w ≠ [] ∧ '_' ∉ w) :
    IsBare (['_'].intercalate ws) := by
  have hword : ∀ w ∈ ws, IsBare w := fun w hw =>
    ⟨fun heq => (h w hw).2 (List.mem_of_mem_head? heq),
      fun heq => (h w hw).2 (List.mem_of_mem_getLast? heq)⟩
  induction ws with
  | nil => exact ⟨by simp, by simp⟩
  | cons w ws ih =>
    obtain ⟨hne, -⟩ := h w (List.mem_cons_self ..)
    have hw := hword w (List.mem_cons_self ..)
    cases ws with
    | nil => simpa using hw
    | cons u us =>
      have hrest := ih (fun v hv => h v (List.mem_cons_of_mem _ hv))
        fun v hv => hword v (List.mem_cons_of_mem _ hv)
      obtain ⟨hneu, -⟩ := h u (by simp)
      have hlast : ['_'].intercalate (u :: us) ≠ [] := by
        cases us with
        | nil => simpa using hneu
        | cons v vs => simp [List.intercalate_cons_cons]
      obtain ⟨c, cs, hcs⟩ := List.exists_cons_of_ne_nil hne
      refine ⟨?_, ?_⟩
      · have hhead := hw.head
        rw [List.intercalate_cons_cons, hcs]
        rwa [hcs] at hhead
      · have hsome := List.getLast?_eq_some_getLast hlast
        rw [List.intercalate_cons_cons, List.getLast?_append, hsome, Option.some_or, ← hsome]
        exact hrest.last

theorem isBare_snake {s : String} (hs : ∀ c ∈ s.toList, c.toNat < 128) : IsBare (snake s).toList := by
  rw [snake, String.toList_ofList]
  exact isBare_intercalate fun w hw => not_mem_of_mem_snakeWords hs hw

/-! ### Variants -/

/-- Letters and digits, of which the first is no small letter. -/
structure IsVariantName (s : List Char) : Prop where
  alphanumeric : ∀ c ∈ s, c.isAlphanum = true
  head : ∀ c ∈ s.head?, c.isLower = false

theorem of_toUpper {c : Char} (h : c.isLower = true ∨ c.isDigit = true) :
    c.toUpper.isAlphanum = true ∧ c.toUpper.isLower = false := by
  have hall : c.isLower = true ∨ c.isDigit = true →
      c.toUpper.isAlphanum = true ∧ c.toUpper.isLower = false :=
    of_ascii (p := fun c => c.isLower = true ∨ c.isDigit = true →
      c.toUpper.isAlphanum = true ∧ c.toUpper.isLower = false) (by decide +kernel)
      (lt_of_isAlphanum (isAlphanum_of_isLower_or_isDigit h))
  exact hall h

/-- A word with a capital in front, before any other letters and digits. -/
theorem IsVariantName.capitalized_append {w s : List Char} (hne : w ≠ [])
    (hw : ∀ c ∈ w, c.isLower = true ∨ c.isDigit = true) (hs : ∀ c ∈ s, c.isAlphanum = true) :
    IsVariantName (capitalized w ++ s) := by
  cases w with
  | nil => exact absurd rfl hne
  | cons d w =>
    have hd := hw d (List.mem_cons_self ..)
    have hlt := lt_of_isAlphanum (isAlphanum_of_isLower_or_isDigit hd)
    have hcap : capitalOf d = [d.toUpper] := by rw [capitalOf, if_pos hlt]
    rw [capitalized, hcap, List.singleton_append, List.cons_append]
    refine ⟨fun c hc => ?_, fun c hc => ?_⟩
    · simp only [List.mem_cons, List.mem_append] at hc
      rcases hc with rfl | hc | hc
      · exact (of_toUpper hd).1
      · exact isAlphanum_of_isLower_or_isDigit (hw c (List.mem_cons_of_mem _ hc))
      · exact hs c hc
    · cases hc
      exact (of_toUpper hd).2

theorem isVariantName_upperCamel {s : String} (hs : ∀ c ∈ s.toList, c.toNat < 128) :
    IsVariantName (upperCamel s).toList := by
  have hall : ∀ ws : List (List Char), (∀ w ∈ ws, w ≠ [] ∧
      ∀ c ∈ w, c.isLower = true ∨ c.isDigit = true) → IsVariantName (ws.flatMap capitalized) := by
    intro ws hws
    induction ws with
    | nil => exact ⟨by simp, by simp⟩
    | cons w ws ih =>
      have hrest := ih fun v hv => hws v (List.mem_cons_of_mem _ hv)
      obtain ⟨hne, hw⟩ := hws w (List.mem_cons_self ..)
      exact .capitalized_append hne hw hrest.alphanumeric
  rw [upperCamel, String.toList_ofList]
  exact hall _ fun w hw => of_mem_snakeWords hs hw

theorem not_isLower_of_isCapital {c : Char} (hal : c.isAlphanum = true) (h : isCapital c = true) :
    c.isLower = false := by
  have hlt := lt_of_isAlphanum hal
  have hall : c.isUpper = true → c.isLower = false :=
    of_ascii (p := fun c => c.isUpper = true → c.isLower = false) (by decide +kernel) hlt
  rw [isCapital, if_pos hlt] at h
  exact hall h

/-- Dropping an enumeration's name leaves a variant's name. -/
theorem isVariantName_stripEnumName {enum variant : String} (h : IsVariantName variant.toList) :
    IsVariantName (stripEnumName enum variant).toList := by
  rw [stripEnumName]
  split
  · rename_i c rest hstripped
    split
    · rename_i hcap
      have hsub : ∀ d ∈ c :: rest, d ∈ variant.toList := by
        intro d hd
        rw [← hstripped] at hd
        split at hd
        · exact List.mem_of_mem_drop hd
        · exact hd
      rw [String.toList_ofList, hstripped]
      have hal := fun d hd => h.alphanumeric d (hsub d hd)
      refine ⟨hal, fun d hd => ?_⟩
      cases hd
      exact not_isLower_of_isCapital (hal c (List.mem_cons_self ..)) hcap
    · exact h
  · exact h

end FeltRelay.Schema.Naming
