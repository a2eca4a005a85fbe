import FeltRelay.Cairo.Identifier
import FeltRelay.Proofs.Cairo.Lexeme
import FeltRelay.Proofs.Schema.Naming
import FeltRelay.Proofs.Text.Literal

/-!
# Identifiers of names

An identifier is one word of a file, whatever the name (`isWord_identifier`). Of variants different
names have different identifiers (`identifier_inj`): what an identifier adds to such a name are
underscores, of which the name has none.
-/

namespace FeltRelay.Cairo

open FeltRelay.Text FeltRelay.Schema.Naming

theorem isWordChar_identifierChar (c : Char) : isWordChar (identifierChar c) = true := by
  rw [identifierChar]
  split
  · rename_i h
    exact h
  · decide

theorem isWord_identifier (name : String) : IsWord (identifier name).toList := by
  have hmapped : ∀ c ∈ (trimChars name.toList).map identifierChar, isWordChar c = true := by
    intro c hc
    obtain ⟨d, -, rfl⟩ := List.mem_map.1 hc
    exact isWordChar_identifierChar d
  have hunderscore : isWordChar '_' = true := by decide
  have hword : ∀ {s : List Char}, IsWord s →
      IsWord (if keywords.contains (String.ofList s) then s ++ ['_'] else s) := by
    intro s hs
    split
    · exact hs.append fun c hc => List.mem_singleton.1 hc ▸ hunderscore
    · exact hs
  have hfirst : IsWord (if ((trimChars name.toList).map identifierChar).isEmpty then ['x']
      else (trimChars name.toList).map identifierChar) := by
    split
    · exact ⟨by simp, fun c hc => List.mem_singleton.1 hc ▸ by decide⟩
    · rename_i hne
      exact ⟨by simpa using hne, hmapped⟩
  have hdigit : ∀ {s : List Char}, IsWord s →
      IsWord (if s.head?.any isDigitLike then '_' :: s else s) := by
    intro s hs
    split
    · refine ⟨by simp, fun c hc => ?_⟩
      rcases List.mem_cons.1 hc with rfl | hc
      · exact hunderscore
      · exact hs.chars c hc
    · exact hs
  rw [identifier, String.toList_ofList]
  exact hdigit (hword hfirst)

/-! ### Variants -/

theorem not_isBlank_of_isAlphanum {c : Char} (h : c.isAlphanum = true) : isBlank c = false := by
  have hall : c.isAlphanum = true → isBlank c = false :=
    of_ascii (p := fun c => c.isAlphanum = true → isBlank c = false) (by decide +kernel)
      (lt_of_isAlphanum h)
  exact hall h

theorem isWordChar_of_isAlphanum {c : Char} (h : c.isAlphanum = true) : isWordChar c = true := by
  have hal : isAlphanumeric c = true := by rw [isAlphanumeric, if_pos (lt_of_isAlphanum h), h]
  rw [isWordChar, hal, Bool.true_or]

theorem identifierChar_of_isAlphanum {c : Char} (h : c.isAlphanum = true) :
    identifierChar c = c := if_pos (isWordChar_of_isAlphanum h)

theorem ne_underscore_of_isAlphanum {c : Char} (h : c.isAlphanum = true) : c ≠ '_' := by
  rintro rfl
  exact absurd h (by decide)

/-- The identifier of letters and digits is these, but for underscores. -/
theorem filter_identifier {name : String} (h : ∀ c ∈ name.toList, c.isAlphanum = true) :
    (identifier name).toList.filter (· ≠ '_') =
      if name.toList.isEmpty then ['x'] else name.toList := by
  have hmap : (trimChars name.toList).map identifierChar = name.toList := by
    rw [trimChars_of_forall_not fun c hc => not_isBlank_of_isAlphanum (h c hc)]
    exact (List.map_congr_left fun c hc => identifierChar_of_isAlphanum (h c hc)).trans
      (List.map_id _)
  have hclean : (if name.toList.isEmpty then ['x'] else name.toList).filter (· ≠ '_') =
      if name.toList.isEmpty then ['x'] else name.toList := by
    split
    · rfl
    · exact List.filter_eq_self.2 fun c hc => decide_eq_true (ne_underscore_of_isAlphanum (h c hc))
  have hword : ∀ u : List Char, (if keywords.contains (String.ofList u) then u ++ ['_'] else u).filter
      (· ≠ '_') = u.filter (· ≠ '_') := by
    intro u
    split
    · simp [List.filter_append]
    · rfl
  have hdigit : ∀ u : List Char, (if u.head?.any isDigitLike then '_' :: u else u).filter
      (· ≠ '_') = u.filter (· ≠ '_') := by
    intro u
    split
    · simp
    · rfl
  rw [identifier, String.toList_ofList, hmap]
  exact (hdigit _).trans ((hword _).trans hclean)

/-- Different variants have different identifiers. -/
theorem identifier_inj {s t : String} (hs : IsVariantName s.toList) (ht : IsVariantName t.toList)
    (h : identifier s = identifier t) : s = t := by
  have heq := filter_identifier hs.alphanumeric
  rw [h, filter_identifier ht.alphanumeric] at heq
  -- The empty name becomes a small letter, which no variant begins with.
  have hx : ∀ {u : List Char}, IsVariantName u → u ≠ ['x'] := by
    rintro _ hu rfl
    exact absurd (hu.head 'x' rfl) (by decide)
  split_ifs at heq with hnil hnil' hnil'
  · exact String.toList_inj.1 ((List.isEmpty_iff.1 hnil').trans (List.isEmpty_iff.1 hnil).symm)
  · exact absurd heq.symm (hx hs)
  · exact absurd heq (hx ht)
  · exact (String.toList_inj.1 heq).symm

end FeltRelay.Cairo
