import FeltRelay.Proofs.Result
import FeltRelay.Schema.Definitions.Token

/-!
# The characters of tokens

A token that is a name consists of ASCII letters, digits, underscores and dots
(`isNameChar_of_mem_tokenize`) and does not begin with a digit (`isName_of_mem_tokenize`). Only marks
are written as marks (`mark_of_mem_tokenize`).
-/

namespace FeltRelay.Schema.Definitions

open FeltRelay.Text

/-- A character of a possibly dotted name. -/
def IsNameChar (c : Char) : Prop := isNamePart c = true ∨ c = '.'

theorem isNamePart_of_isNameStart {c : Char} (h : isNameStart c = true) : isNamePart c = true := by
  simp only [isNameStart, isNamePart, Char.isAlphanum, Bool.or_eq_true] at h ⊢
  tauto

theorem isNameChar_of_mem_nameTail {s : List Char} {c : Char} (h : c ∈ s.take (nameTail s)) :
    IsNameChar c := by
  induction s using nameTail.induct with
  | case1 => simp at h
  | case2 d rest hd ih =>
    simp only [nameTail, hd, if_true, List.take_succ_cons, List.mem_cons] at h
    rcases h with rfl | rfl | h
    · exact .inr rfl
    · exact .inl (isNamePart_of_isNameStart hd)
    · exact ih h
  | case3 d rest hd => simp [nameTail, hd] at h
  | case4 d rest hdot hd ih =>
    rw [nameTail.eq_3 _ _ hdot, if_pos hd, List.take_succ_cons, List.mem_cons] at h
    rcases h with rfl | h
    · exact .inl hd
    · exact ih h
  | case5 d rest hdot hd =>
    rw [nameTail.eq_3 _ _ hdot, if_neg hd] at h
    simp at h

theorem isNameChar_of_nameLength? {s : List Char} {n : Nat} (h : nameLength? s = some n) {c : Char}
    (hc : c ∈ s.take n) : IsNameChar c := by
  unfold nameLength? at h
  split at h
  · rename_i d rest
    split at h
    · rename_i hd
      cases h
      simp only [List.take_succ_cons, List.mem_cons] at hc
      rcases hc with rfl | rfl | hc
      · exact .inr rfl
      · exact .inl (isNamePart_of_isNameStart hd)
      · exact isNameChar_of_mem_nameTail hc
    · cases h
  · rename_i d rest _
    split at h
    · rename_i hd
      cases h
      simp only [List.take_succ_cons, List.mem_cons] at hc
      rcases hc with rfl | hc
      · exact .inl (isNamePart_of_isNameStart hd)
      · exact isNameChar_of_mem_nameTail hc
    · cases h
  · cases h

/-- Only a name is a token of its kind. -/
theorem nameLength?_of_tokenLength? {s : List Char} {n : Nat}
    (h : tokenLength? s = some (.name, n)) : nameLength? s = some n := by
  unfold tokenLength? at h
  split at h
  · cases h
  · split at h
    · obtain ⟨_, -, hpair⟩ := Option.map_eq_some_iff.1 h
      cases hpair
    split at h
    · obtain ⟨_, -, hpair⟩ := Option.map_eq_some_iff.1 h
      cases hpair
    split at h
    · cases h
    split at h
    · rename_i hname
      cases h
      exact hname
    · split at h <;> cases h

theorem nameLength?_of_pieceLength? {s : List Char} {n : Nat}
    (h : pieceLength? s = some (some .name, n)) : nameLength? s = some n := by
  unfold pieceLength? at h
  split at h
  · cases h
  · obtain ⟨⟨kind, k⟩, htoken, hpair⟩ := Option.map_eq_some_iff.1 h
    cases hpair
    exact nameLength?_of_tokenLength? htoken

/-- Each token is a piece of the text. -/
theorem of_mem_tokensFrom {fuel : Nat} {p : Position} {s : List Char} {tokens : List Token}
    (h : tokensFrom fuel p s = .ok tokens) {t : Token} (ht : t ∈ tokens) :
    ∃ s' n, pieceLength? s' = some (some t.kind, n) ∧ t.text = String.ofList (s'.take n) := by
  induction fuel generalizing p s tokens with
  | zero => cases s <;> cases h <;> cases ht
  | succ fuel ih =>
    cases s with
    | nil =>
      cases h
      cases ht
    | cons c s =>
      rw [tokensFrom] at h
      split at h
      · cases h
      · rename_i kind n hpiece
        dsimp only at h
        split at h
        · rename_i k hrest
          cases h
          rcases List.mem_cons.1 ht with rfl | ht
          · exact ⟨c :: s, n, hpiece, rfl⟩
          · exact ih hrest ht
        · exact ih h ht

theorem isNameChar_of_mem_tokenize {text : String} {tokens : List Token}
    (h : tokenize text = .ok tokens) {t : Token} (ht : t ∈ tokens) (hkind : t.kind = .name) :
    ∀ c ∈ t.text.toList, IsNameChar c := by
  obtain ⟨s, n, hpiece, htext⟩ := of_mem_tokensFrom h ht
  intro c hc
  rw [htext, String.toList_ofList] at hc
  rw [hkind] at hpiece
  exact isNameChar_of_nameLength? (nameLength?_of_pieceLength? hpiece) hc

/-- The characters of a name, of which the first is no digit. -/
structure IsName (s : List Char) : Prop where
  chars : ∀ c ∈ s, IsNameChar c
  start : ∃ c rest, s = c :: rest ∧ (isNameStart c = true ∨ c = '.')

theorem exists_start_of_nameLength? {s : List Char} {n : Nat} (h : nameLength? s = some n) :
    ∃ c rest, s.take n = c :: rest ∧ (isNameStart c = true ∨ c = '.') := by
  unfold nameLength? at h
  split at h
  · split at h
    · cases h
      exact ⟨_, _, rfl, .inr rfl⟩
    · cases h
  · split at h
    · rename_i hstart
      cases h
      exact ⟨_, _, rfl, .inl hstart⟩
    · cases h
  · cases h

theorem isName_of_mem_tokenize {text : String} {tokens : List Token}
    (h : tokenize text = .ok tokens) {t : Token} (ht : t ∈ tokens) (hkind : t.kind = .name) :
    IsName t.text.toList := by
  refine ⟨isNameChar_of_mem_tokenize h ht hkind, ?_⟩
  obtain ⟨s, n, hpiece, htext⟩ := of_mem_tokensFrom h ht
  rw [hkind] at hpiece
  rw [htext, String.toList_ofList]
  exact exists_start_of_nameLength? (nameLength?_of_pieceLength? hpiece)

/-! ### Marks -/

theorem magnitudeLength?_eq_none {c : Char} (hdigit : isDecimalDigit c = false) (hzero : c ≠ '0')
    (s : List Char) : magnitudeLength? (c :: s) = none := by
  have hspan : spanLength isDecimalDigit (c :: s) = 0 := by
    rw [spanLength, List.takeWhile_cons_of_neg (by simp [hdigit]), List.length_nil]
  unfold magnitudeLength?
  rw [hspan]
  dsimp only
  split
  · rename_i heq
    exact absurd (List.cons.inj heq).1 hzero
  · rfl

/-- No other token begins with a mark. -/
theorem mark_of_tokenLength? {c : Char} (hc : c ∈ marks) {s : List Char} {kind : TokenKind} {n : Nat}
    (h : tokenLength? (c :: s) = some (kind, n)) : kind = .mark := by
  have hall : marks.all (fun c => (c ≠ '"' ∧ c ≠ '\'' ∧ c ≠ '-') ∧
      (isDecimalDigit c = false ∧ c ≠ '0') ∧ isNameStart c = false ∧ c ≠ '.') = true := by
    decide +kernel
  obtain ⟨⟨hquote, happ, hminus⟩, ⟨hdigit, hzero⟩, hstart, hdot⟩ :=
    of_decide_eq_true (List.all_eq_true.1 hall c hc)
  have hname : nameLength? (c :: s) = none := by
    unfold nameLength?
    split
    · rename_i heq
      exact absurd (List.cons.inj heq).1 hdot
    · rename_i heq
      cases heq
      rw [hstart, if_neg Bool.false_ne_true]
    · rfl
  unfold tokenLength? at h
  dsimp only at h
  rw [if_neg (by simp [hquote, happ]), if_neg hminus, magnitudeLength?_eq_none hdigit hzero] at h
  dsimp only at h
  rw [hname] at h
  dsimp only at h
  split at h
  · cases h
    rfl
  · cases h

/-- What is written as a mark is one. -/
theorem mark_of_mem_tokenize {text : String} {tokens : List Token} (h : tokenize text = .ok tokens)
    {t : Token} (ht : t ∈ tokens) {c : Char} (hc : c ∈ marks) (htext : t.text.toList = [c]) :
    t.kind = .mark := by
  obtain ⟨s, n, hpiece, hs⟩ := of_mem_tokensFrom h ht
  rw [hs, String.toList_ofList] at htext
  obtain ⟨s', rfl⟩ : ∃ s', s = c :: s' := by
    cases s with
    | nil => simp at htext
    | cons d s =>
      cases n with
      | zero => simp at htext
      | succ n =>
        rw [List.take_succ_cons] at htext
        exact ⟨s, by rw [(List.cons.inj htext).1]⟩
  unfold pieceLength? at hpiece
  split at hpiece
  · cases hpiece
  · obtain ⟨⟨kind, k⟩, htoken, hpair⟩ := Option.map_eq_some_iff.1 hpiece
    cases hpair
    exact mark_of_tokenLength? hc htoken

end FeltRelay.Schema.Definitions
