import FeltRelay.Proofs.Schema.Definitions.Token
import FeltRelay.Proofs.Schema.Naming

/-!
# Tokens without their places

The kinds and characters of tokens do not depend on where a text begins (`lexes_of_tokensFrom`,
`exists_of_lexes`). A dotted name is one token (`IsDotted.pieceLength?`).
-/

namespace FeltRelay.Schema.Definitions

open FeltRelay.Text

/-- A token without its place. -/
def Token.bare (t : Token) : TokenKind × String := (t.kind, t.text)

/-- The tokens of a text without their places. -/
inductive Lexes : List Char → List (TokenKind × String) → Prop
  | nil : Lexes [] []
  | gap {s : List Char} {n : Nat} {ws : List (TokenKind × String)}
      (h : pieceLength? s = some (none, n)) (rest : Lexes (s.drop n) ws) : Lexes s ws
  | token {s : List Char} {kind : TokenKind} {n : Nat} {ws : List (TokenKind × String)}
      (h : pieceLength? s = some (some kind, n)) (rest : Lexes (s.drop n) ws) :
      Lexes s ((kind, String.ofList (s.take n)) :: ws)

/-! ### Pieces have characters -/

theorem gapLength?_pos {s : List Char} {n : Nat} (h : gapLength? s = some n) : 0 < n := by
  unfold gapLength? at h
  split at h
  · split at h
    · cases h
      exact Nat.succ_pos _
    · obtain ⟨k, -, hk⟩ := Option.map_eq_some_iff.1 h
      omega
    · cases h
  · rename_i hspan
    cases h
    exact Nat.pos_of_ne_zero hspan

theorem magnitudeLength?_pos {s : List Char} {n : Nat} (h : magnitudeLength? s = some n) :
    0 < n := by
  unfold magnitudeLength? at h
  cases hspan : spanLength isDecimalDigit s with
  | zero =>
    rw [hspan] at h
    dsimp only at h
    split at h
    · split at h
      · split at h
        · cases h
        · cases h
          exact Nat.succ_pos _
      · cases h
    · cases h
  | succ k =>
    rw [hspan] at h
    dsimp only at h
    split at h
    · split at h
      · split at h
        · cases h
          exact Nat.succ_pos _
        · cases h
          exact Nat.succ_pos _
      · cases h
        exact Nat.succ_pos _
    · cases h
      exact Nat.succ_pos _

theorem nameLength?_pos {s : List Char} {n : Nat} (h : nameLength? s = some n) : 0 < n := by
  unfold nameLength? at h
  split at h
  · split at h
    · cases h
      exact Nat.succ_pos _
    · cases h
  · split at h
    · cases h
      exact Nat.succ_pos _
    · cases h
  · cases h

theorem tokenLength?_pos {s : List Char} {kind : TokenKind} {n : Nat}
    (h : tokenLength? s = some (kind, n)) : 0 < n := by
  unfold tokenLength? at h
  split at h
  · cases h
  split at h
  · obtain ⟨k, -, hk⟩ := Option.map_eq_some_iff.1 h
    cases hk
    exact Nat.succ_pos _
  split at h
  · obtain ⟨k, -, hk⟩ := Option.map_eq_some_iff.1 h
    cases hk
    exact Nat.succ_pos _
  split at h
  · rename_i hnumber
    cases h
    exact magnitudeLength?_pos hnumber
  split at h
  · rename_i hname
    cases h
    exact nameLength?_pos hname
  · split at h
    · cases h
      exact Nat.one_pos
    · cases h

theorem pieceLength?_pos {s : List Char} {kind : Option TokenKind} {n : Nat}
    (h : pieceLength? s = some (kind, n)) : 0 < n := by
  unfold pieceLength? at h
  split at h
  · rename_i hgap
    cases h
    exact gapLength?_pos hgap
  · obtain ⟨⟨k, j⟩, htoken, hpair⟩ := Option.map_eq_some_iff.1 h
    cases hpair
    exact tokenLength?_pos htoken

/-! ### Tokens at any place -/

theorem lexes_of_tokensFrom {fuel : Nat} {p : Position} {s : List Char} {ts : List Token}
    (h : tokensFrom fuel p s = .ok ts) (hfuel : s.length ≤ fuel) : Lexes s (ts.map Token.bare) := by
  induction fuel generalizing p s ts with
  | zero =>
    cases s with
    | nil =>
      cases h
      exact .nil
    | cons c s => exact absurd hfuel (Nat.not_succ_le_zero _)
  | succ fuel ih =>
    cases s with
    | nil =>
      cases h
      exact .nil
    | cons c s =>
      rw [tokensFrom] at h
      split at h
      · cases h
      rename_i n hpiece
      have hpos := pieceLength?_pos hpiece
      have hdrop : ((c :: s).drop n).length ≤ fuel := by
        rw [List.length_drop]
        omega
      dsimp only at h
      split at h
      · rename_i hrest
        cases h
        exact .token hpiece (ih hrest hdrop)
      · rename_i kind _ _ hnone
        cases kind with
        | none => exact .gap hpiece (ih h hdrop)
        | some k => exact (hnone ts k h rfl).elim

theorem tokensFrom_piece {s : List Char} {kind : Option TokenKind} {n : Nat}
    (h : pieceLength? s = some (kind, n)) (fuel : Nat) (p : Position) :
    tokensFrom (fuel + 1) p s = (tokensFrom fuel (p.afterAll (s.take n)) (s.drop n)).map
      ((kind.map fun k => ⟨k, String.ofList (s.take n), p⟩).toList ++ ·) := by
  cases s with
  | nil => cases h
  | cons c s =>
    rw [tokensFrom, h]
    dsimp only
    cases tokensFrom fuel (p.afterAll ((c :: s).take n)) ((c :: s).drop n) <;> cases kind <;> rfl

theorem tokensFrom_of_piece {s : List Char} {kind : Option TokenKind} {n : Nat}
    (h : pieceLength? s = some (kind, n)) {fuel : Nat} {p : Position} {ts : List Token}
    (hrest : tokensFrom fuel (p.afterAll (s.take n)) (s.drop n) = .ok ts) :
    tokensFrom (fuel + 1) p s =
      .ok ((kind.map fun k => ⟨k, String.ofList (s.take n), p⟩).toList ++ ts) := by
  rw [tokensFrom_piece h, hrest, map_ok]

theorem exists_fuel_of_piece {s : List Char} {kind : Option TokenKind} {n fuel : Nat}
    (h : pieceLength? s = some (kind, n)) (hfuel : s.length ≤ fuel) :
    ∃ left, fuel = left + 1 ∧ (s.drop n).length ≤ left := by
  have hpos := pieceLength?_pos h
  cases s with
  | nil => cases h
  | cons c s =>
    rw [List.length_cons] at hfuel
    refine ⟨fuel - 1, by omega, ?_⟩
    rw [List.length_drop, List.length_cons]
    omega

theorem exists_of_lexes {s : List Char} {ws : List (TokenKind × String)} (h : Lexes s ws)
    {fuel : Nat} (hfuel : s.length ≤ fuel) (p : Position) :
    ∃ ts, tokensFrom fuel p s = .ok ts ∧ ts.map Token.bare = ws := by
  induction h generalizing fuel p with
  | nil => exact ⟨[], by rw [tokensFrom], rfl⟩
  | @gap s n ws hpiece rest ih =>
    obtain ⟨left, rfl, hleft⟩ := exists_fuel_of_piece hpiece hfuel
    obtain ⟨ts, hts, hbare⟩ := ih hleft (p.afterAll (s.take n))
    exact ⟨ts, tokensFrom_of_piece hpiece hts, hbare⟩
  | @token s kind n ws hpiece rest ih =>
    obtain ⟨left, rfl, hleft⟩ := exists_fuel_of_piece hpiece hfuel
    obtain ⟨ts, hts, hbare⟩ := ih hleft (p.afterAll (s.take n))
    refine ⟨_, tokensFrom_of_piece hpiece hts, ?_⟩
    rw [← hbare]
    rfl

/-! ### Names -/

/-- A letter or an underscore, and letters, digits and underscores behind it. -/
def IsWord (s : List Char) : Prop :=
  ∃ c rest, s = c :: rest ∧ isNameStart c = true ∧ ∀ d ∈ rest, isNamePart d = true

/-- Words with dots between them. -/
inductive IsDotted : List Char → Prop
  | word {s : List Char} (h : IsWord s) : IsDotted s
  | more {s rest : List Char} (h : IsWord s) (hrest : IsDotted rest) : IsDotted (s ++ '.' :: rest)

theorem nameTail_append {s : List Char} (hs : ∀ c ∈ s, isNamePart c = true) (rest : List Char) :
    nameTail (s ++ rest) = s.length + nameTail rest := by
  induction s with
  | nil => simp
  | cons c s ih =>
    have hc := hs c (List.mem_cons_self ..)
    have hdot : ∀ d tail, c = '.' → s ++ rest = d :: tail → False := by
      rintro d tail rfl
      exact absurd hc (by decide)
    rw [List.cons_append, nameTail.eq_3 _ _ hdot, if_pos hc,
      ih fun d hd => hs d (List.mem_cons_of_mem _ hd), List.length_cons]
    omega

theorem IsDotted.exists_start {s : List Char} (h : IsDotted s) :
    ∃ c rest, s = c :: rest ∧ isNameStart c = true ∧
      ∀ behind, nameTail behind = 0 → nameTail (rest ++ behind) = rest.length := by
  induction h with
  | word h =>
    obtain ⟨c, rest, rfl, hc, hrest⟩ := h
    refine ⟨c, rest, rfl, hc, fun behind hbehind => ?_⟩
    rw [nameTail_append hrest, hbehind, Nat.add_zero]
  | more h _ ih =>
    obtain ⟨c, rest, rfl, hc, hrest⟩ := h
    obtain ⟨c', rest', rfl, hc', htail⟩ := ih
    refine ⟨c, rest ++ '.' :: c' :: rest', rfl, hc, fun behind hbehind => ?_⟩
    have hdot : nameTail ('.' :: c' :: (rest' ++ behind)) = rest'.length + 2 := by
      rw [nameTail, if_pos hc', htail behind hbehind]
    rw [List.append_assoc, nameTail_append hrest, List.cons_append, List.cons_append, hdot]
    simp

/-- Nothing else begins like a name. -/
theorem of_isNameStart {c : Char} (h : isNameStart c = true) :
    isBlank c = false ∧ isDecimalDigit c = false ∧ c ∉ ['/', '"', '\'', '-', '0', '.'] := by
  have hlt : c.toNat < 128 := by
    rcases Bool.or_eq_true_iff.1 h with halpha | hunderscore
    · exact Naming.lt_of_isAlphanum (by rw [Char.isAlphanum, halpha, Bool.true_or])
    · rw [of_decide_eq_true hunderscore]
      decide
  exact Naming.of_ascii (p := fun c => isNameStart c = true → isBlank c = false ∧
    isDecimalDigit c = false ∧ c ∉ ['/', '"', '\'', '-', '0', '.']) (by decide +kernel) hlt h

theorem gapLength?_eq_none {c : Char} {s : List Char} (hblank : isBlank c = false)
    (hslash : c ≠ '/') : gapLength? (c :: s) = none := by
  have hspan : spanLength isBlank (c :: s) = 0 := by
    rw [spanLength, List.takeWhile_cons_of_neg (by simp [hblank]), List.length_nil]
  unfold gapLength?
  rw [hspan]
  split
  · split
    · rename_i heq
      exact absurd (List.cons.inj heq).1 hslash
    · rename_i heq
      exact absurd (List.cons.inj heq).1 hslash
    · rfl
  · rename_i hne
    exact absurd rfl hne

theorem nameLength?_cons {c : Char} {s : List Char} (hdot : c ≠ '.')
    (hc : isNameStart c = true) : nameLength? (c :: s) = some (nameTail s + 1) := by
  unfold nameLength?
  split
  · rename_i heq
    exact absurd (List.cons.inj heq).1 hdot
  · rename_i heq
    cases heq
    rw [if_pos hc]
  · rename_i heq
    cases heq

theorem IsDotted.pieceLength? {s : List Char} (h : IsDotted s) {behind : List Char}
    (hbehind : nameTail behind = 0) :
    pieceLength? (s ++ behind) = some (some .name, s.length) := by
  obtain ⟨c, rest, rfl, hc, htail⟩ := h.exists_start
  obtain ⟨hblank, hdigit, hother⟩ := of_isNameStart hc
  simp only [List.mem_cons, List.not_mem_nil, or_false, not_or] at hother
  obtain ⟨hslash, hquote, happ, hminus, hzero, hdot⟩ := hother
  have htoken : tokenLength? (c :: (rest ++ behind)) = some (.name, rest.length + 1) := by
    unfold tokenLength?
    dsimp only
    rw [if_neg (by simp [hquote, happ]), if_neg hminus, magnitudeLength?_eq_none hdigit hzero]
    dsimp only
    rw [nameLength?_cons hdot hc, htail behind hbehind]
  rw [List.cons_append, Definitions.pieceLength?, gapLength?_eq_none hblank hslash]
  dsimp only
  rw [htoken]
  rfl

theorem IsDotted.dropWhile_dot {s : List Char} (h : IsDotted s) : s.dropWhile (· = '.') = s := by
  obtain ⟨c, rest, rfl, hc, -⟩ := h.exists_start
  have hdot : c ≠ '.' := by
    rintro rfl
    exact absurd hc (by decide)
  exact List.dropWhile_cons_of_neg (by simpa using hdot)

end FeltRelay.Schema.Definitions
