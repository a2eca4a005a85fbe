import FeltRelay.Proofs.Schema.Definitions.Lexed
import FeltRelay.Proofs.Schema.Definitions.Refused

/-!
# Places in a text

A text is cut into pieces, of which the tokens are some. Each token has the place behind the pieces
before it, and whatever of the text is refused at a place is refused at a token, or at the first
character that begins no piece (`places_of_ofText`).
-/

namespace FeltRelay.Schema

namespace Definitions

/-! ### Lines and columns -/

/-- The place behind some characters: a line for each line feed, and a column for each character
behind the last one. -/
def Position.behind (s : List Char) : Position :=
  ⟨1 + s.count '\n', 1 + (s.reverse.takeWhile (· ≠ '\n')).length⟩

theorem Position.behind_concat (s : List Char) (c : Char) :
    behind (s ++ [c]) = (behind s).after c := by
  by_cases hc : c = '\n'
  · subst hc
    simp [behind, after, Nat.add_assoc]
  · simp [behind, after, hc, Nat.add_assoc]

theorem Position.afterAll_behind (s t : List Char) :
    (behind s).afterAll t = behind (s ++ t) := by
  induction t generalizing s with
  | nil => simp [afterAll]
  | cons c t ih =>
    have hrest := ih (s ++ [c])
    rw [behind_concat, List.append_assoc, List.singleton_append] at hrest
    exact hrest

/-! ### Pieces -/

/-- A piece of a text: a token of a kind, or a gap between tokens. -/
structure Piece where
  kind : Option TokenKind
  chars : List Char
deriving DecidableEq, Repr

/-- The pieces at the front of a text, up to the first character that begins none. -/
inductive Cuts : List Char → List Piece → List Char → Prop
  | stop {s : List Char} (h : pieceLength? s = none) : Cuts s [] s
  | piece {s left : List Char} {kind : Option TokenKind} {n : Nat} {ps : List Piece}
      (h : pieceLength? s = some (kind, n)) (rest : Cuts (s.drop n) ps left) :
      Cuts s (⟨kind, s.take n⟩ :: ps) left

/-- The tokens among pieces, each with the place behind all that stands before it. -/
def tokensOf (before : List Char) : List Piece → List Token
  | [] => []
  | p :: ps =>
    (p.kind.map fun k => ⟨k, String.ofList p.chars, .behind before⟩).toList ++
      tokensOf (before ++ p.chars) ps

/-- The failure for a character that begins no piece. -/
def unexpected (c : Char) (p : Position) : Failure :=
  .parseError ("unexpected character " ++ Text.quoted (String.singleton c)) p.line p.column

theorem exists_cuts (s : List Char) : ∃ ps left, Cuts s ps left := by
  induction hlen : s.length using Nat.strong_induction_on generalizing s with
  | _ len ih =>
    cases hpiece : pieceLength? s with
    | none => exact ⟨[], s, .stop hpiece⟩
    | some piece =>
      obtain ⟨kind, n⟩ := piece
      obtain ⟨k, hk, hdrop⟩ := exists_fuel_of_piece hpiece (Nat.le_refl s.length)
      obtain ⟨ps, left, hrest⟩ := ih (s.drop n).length (by omega) (s.drop n) rfl
      exact ⟨_, left, .piece hpiece hrest⟩

theorem Cuts.append_eq {s left : List Char} {ps : List Piece} (h : Cuts s ps left) :
    ps.flatMap (·.chars) ++ left = s := by
  induction h with
  | stop => rfl
  | piece _ _ ih => rw [List.flatMap_cons, List.append_assoc, ih, List.take_append_drop]

theorem Cuts.tokensFrom_eq {s left : List Char} {ps : List Piece} (h : Cuts s ps left)
    (before : List Char) {fuel : Nat} (hfuel : s.length ≤ fuel) :
    tokensFrom fuel (.behind before) s = match left with
      | [] => .ok (tokensOf before ps)
      | c :: _ => .error (unexpected c (.behind (before ++ ps.flatMap (·.chars)))) := by
  induction h generalizing before fuel with
  | @stop s hpiece =>
    cases s with
    | nil => rw [tokensFrom, tokensOf]
    | cons c s =>
      obtain ⟨fuel, rfl⟩ := Nat.exists_eq_add_of_le' (Nat.le_trans (Nat.succ_pos _) hfuel)
      rw [tokensFrom, hpiece, List.flatMap_nil, List.append_nil]
      rfl
  | @piece s left kind n ps hpiece rest ih =>
    obtain ⟨k, rfl, hk⟩ := exists_fuel_of_piece hpiece hfuel
    rw [tokensFrom_piece hpiece, Position.afterAll_behind, ih _ hk]
    cases left with
    | nil => rfl
    | cons c left =>
      rw [List.flatMap_cons, List.append_assoc]
      rfl

theorem exists_of_mem_tokensOf {before : List Char} {ps : List Piece} {t : Token}
    (h : t ∈ tokensOf before ps) : ∃ qs rest, ps = qs ++ ⟨some t.kind, t.text.toList⟩ :: rest ∧
      t.position = .behind (before ++ qs.flatMap (·.chars)) := by
  induction ps generalizing before with
  | nil => cases h
  | cons p ps ih =>
    obtain ⟨kind, chars⟩ := p
    rcases List.mem_append.1 h with h | h
    · cases kind with
      | none => cases h
      | some k =>
        rw [List.mem_singleton.1 h, String.toList_ofList]
        exact ⟨[], ps, rfl, by simp⟩
    · obtain ⟨qs, rest, rfl, hplace⟩ := ih h
      exact ⟨⟨kind, chars⟩ :: qs, rest, rfl, by simpa using hplace⟩

end Definitions

namespace Model

open Definitions

/-- A text is cut into pieces, as far as they reach. Its tokens are the pieces that are no gaps, each
with the place behind the pieces before it. Where a character is left that begins no piece, the text
is refused for it, behind all pieces; else all that is refused at a place is refused at that of a
token. -/
theorem places_of_ofText (text : String) : ∃ ps left, Cuts text.toList ps left ∧
    ps.flatMap (·.chars) ++ left = text.toList ∧
    (∀ t ∈ tokensOf [] ps, ∃ qs rest, ps = qs ++ ⟨some t.kind, t.text.toList⟩ :: rest ∧
      t.position = .behind (qs.flatMap (·.chars))) ∧
    (left = [] → tokenize text = .ok (tokensOf [] ps) ∧ ∀ f, ofText text = .error f →
      f.kind = .parse →
        ∃ t ∈ tokensOf [] ps, f.place = .position t.position.line t.position.column) ∧
    ∀ c rest, left = c :: rest →
      ofText text = .error (unexpected c (.behind (ps.flatMap (·.chars)))) := by
  obtain ⟨ps, left, hcuts⟩ := exists_cuts text.toList
  have htokens : tokenize text = _ := hcuts.tokensFrom_eq [] (Nat.le_refl _)
  refine ⟨ps, left, hcuts, hcuts.append_eq, fun t ht => exists_of_mem_tokensOf ht, ?_, ?_⟩
  · rintro rfl
    refine ⟨htokens, fun f hf hkind => ?_⟩
    rcases bind_eq_error_iff.1 hf with hf | ⟨d, hd, hf⟩
    · rcases bind_eq_error_iff.1 hf with hf | ⟨ts, hts, hf⟩
      · rw [htokens] at hf
        cases hf
      · obtain rfl := Except.ok.inj (hts.symm.trans htokens)
        exact exists_of_ofTokens_error hf hkind
    · obtain ⟨ts, hts, hd⟩ := bind_eq_ok_iff.1 hd
      obtain rfl := Except.ok.inj (hts.symm.trans htokens)
      rcases of_ofDeclarations_error hf with hother | ⟨x, hx, e, he, hplace⟩
      · exact absurd hkind hother
      · obtain ⟨t, ht, -, -, hposition⟩ := (writtenIn_of_ofTokens hd).fields x hx e he
        exact ⟨t, ht, by rw [hplace, hposition]⟩
  · rintro c rest rfl
    rw [ofText, Declarations.ofText, htokens]
    rfl

end Model

end FeltRelay.Schema
