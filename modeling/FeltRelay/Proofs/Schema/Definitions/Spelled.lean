import FeltRelay.Proofs.Schema.Definitions.Lexed
import FeltRelay.Proofs.Text.Numeral

/-!
# Words and how they are laid out

A text is a layout of words if these stand in it one after the other, with blanks and comments
around them. Words that are spelled as tokens are read off every layout (`lexes_of_layout`).
-/

namespace FeltRelay.Schema.Definitions

open FeltRelay.Text

/-- The kind and the characters of a token. -/
abbrev Word := TokenKind × String

/-! ### How words are spelled -/

/-- A dotted name, perhaps with a dot in front. -/
def IsReference (s : List Char) : Prop := IsDotted s ∨ ∃ rest, s = '.' :: rest ∧ IsDotted rest

/-- The digits of a number: decimal ones, or hexadecimal ones behind `0x`. -/
inductive IsMagnitude : List Char → Prop
  | decimal {s : List Char} (hne : s ≠ []) (h : ∀ c ∈ s, isDecimalDigit c = true) : IsMagnitude s
  | hexadecimal {x : Char} {s : List Char} (hx : x = 'x' ∨ x = 'X') (hne : s ≠ [])
      (h : ∀ c ∈ s, isHexDigit c = true) : IsMagnitude ('0' :: x :: s)

/-- A number, perhaps with a sign. -/
def IsNumber (s : List Char) : Prop := IsMagnitude s ∨ ∃ rest, s = '-' :: rest ∧ IsMagnitude rest

/-- What stands between quotes: no quote, line feed or backslash without a backslash before it. -/
inductive IsQuoted (quote : Char) : List Char → Prop
  | nil : IsQuoted quote []
  | plain {c : Char} {s : List Char} (h : c ∉ [quote, '\\', '\n']) (rest : IsQuoted quote s) :
      IsQuoted quote (c :: s)
  | escaped {c : Char} {s : List Char} (rest : IsQuoted quote s) : IsQuoted quote ('\\' :: c :: s)

def IsString (s : List Char) : Prop :=
  ∃ quote body, (quote = '"' ∨ quote = '\'') ∧ IsQuoted quote body ∧ s = quote :: (body ++ [quote])

theorem isQuoted_of_all {quote : Char} {s : List Char}
    (h : (s.all fun c => c ∉ [quote, '\\', '\n']) = true) : IsQuoted quote s := by
  induction s with
  | nil => exact .nil
  | cons c s ih =>
    rw [List.all_cons, Bool.and_eq_true, decide_eq_true_eq] at h
    exact .plain h.1 (ih h.2)

/-- A word that is written as tokens of its kind are. -/
def Spelled : Word → Prop
  | (.name, s) => IsReference s.toList
  | (.number, s) => IsNumber s.toList
  | (.string, s) => IsString s.toList
  | (.mark, s) => ∃ c ∈ marks, s.toList = [c]

/-! ### How words are laid out -/

/-- A character that can stand right behind a name or a number. -/
def Separates (c : Char) : Prop := isBlank c = true ∨ c = '/' ∨ c ∈ marks

/-- Words in a text with gaps around them. Where a name or a number is followed by no mark there has
to be one. -/
inductive Layout : List Word → List Char → Prop
  | nil : Layout [] []
  | blank {c : Char} {ws : List Word} {s : List Char} (h : isBlank c = true) (rest : Layout ws s) :
      Layout ws (c :: s)
  | line {body s : List Char} {ws : List Word} (h : '\n' ∉ body) (rest : Layout ws s) :
      Layout ws ('/' :: '/' :: (body ++ '\n' :: s))
  | block {body s : List Char} {ws : List Word} (h : ¬['*', '/'] <:+: body) (rest : Layout ws s) :
      Layout ws ('/' :: '*' :: (body ++ '*' :: '/' :: s))
  | word {w : Word} {ws : List Word} {s : List Char}
      (h : w.1 = .name ∨ w.1 = .number → ∀ c ∈ s.head?, Separates c) (rest : Layout ws s) :
      Layout (w :: ws) (w.2.toList ++ s)

/-! ### Gaps, as they are read -/

theorem spanLength_append {p : Char → Bool} {s t : List Char} (hs : ∀ c ∈ s, p c = true)
    (ht : ∀ c ∈ t.head?, p c = false) : spanLength p (s ++ t) = s.length := by
  have hstop : t.takeWhile p = [] := by
    cases t with
    | nil => rfl
    | cons c t => exact List.takeWhile_cons_of_neg (by simp [ht c rfl])
  rw [spanLength, List.takeWhile_append_of_pos hs, hstop, List.append_nil]

theorem pieceLength?_of_blanks {s : List Char} {n : Nat} (h : spanLength isBlank s = n + 1) :
    pieceLength? s = some (none, n + 1) := by
  unfold pieceLength? gapLength?
  rw [h]
  rfl

theorem lexes_blank {c : Char} (hc : isBlank c = true) {s : List Char} {ws : List Word}
    (h : Lexes s ws) : Lexes (c :: s) ws := by
  have hspan : spanLength isBlank (c :: s) = spanLength isBlank s + 1 := by
    rw [spanLength, List.takeWhile_cons_of_pos hc, List.length_cons, spanLength]
  have hpiece := pieceLength?_of_blanks hspan
  cases hrest : spanLength isBlank s with
  | zero =>
    rw [hrest] at hpiece
    exact .gap hpiece h
  | succ n =>
    have hpiece' := pieceLength?_of_blanks hrest
    rw [hrest] at hpiece
    -- Blanks behind it are part of the same gap.
    cases h with
    | nil => cases hpiece'
    | gap hgap rest =>
      rw [hpiece'] at hgap
      cases hgap
      exact .gap hpiece rest
    | token htoken rest =>
      rw [hpiece'] at htoken
      cases htoken

theorem spanLength_slash (s : List Char) : spanLength isBlank ('/' :: s) = 0 := by
  rw [spanLength, List.takeWhile_cons_of_neg (by decide), List.length_nil]

theorem lexes_line {body s : List Char} (hbody : '\n' ∉ body) {ws : List Word} (h : Lexes s ws) :
    Lexes ('/' :: '/' :: (body ++ '\n' :: s)) ws := by
  have hspan : spanLength (· ≠ '\n') (body ++ '\n' :: s) = body.length :=
    spanLength_append (fun c hc => decide_eq_true fun heq => hbody (heq ▸ hc))
      fun c hc => by simpa using (Option.some.inj hc).symm
  have hgap : gapLength? ('/' :: '/' :: (body ++ '\n' :: s)) = some (body.length + 2) := by
    unfold gapLength?
    rw [spanLength_slash]
    exact congrArg (fun n => some (n + 2)) hspan
  have hpiece : pieceLength? ('/' :: '/' :: (body ++ '\n' :: s)) = some (none, body.length + 2) := by
    rw [pieceLength?, hgap]
  apply Lexes.gap hpiece
  rw [List.drop_succ_cons, List.drop_succ_cons, List.drop_left]
  exact lexes_blank (by decide) h

theorem blockEnd?_append {body : List Char} (h : ¬['*', '/'] <:+: body) (s : List Char) :
    blockEnd? (body ++ '*' :: '/' :: s) = some (body.length + 2) := by
  induction body with
  | nil => rfl
  | cons c body ih =>
    have hrest := ih fun hinside => h (hinside.trans (List.suffix_cons c body).isInfix)
    have hstop : ∀ tail, c = '*' → body ++ '*' :: '/' :: s = '/' :: tail → False := by
      rintro tail rfl heq
      cases body with
      | nil => cases heq
      | cons d body =>
        cases heq
        exact h ⟨[], body, rfl⟩
    rw [List.cons_append, blockEnd?.eq_2 _ _ hstop, hrest, Option.map_some, List.length_cons]

theorem lexes_block {body s : List Char} (hbody : ¬['*', '/'] <:+: body) {ws : List Word}
    (h : Lexes s ws) : Lexes ('/' :: '*' :: (body ++ '*' :: '/' :: s)) ws := by
  have hgap : gapLength? ('/' :: '*' :: (body ++ '*' :: '/' :: s)) = some (body.length + 2 + 2) := by
    unfold gapLength?
    rw [spanLength_slash]
    exact congrArg (Option.map (· + 2)) (blockEnd?_append hbody s)
  have hpiece : pieceLength? ('/' :: '*' :: (body ++ '*' :: '/' :: s)) =
      some (none, body.length + 2 + 2) := by
    rw [pieceLength?, hgap]
  apply Lexes.gap hpiece
  have hdrop : ('/' :: '*' :: (body ++ '*' :: '/' :: s)).drop (body.length + 2 + 2) = s := by
    have hlength : body.length + 2 = (body ++ ['*', '/']).length := by simp
    rw [List.drop_succ_cons, List.drop_succ_cons, hlength]
    simp
  rwa [hdrop]

/-! ### Words, as they are read -/

theorem isBlank_of_isDecimalDigit {c : Char} (h : isDecimalDigit c = true) : isBlank c = false := by
  by_cases hc : c.toNat < 128
  · have hall : isDecimalDigit c = true → isBlank c = false :=
      Naming.of_ascii (p := fun c => isDecimalDigit c = true → isBlank c = false)
        (by decide +kernel) hc
    exact hall h
  -- The characters of the tables are taken from their literals first.
  have hrows : ∀ z ∈ zeros, ∀ k < 10, CharSet.parity (z + k) blanks.bounds = false := by
    rw [zeros, blanks, CharSet.ofRuns, String.toList_ofList, String.toList_ofList]
    decide +kernel
  rw [isDecimalDigit, digitValue?, if_neg hc, Option.isSome_map, List.find?_isSome] at h
  obtain ⟨z, hz, hrange⟩ := h
  rw [Bool.and_eq_true, decide_eq_true_eq, decide_eq_true_eq] at hrange
  have hrow := hrows z hz (c.toNat - z) (by omega)
  rw [isBlank, if_neg hc, CharSet.contains]
  rwa [Nat.add_sub_cancel' hrange.1] at hrow

theorem toNat_lt_of_isHexDigit {c : Char} (h : isHexDigit c = true) : c.toNat < 128 := by
  by_contra hc
  have hle : ∀ d : Char, d.toNat < 128 → ¬c ≤ d := fun d hd hle => by
    have := Char.le_def.1 hle
    have := UInt32.le_iff_toNat_le.1 this
    exact hc (Nat.lt_of_le_of_lt this hd)
  have hnone : digitIn? 16 c = none := by
    rw [digitIn?, if_neg fun h => hle '9' (by decide) h.2, if_neg fun h => hle 'z' (by decide) h.2,
      if_neg fun h => hle 'Z' (by decide) h.2]
    rfl
  rw [isHexDigit, hnone] at h
  cases h

theorem of_separates {c : Char} (h : Separates c) :
    (isNamePart c = false ∧ c ≠ '.') ∧ isDecimalDigit c = false ∧ isHexDigit c = false ∧
      c ∉ ['x', 'X'] := by
  by_cases hc : c.toNat < 128
  · have hall : (isBlank c = true ∨ c = '/' ∨ c ∈ marks) →
        (isNamePart c = false ∧ c ≠ '.') ∧ isDecimalDigit c = false ∧ isHexDigit c = false ∧
          c ∉ ['x', 'X'] :=
      Naming.of_ascii (p := fun c => (isBlank c = true ∨ c = '/' ∨ c ∈ marks) →
        (isNamePart c = false ∧ c ≠ '.') ∧ isDecimalDigit c = false ∧ isHexDigit c = false ∧
          c ∉ ['x', 'X']) (by decide +kernel) hc
    exact hall h
  -- Beyond ASCII only blanks separate.
  have hne : ∀ d : Char, d.toNat < 128 → c ≠ d := by
    rintro d hd rfl
    exact hc hd
  have hblank : isBlank c = true := by
    rcases h with h | rfl | h
    · exact h
    · exact absurd (by decide) hc
    · have hmarks : (marks.all fun d => d.toNat < 128) = true := by decide
      exact absurd (of_decide_eq_true (List.all_eq_true.1 hmarks c h)) hc
  refine ⟨⟨?_, hne '.' (by decide)⟩, ?_, ?_, ?_⟩
  · rw [Bool.eq_false_iff]
    intro hpart
    rw [isNamePart, Bool.or_eq_true, decide_eq_true_eq] at hpart
    rcases hpart with hpart | hpart
    · exact hc (Naming.lt_of_isAlphanum hpart)
    · exact hne '_' (by decide) hpart
  · rw [Bool.eq_false_iff]
    intro hdigit
    rw [isBlank_of_isDecimalDigit hdigit] at hblank
    cases hblank
  · rw [Bool.eq_false_iff]
    exact fun hdigit => hc (toNat_lt_of_isHexDigit hdigit)
  · simp [hne 'x' (by decide), hne 'X' (by decide)]

theorem nameTail_of_separates {s : List Char} (h : ∀ c ∈ s.head?, Separates c) : nameTail s = 0 := by
  cases s with
  | nil => rfl
  | cons c s =>
    obtain ⟨⟨hpart, hdot⟩, -⟩ := of_separates (h c rfl)
    rw [nameTail.eq_3 _ _ fun d rest heq _ => hdot heq, hpart, if_neg Bool.false_ne_true]

/-- A name with a dot in front, before a character that is no part of it. -/
theorem pieceLength?_dot {s behind : List Char} (h : IsDotted s) (hbehind : nameTail behind = 0) :
    pieceLength? ('.' :: (s ++ behind)) = some (some .name, s.length + 1) := by
  obtain ⟨c, rest, rfl, hc, htail⟩ := h.exists_start
  have hname : nameLength? ('.' :: (c :: rest ++ behind)) = some (rest.length + 2) := by
    rw [List.cons_append, nameLength?, if_pos hc, htail behind hbehind]
  have htoken : tokenLength? ('.' :: (c :: rest ++ behind)) = some (.name, rest.length + 2) := by
    unfold tokenLength?
    dsimp only
    rw [if_neg (by decide), if_neg (by decide),
      magnitudeLength?_eq_none (by decide) (by decide), hname]
  rw [pieceLength?, gapLength?_eq_none (by decide) (by decide)]
  dsimp only
  rw [htoken]
  rfl

theorem magnitudeLength?_append {s behind : List Char} (h : IsMagnitude s)
    (hbehind : ∀ c ∈ behind.head?, Separates c) :
    magnitudeLength? (s ++ behind) = some s.length := by
  cases h with
  | decimal hne hs =>
    have hspan : spanLength isDecimalDigit (s ++ behind) = s.length :=
      spanLength_append hs fun c hc => (of_separates (hbehind c hc)).2.1
    have hlength : s.length ≠ 0 := by simpa using hne
    unfold magnitudeLength?
    rw [hspan]
    split
    · contradiction
    dsimp only
    split
    · rename_i x rest heq
      -- What stands behind the zero is another digit or ends the number.
      have hx : ¬(x = 'x' ∨ x = 'X') := by
        cases s with
        | nil => exact absurd rfl hne
        | cons d s =>
          cases s with
          | nil =>
            have := (of_separates (hbehind x (by simp_all))).2.2.2
            simpa using this
          | cons e s =>
            have hdigit := hs x (by simp_all)
            rintro (rfl | rfl) <;> exact absurd hdigit (by decide)
      rw [if_neg hx]
    · rfl
  | @hexadecimal x digits hx hne hs =>
    have hspan : spanLength isHexDigit (digits ++ behind) = digits.length :=
      spanLength_append hs fun c hc => (of_separates (hbehind c hc)).2.2.1
    have hlength : digits.length ≠ 0 := by simpa using hne
    rw [List.cons_append, List.cons_append, magnitudeLength?]
    rw [if_pos hx, hspan]
    split
    · contradiction
    · rfl

theorem IsMagnitude.exists_digit {s : List Char} (h : IsMagnitude s) :
    ∃ c rest, s = c :: rest ∧ isDecimalDigit c = true := by
  cases h with
  | decimal hne hs =>
    obtain ⟨c, rest, rfl⟩ := List.exists_cons_of_ne_nil hne
    exact ⟨c, rest, rfl, hs c (List.mem_cons_self ..)⟩
  | hexadecimal => exact ⟨'0', _, rfl, by decide⟩

theorem pieceLength?_number {s behind : List Char} (h : IsMagnitude s)
    (hbehind : ∀ c ∈ behind.head?, Separates c) :
    pieceLength? (s ++ behind) = some (some .number, s.length) := by
  have hlength := magnitudeLength?_append h hbehind
  obtain ⟨c, rest, rfl, hdigit⟩ := h.exists_digit
  have hne : ∀ d : Char, isDecimalDigit d = false → c ≠ d := by
    rintro d hd rfl
    rw [hdigit] at hd
    cases hd
  have htoken : tokenLength? (c :: rest ++ behind) = some (.number, (c :: rest).length) := by
    rw [List.cons_append] at hlength ⊢
    unfold tokenLength?
    dsimp only
    rw [if_neg (by simp [hne '"' (by decide), hne '\'' (by decide)]), if_neg (hne '-' (by decide)),
      hlength]
  rw [pieceLength?, List.cons_append,
    gapLength?_eq_none (isBlank_of_isDecimalDigit hdigit) (hne '/' (by decide))]
  dsimp only
  rw [List.cons_append] at htoken
  rw [htoken]
  rfl

theorem pieceLength?_negative {s behind : List Char} (h : IsMagnitude s)
    (hbehind : ∀ c ∈ behind.head?, Separates c) :
    pieceLength? ('-' :: (s ++ behind)) = some (some .number, s.length + 1) := by
  have htoken : tokenLength? ('-' :: (s ++ behind)) = some (.number, s.length + 1) := by
    unfold tokenLength?
    dsimp only
    rw [if_neg (by decide), if_pos rfl, magnitudeLength?_append h hbehind]
    rfl
  rw [pieceLength?, gapLength?_eq_none (by decide) (by decide)]
  dsimp only
  rw [htoken]
  rfl

theorem stringEnd?_append {quote : Char} (hquote : quote ≠ '\\') {body : List Char}
    (h : IsQuoted quote body) (s : List Char) :
    stringEnd? quote (body ++ quote :: s) = some (body.length + 1) := by
  induction h with
  | nil => rw [List.nil_append, stringEnd?.eq_3 _ _ _ fun _ _ heq _ => hquote heq, if_pos rfl]; rfl
  | @plain c body hc rest ih =>
    simp only [List.mem_cons, List.not_mem_nil, or_false, not_or] at hc
    obtain ⟨hend, hback, hline⟩ := hc
    rw [List.cons_append, stringEnd?.eq_3 _ _ _ fun _ _ heq _ => hback heq, if_neg hend,
      if_neg (by simp [hback, hline]), ih]
    rfl
  | escaped rest ih =>
    rw [List.cons_append, List.cons_append, stringEnd?, ih]
    rfl

theorem pieceLength?_string {quote : Char} (hquote : quote = '"' ∨ quote = '\'') {body : List Char}
    (h : IsQuoted quote body) (behind : List Char) :
    pieceLength? (quote :: (body ++ quote :: behind)) = some (some .string, body.length + 2) := by
  have hplain : isBlank quote = false ∧ quote ≠ '/' ∧ quote ≠ '\\' := by
    rcases hquote with rfl | rfl <;> decide
  have htoken : tokenLength? (quote :: (body ++ quote :: behind)) =
      some (.string, body.length + 2) := by
    unfold tokenLength?
    dsimp only
    rw [if_pos hquote, stringEnd?_append hplain.2.2 h]
    rfl
  rw [pieceLength?, gapLength?_eq_none hplain.1 hplain.2.1]
  dsimp only
  rw [htoken]
  rfl

theorem pieceLength?_mark {c : Char} (h : c ∈ marks) (s : List Char) :
    pieceLength? (c :: s) = some (some .mark, 1) := by
  simp only [marks, List.mem_cons, List.not_mem_nil, or_false] at h
  rcases h with rfl | rfl | rfl | rfl | rfl | rfl | rfl | rfl | rfl | rfl | rfl <;> rfl

theorem pieceLength?_of_spelled {w : Word} (h : Spelled w) {s : List Char}
    (hends : w.1 = .name ∨ w.1 = .number → ∀ c ∈ s.head?, Separates c) :
    pieceLength? (w.2.toList ++ s) = some (some w.1, w.2.toList.length) := by
  obtain ⟨kind, text⟩ := w
  cases kind with
  | name =>
    have hbehind := nameTail_of_separates (hends (.inl rfl))
    rcases h with h | ⟨rest, heq, h⟩
    · exact h.pieceLength? hbehind
    · dsimp only
      rw [heq]
      exact pieceLength?_dot h hbehind
  | number =>
    have hbehind := hends (.inr rfl)
    rcases h with h | ⟨rest, heq, h⟩
    · exact pieceLength?_number h hbehind
    · dsimp only
      rw [heq]
      exact pieceLength?_negative h hbehind
  | string =>
    obtain ⟨quote, body, hquote, hbody, heq⟩ := h
    dsimp only
    rw [heq, List.cons_append, List.append_assoc, List.singleton_append,
      pieceLength?_string hquote hbody]
    simp
  | mark =>
    obtain ⟨c, hc, heq⟩ := h
    dsimp only
    rw [heq]
    exact pieceLength?_mark hc s

theorem lexes_word {w : Word} (h : Spelled w) {s : List Char}
    (hends : w.1 = .name ∨ w.1 = .number → ∀ c ∈ s.head?, Separates c) {ws : List Word}
    (hws : Lexes s ws) : Lexes (w.2.toList ++ s) (w :: ws) := by
  have hrest : Lexes ((w.2.toList ++ s).drop w.2.toList.length) ws := by rwa [List.drop_left]
  have htoken := Lexes.token (pieceLength?_of_spelled h hends) hrest
  rwa [List.take_left, String.ofList_toList] at htoken

/-- Words that are spelled as tokens are the tokens of each of their layouts. -/
theorem lexes_of_layout {ws : List Word} {s : List Char} (h : Layout ws s)
    (hws : ∀ w ∈ ws, Spelled w) : Lexes s ws := by
  induction h with
  | nil => exact .nil
  | blank hc rest ih => exact lexes_blank hc (ih hws)
  | line hbody rest ih => exact lexes_line hbody (ih hws)
  | block hbody rest ih => exact lexes_block hbody (ih hws)
  | word hends rest ih =>
    rw [List.forall_mem_cons] at hws
    exact lexes_word hws.1 hends (ih hws.2)

/-- The tokens of a text behind a package statement. -/
theorem lexes_package {p : String} (hp : IsDotted p.toList) {text : List Char} {ws : List Word}
    (hws : Lexes text ws) :
    Lexes ("package".toList ++ ' ' :: (p.toList ++ (";".toList ++ text)))
      ((.name, "package") :: (.name, p) :: (.mark, ";") :: ws) := by
  have hkeyword : IsDotted "package".toList :=
    .word ⟨'p', "ackage".toList, rfl, by decide, List.all_eq_true.1 (by decide)⟩
  have hmark : ';' ∈ marks := by decide
  have hblank : isBlank ' ' = true := by decide
  have hsemicolon := lexes_word (w := (.mark, ";")) ⟨';', hmark, rfl⟩ (by simp) hws
  have hname := lexes_word (w := (.name, p)) (.inl hp)
    (fun _ c hc => by cases hc; exact .inr (.inr hmark)) hsemicolon
  exact lexes_word (w := (.name, "package")) (.inl hkeyword)
    (fun _ c hc => by cases hc; exact .inl hblank) (lexes_blank hblank hname)

/-- Words behind one another with a blank behind each of them. -/
def spaced (ws : List Word) : List Char := ws.flatMap fun w => w.2.toList ++ [' ']

theorem layout_spaced (ws : List Word) : Layout ws (spaced ws) := by
  induction ws with
  | nil => exact .nil
  | cons w ws ih =>
    have hblank : Layout ws (' ' :: spaced ws) := .blank (by decide) ih
    rw [spaced, List.flatMap_cons, List.append_assoc]
    exact .word (fun _ c hc => .inl (by cases hc; decide)) hblank

/-! ### Numbers -/

theorem isDecimalDigit_of_mem_inBase {n : Nat} {c : Char} (h : c ∈ inBase 10 n) :
    isDecimalDigit c = true := by
  obtain ⟨d, hd, rfl⟩ := mem_inBase (by decide) h
  rw [isDecimalDigit, digitValue?_digitChar hd]
  rfl

theorem isMagnitude_inBase (n : Nat) : IsMagnitude (inBase 10 n) :=
  .decimal (inBase_ne_nil 10 n) fun _ hc => isDecimalDigit_of_mem_inBase hc

theorem isNumber_integer (i : Int) : IsNumber (integer i).toList := by
  rw [integer]
  split
  · rw [String.toList_ofList]
    exact .inr ⟨_, rfl, isMagnitude_inBase _⟩
  · rw [decimal, String.toList_ofList]
    exact .inl (isMagnitude_inBase _)

/-- The value of a number without a sign. -/
def magnitudeValue : List Char → Int
  | '0' :: x :: rest => if x = 'x' ∨ x = 'X' then hexValue rest else decimalValue ('0' :: x :: rest)
  | s => decimalValue s

theorem value_eq (t : Token) :
    t.value = if t.text.toList.head? = some '-' then -magnitudeValue t.text.toList.tail
      else magnitudeValue t.text.toList := by
  have hmagnitude : ∀ s : List Char, (match s with
      | '0' :: x :: rest => if x = 'x' ∨ x = 'X' then (hexValue rest : Int) else decimalValue s
      | _ => decimalValue s) = magnitudeValue s := by
    intro s
    unfold magnitudeValue
    split <;> rfl
  rw [Token.value]
  split
  rename_i negative s heq
  refine (congrArg (fun n : Int => if negative = true then -n else n) (hmagnitude s)).trans ?_
  split at heq
  · rename_i htext
    cases heq
    rw [htext]
    rfl
  · rename_i hplain
    cases heq
    have hunsigned : t.text.toList.head? ≠ some '-' := by
      intro hhead
      obtain ⟨rest, hrest⟩ := List.head?_eq_some_iff.1 hhead
      exact hplain rest hrest
    rw [if_neg hunsigned]
    rfl

theorem magnitudeValue_of_digits {s : List Char} (h : ∀ c ∈ s, isDecimalDigit c = true) :
    magnitudeValue s = decimalValue s := by
  unfold magnitudeValue
  split
  · rename_i x rest
    have hdigit := h x (by simp)
    rw [if_neg]
    rintro (rfl | rfl) <;> exact absurd hdigit (by decide)
  · rfl

theorem value_of_integer {t : Token} {i : Int} (h : t.text = integer i) : t.value = i := by
  have hvalue : magnitudeValue (inBase 10 i.natAbs) = i.natAbs := by
    rw [magnitudeValue_of_digits fun _ hc => isDecimalDigit_of_mem_inBase hc, decimalValue_inBase]
  have hunsigned : (inBase 10 i.natAbs).head? ≠ some '-' := by
    intro hhead
    exact absurd (isDecimalDigit_of_mem_inBase (List.mem_of_mem_head? hhead)) (by decide)
  rw [integer] at h
  split at h
  · rw [value_eq, h, String.toList_ofList, List.head?_cons, if_pos rfl, List.tail_cons, hvalue]
    omega
  · rw [value_eq, h, decimal, String.toList_ofList, if_neg hunsigned, hvalue]
    omega

end FeltRelay.Schema.Definitions
