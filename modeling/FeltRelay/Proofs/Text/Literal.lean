import FeltRelay.Proofs.Text.Hex
import FeltRelay.Proofs.Text.Numeral
import FeltRelay.Text.Case
import FeltRelay.Text.Literal
import Mathlib.Data.List.Induction
import Mathlib.Data.List.TakeWhile

/-!
# Literals

What digits spell in positional notation, and which texts are integer literals, said without the
reader, which finds just these (`literal?_eq_some_iff`). A number that is written in hexadecimal is
a literal of the number (`literal?_hexadecimal`); trimming it and writing it small changes nothing.
-/

namespace FeltRelay.Text

/-! ### Ends of texts -/

theorem dropWhile_of_forall_not {p : Char → Bool} {s : List Char} (h : ∀ c ∈ s, p c = false) :
    s.dropWhile p = s := by
  cases s with
  | nil => rfl
  | cons c s => rw [List.dropWhile_cons_of_neg (by simp [h c (List.mem_cons_self ..)])]

section Trimmed

variable {p : Char → Bool} {left mid right : List Char}

/-- What is dropped at the ends of a text. -/
theorem exists_dropped (p : Char → Bool) (s : List Char) : ∃ left right,
    s = left ++ ((s.dropWhile p).reverse.dropWhile p).reverse ++ right ∧
      (∀ c ∈ left, p c = true) ∧ ∀ c ∈ right, p c = true := by
  refine ⟨s.takeWhile p, ((s.dropWhile p).reverse.takeWhile p).reverse, ?_, ?_, ?_⟩
  · have hback := List.takeWhile_append_dropWhile (p := p) (l := (s.dropWhile p).reverse)
    rw [List.append_assoc, ← List.reverse_append, hback, List.reverse_reverse]
    exact List.takeWhile_append_dropWhile.symm
  · exact fun c hc => List.mem_takeWhile_imp hc
  · exact fun c hc => List.mem_takeWhile_imp (List.mem_reverse.1 hc)

theorem dropped_of_ends (hleft : ∀ c ∈ left, p c = true) (hright : ∀ c ∈ right, p c = true)
    (hmid : ∀ c ∈ mid, p c = false) (hne : mid ≠ []) :
    (((left ++ mid ++ right).dropWhile p).reverse.dropWhile p).reverse = mid := by
  have hfront : (left ++ mid ++ right).dropWhile p = mid ++ right := by
    obtain ⟨c, rest, rfl⟩ := List.exists_cons_of_ne_nil hne
    rw [List.append_assoc, List.dropWhile_append_of_pos hleft]
    exact List.dropWhile_cons_of_neg (by simp [hmid c (List.mem_cons_self ..)])
  have hback : (right.reverse ++ mid.reverse).dropWhile p = mid.reverse := by
    rw [List.dropWhile_append_of_pos fun c hc => hright c (List.mem_reverse.1 hc)]
    exact dropWhile_of_forall_not fun c hc => hmid c (List.mem_reverse.1 hc)
  rw [hfront, List.reverse_append, hback, List.reverse_reverse]

theorem head?_dropped (p : Char → Bool) (s : List Char) :
    ∀ c ∈ ((s.dropWhile p).reverse.dropWhile p).reverse.head?, p c = false := by
  intro c hc
  obtain ⟨rest, hrest⟩ := List.dropWhile_suffix p (l := (s.dropWhile p).reverse)
  have hfront : s.dropWhile p = ((s.dropWhile p).reverse.dropWhile p).reverse ++ rest.reverse := by
    rw [← List.reverse_append, hrest, List.reverse_reverse]
  have hhead := List.head?_dropWhile_not p s
  rw [hfront, List.head?_append, Option.mem_def.1 hc] at hhead
  exact hhead

theorem getLast?_dropped (p : Char → Bool) (s : List Char) :
    ∀ c ∈ ((s.dropWhile p).reverse.dropWhile p).reverse.getLast?, p c = false := by
  intro c hc
  have hhead := List.head?_dropWhile_not p (s.dropWhile p).reverse
  rw [List.getLast?_reverse, Option.mem_def] at hc
  rw [hc] at hhead
  exact hhead

/-- Trimming takes off blanks only. -/
theorem exists_trimChars (s : List Char) : ∃ left right, s = left ++ trimChars s ++ right ∧
    (∀ c ∈ left, isBlank c = true) ∧ ∀ c ∈ right, isBlank c = true :=
  exists_dropped isBlank s

/-- Trimming takes off all blanks at the ends. -/
theorem trimChars_of_blanks (hleft : ∀ c ∈ left, isBlank c = true)
    (hright : ∀ c ∈ right, isBlank c = true) (hmid : ∀ c ∈ mid, isBlank c = false)
    (hne : mid ≠ []) : trimChars (left ++ mid ++ right) = mid :=
  dropped_of_ends hleft hright hmid hne

end Trimmed

/-! ### Plain texts -/

/-- What trimming and small letters leave as it is: ASCII characters that are no blanks and no
capitals. -/
def IsPlain (c : Char) : Prop :=
  c.toNat < 128 ∧ isBlank c = false ∧ Hex.isAsciiBlank c = false ∧ c.toLower = c

instance (c : Char) : Decidable (IsPlain c) := inferInstanceAs (Decidable (_ ∧ _ ∧ _ ∧ _))

theorem trimChars_of_forall_not {s : List Char} (h : ∀ c ∈ s, isBlank c = false) :
    trimChars s = s := by
  have hback : s.reverse.dropWhile isBlank = s.reverse :=
    dropWhile_of_forall_not fun c hc => h c (List.mem_reverse.1 hc)
  rw [trimChars, trimLeft, trimLeft, dropWhile_of_forall_not h, hback, List.reverse_reverse]

theorem trim_of_isPlain {s : String} (h : ∀ c ∈ s.toList, IsPlain c) : trim s = s := by
  rw [trim, trimChars_of_forall_not fun c hc => (h c hc).2.1, String.ofList_toList]

theorem lowerFrom_of_ascii {s : List Char} (hs : ∀ c ∈ s, c.toNat < 128) (before : List Char) :
    lowerFrom before s = s.map Char.toLower := by
  induction s generalizing before with
  | nil => rfl
  | cons c s ih =>
    have hc : c.toNat < 128 := hs c (List.mem_cons_self ..)
    have hsigma : c ≠ 'Σ' := by
      rintro rfl
      exact absurd hc (by decide)
    rw [lowerFrom, if_neg hsigma, smallOf, if_pos hc,
      ih fun d hd => hs d (List.mem_cons_of_mem _ hd)]
    rfl

theorem lower_of_isPlain {s : String} (h : ∀ c ∈ s.toList, IsPlain c) : lower s = s := by
  have hsmall : s.toList.map Char.toLower = s.toList :=
    (List.map_congr_left fun c hc => (h c hc).2.2.2).trans (List.map_id _)
  rw [lower, lowerFrom_of_ascii fun c hc => (h c hc).1, hsmall, String.ofList_toList]

theorem asciiTrimmed_of_isPlain {s : String} (h : ∀ c ∈ s.toList, IsPlain c) :
    asciiTrimmed s = s.toList := by
  have hascii : s.toList.map inAscii = s.toList :=
    (List.map_congr_left fun c hc => if_pos (h c hc).1).trans (List.map_id _)
  have hfront : s.toList.dropWhile Hex.isAsciiBlank = s.toList :=
    dropWhile_of_forall_not fun c hc => (h c hc).2.2.1
  have hback : s.toList.reverse.dropWhile Hex.isAsciiBlank = s.toList.reverse :=
    dropWhile_of_forall_not fun c hc => (h c (List.mem_reverse.1 hc)).2.2.1
  rw [asciiTrimmed, hascii, hfront, hback, List.reverse_reverse]

/-! ### Numerals -/

/-- The number that digits of a base spell, the last digit counting for itself. -/
inductive Numeral (base : Nat) : List Char → Nat → Prop
  | digit {c : Char} {d : Nat} (h : digitIn? base c = some d) : Numeral base [c] d
  | append {s : List Char} {n : Nat} {c : Char} {d : Nat} (hs : Numeral base s n)
    (h : digitIn? base c = some d) : Numeral base (s ++ [c]) (n * base + d)

theorem Numeral.ne_nil {base n : Nat} {s : List Char} (h : Numeral base s n) : s ≠ [] := by
  cases h with
  | digit _ => exact List.cons_ne_nil _ _
  | append _ _ => exact List.append_ne_nil_of_right_ne_nil _ (List.cons_ne_nil _ _)

theorem Numeral.isDigit {base n : Nat} {s : List Char} (h : Numeral base s n) :
    ∀ c ∈ s, (digitIn? base c).isSome := by
  induction h with
  | digit h => exact fun c hc => List.mem_singleton.1 hc ▸ Option.isSome_of_mem h
  | append _ h ih =>
    intro c hc
    rcases List.mem_append.1 hc with hc | hc
    · exact ih c hc
    · exact List.mem_singleton.1 hc ▸ Option.isSome_of_mem h

theorem mapM_digitIn?_append {base : Nat} {s : List Char} {c : Char} {ds : List Nat} :
    (s ++ [c]).mapM (digitIn? base) = some ds ↔
      ∃ ds' d, s.mapM (digitIn? base) = some ds' ∧ digitIn? base c = some d ∧ ds = ds' ++ [d] := by
  rw [List.mapM_append, List.mapM_cons, List.mapM_nil]
  cases s.mapM (digitIn? base) with
  | none => simp
  | some ds' =>
    cases digitIn? base c with
    | none => simp
    | some d => simp [eq_comm]

theorem valueOf_singleton (base d : Nat) : valueOf base [d] = d :=
  (congrArg (· + d) (Nat.zero_mul base)).trans (Nat.zero_add d)

theorem Numeral.digits {base n : Nat} {s : List Char} (h : Numeral base s n) :
    ∃ ds, s.mapM (digitIn? base) = some ds ∧ valueOf base ds = n := by
  induction h with
  | @digit c d h =>
    refine ⟨[d], ?_, valueOf_singleton base d⟩
    rw [List.mapM_cons, h]
    rfl
  | @append s n c d _ h ih =>
    obtain ⟨ds, hds, rfl⟩ := ih
    exact ⟨ds ++ [d], mapM_digitIn?_append.2 ⟨ds, d, hds, h, rfl⟩, valueOf_append base ds d⟩

theorem numeral_of_mapM {base : Nat} {s : List Char} {ds : List Nat} (hne : s ≠ [])
    (h : s.mapM (digitIn? base) = some ds) : Numeral base s (valueOf base ds) := by
  induction s using List.reverseRecOn generalizing ds with
  | nil => exact absurd rfl hne
  | append_singleton s c ih =>
    obtain ⟨ds', d, hds, hd, rfl⟩ := mapM_digitIn?_append.1 h
    cases s with
    | nil =>
      cases hds
      rw [List.reverse_nil, List.nil_append, List.nil_append, valueOf_singleton]
      exact .digit hd
    | cons e s =>
      rw [valueOf_append]
      exact .append (ih (List.cons_ne_nil _ _) hds) hd

/-- The digits of a number are a numeral of it. -/
theorem numeral_inBase {base : Nat} (hb : 2 ≤ base) (hb' : base ≤ 16) (n : Nat) :
    Numeral base (inBase base n) n := by
  obtain ⟨ds, hds, hvalue⟩ := mapM_inBase hb hb' n
  have hnumeral := numeral_of_mapM (inBase_ne_nil base n) hds
  rwa [hvalue] at hnumeral

section Literals

variable {s t ds : List Char} {base m n : Nat} {c : Char} {i : Int} {text : String}

/-! ### Grouped digits -/

/-- Characters between some two of which an underscore stands, and the characters alone. -/
inductive Grouped : List Char → List Char → Prop
  | last (c : Char) : Grouped [c] [c]
  | next (c : Char) {s ds : List Char} (h : Grouped s ds) : Grouped (c :: s) (c :: ds)
  | underscore (c : Char) {s ds : List Char} (h : Grouped s ds) : Grouped (c :: '_' :: s) (c :: ds)

theorem grouped_self {s : List Char} (hs : s ≠ []) : Grouped s s := by
  match s with
  | [] => exact absurd rfl hs
  | [c] => exact .last c
  | c :: d :: s => exact .next c (grouped_self (List.cons_ne_nil d s))

theorem Grouped.eq_or_mem (h : Grouped s ds) : ∀ c ∈ s, c = '_' ∨ c ∈ ds := by
  induction h with
  | last d =>
    intro c hc
    exact .inr hc
  | next d h ih =>
    intro c hc
    rcases List.mem_cons.1 hc with rfl | hc
    · exact .inr (List.mem_cons_self ..)
    · exact (ih c hc).imp_right (List.mem_cons_of_mem d)
  | underscore d h ih =>
    intro c hc
    rcases List.mem_cons.1 hc with rfl | hc
    · exact .inr (List.mem_cons_self ..)
    rcases List.mem_cons.1 hc with rfl | hc
    · exact .inl rfl
    · exact (ih c hc).imp_right (List.mem_cons_of_mem d)

/-- Behind a digit the text ends, an underscore stands or the group goes on. -/
theorem underscored?_false_eq_some_iff : underscored? base false n s = some m ↔
    (s = [] ∧ m = n) ∨ (∃ t, s = '_' :: t ∧ underscored? base true n t = some m) ∨
      underscored? base true n s = some m := by
  cases s with
  | nil => simp [underscored?, eq_comm]
  | cons c s =>
    by_cases hc : c = '_'
    · subst hc
      simp [underscored?]
    · simp [underscored?, hc]

theorem underscored?_true_cons (hbase : digitIn? base '_' = none) :
    underscored? base true n (c :: s) = some m ↔
      ∃ d, digitIn? base c = some d ∧ underscored? base false (n * base + d) s = some m := by
  by_cases hc : c = '_'
  · subst hc
    simp [underscored?, hbase]
  · cases hd : digitIn? base c <;> simp [underscored?, hc, hd]

theorem mapM_digitIn?_cons {vs : List Nat} : (c :: s).mapM (digitIn? base) = some vs ↔
    ∃ d vs', digitIn? base c = some d ∧ s.mapM (digitIn? base) = some vs' ∧ vs = d :: vs' := by
  rw [List.mapM_cons]
  cases digitIn? base c with
  | none => simp
  | some d => cases s.mapM (digitIn? base) <;> simp [eq_comm]

theorem exists_grouped (hbase : digitIn? base '_' = none) {s : List Char} {n : Nat}
    (h : underscored? base true n s = some m) : ∃ ds vs, Grouped s ds ∧
      ds.mapM (digitIn? base) = some vs ∧ vs.foldl (· * base + ·) n = m := by
  match s with
  | [] => cases h
  | c :: s =>
    obtain ⟨d, hd, hrest⟩ := (underscored?_true_cons hbase).1 h
    rcases underscored?_false_eq_some_iff.1 hrest with ⟨rfl, rfl⟩ | ⟨t, rfl, ht⟩ | hs
    · exact ⟨[c], [d], .last c, mapM_digitIn?_cons.2 ⟨d, [], hd, rfl, rfl⟩, rfl⟩
    · obtain ⟨ds, vs, hds, hvs, hm⟩ := exists_grouped hbase ht
      exact ⟨c :: ds, d :: vs, .underscore c hds, mapM_digitIn?_cons.2 ⟨d, vs, hd, hvs, rfl⟩, hm⟩
    · obtain ⟨ds, vs, hds, hvs, hm⟩ := exists_grouped hbase hs
      exact ⟨c :: ds, d :: vs, .next c hds, mapM_digitIn?_cons.2 ⟨d, vs, hd, hvs, rfl⟩, hm⟩
termination_by s.length

theorem Grouped.underscored? (h : Grouped s ds) (hbase : digitIn? base '_' = none) {vs : List Nat}
    (hvs : ds.mapM (digitIn? base) = some vs) :
    underscored? base true n s = some (vs.foldl (· * base + ·) n) := by
  induction h generalizing n vs with
  | last c =>
    obtain ⟨d, vs, hd, hnil, rfl⟩ := mapM_digitIn?_cons.1 hvs
    cases hnil
    exact (underscored?_true_cons hbase).2 ⟨d, hd, rfl⟩
  | next c h ih =>
    obtain ⟨d, vs, hd, hrest, rfl⟩ := mapM_digitIn?_cons.1 hvs
    apply (underscored?_true_cons hbase).2
    exact ⟨d, hd, underscored?_false_eq_some_iff.2 (.inr (.inr (ih hrest)))⟩
  | underscore c h ih =>
    obtain ⟨d, vs, hd, hrest, rfl⟩ := mapM_digitIn?_cons.1 hvs
    apply (underscored?_true_cons hbase).2
    exact ⟨d, hd, underscored?_false_eq_some_iff.2 (.inr (.inl ⟨_, rfl, ih hrest⟩))⟩

/-- Grouped digits and the number that they spell. -/
def Digits (base : Nat) (s : List Char) (n : Nat) : Prop :=
  ∃ ds, Grouped s ds ∧ Numeral base ds n

theorem underscored?_eq_some_iff (hbase : digitIn? base '_' = none) :
    underscored? base true 0 s = some n ↔ Digits base s n := by
  constructor
  · intro h
    obtain ⟨ds, vs, hds, hvs, rfl⟩ := exists_grouped hbase h
    have hne : ds ≠ [] := by cases hds <;> exact List.cons_ne_nil _ _
    exact ⟨ds, hds, numeral_of_mapM hne hvs⟩
  · intro ⟨ds, hds, hn⟩
    obtain ⟨vs, hvs, rfl⟩ := hn.digits
    exact hds.underscored? hbase hvs

/-! ### Literals -/

/-- The marks of the bases. -/
def marks : List (Char × Nat) := [('x', 16), ('X', 16), ('o', 8), ('O', 8), ('b', 2), ('B', 2)]

/-- A natural number in decimal, without zeros in front unless it is zero, or in another base behind
a mark. -/
inductive Unsigned : List Char → Nat → Prop
  | decimal {s : List Char} {n : Nat} (h : Digits 10 s n)
    (hzero : s.head? = some '0' → s = ['0'] ∨ n = 0) : Unsigned s n
  | marked {c : Char} {base : Nat} {s : List Char} {n : Nat} (hc : (c, base) ∈ marks)
    (h : Digits base s n) : Unsigned ('0' :: c :: s) n
  | underscore {c : Char} {base : Nat} {s : List Char} {n : Nat} (hc : (c, base) ∈ marks)
    (h : Digits base s n) : Unsigned ('0' :: c :: '_' :: s) n

/-- An integer literal: a natural number, perhaps behind a sign. -/
inductive Signed : List Char → Int → Prop
  | plain {s : List Char} {n : Nat} (h : Unsigned s n) : Signed s n
  | plus {s : List Char} {n : Nat} (h : Unsigned s n) : Signed ('+' :: s) n
  | minus {s : List Char} {n : Nat} (h : Unsigned s n) : Signed ('-' :: s) (-(n : Int))

/-- A text is a literal of an integer: the digits of every script count, and blanks may stand around
the literal. -/
def IsLiteral (text : String) (i : Int) : Prop :=
  ∃ left mid right, text.toList.map inAscii = left ++ mid ++ right ∧
    (∀ c ∈ left, Hex.isAsciiBlank c = true) ∧ (∀ c ∈ right, Hex.isAsciiBlank c = true) ∧
    Signed mid i

theorem digitIn?_underscore_of_mem_marks (hc : (c, base) ∈ marks) : digitIn? base '_' = none := by
  have hall : ∀ p ∈ marks, digitIn? p.2 '_' = none := by decide
  exact hall (c, base) hc

theorem marked?_eq_some_iff (hbase : digitIn? base '_' = none) : marked? base s = some n ↔
    Digits base s n ∨ ∃ t, s = '_' :: t ∧ Digits base t n := by
  have hnone : ∀ t, ¬Digits base ('_' :: t) n := by
    intro t ht
    rw [← underscored?_eq_some_iff hbase] at ht
    cases ht
  unfold marked?
  split
  · rename_i t
    rw [underscored?_eq_some_iff hbase]
    simp [hnone]
  · rename_i hs
    rw [underscored?_eq_some_iff hbase]
    exact (or_iff_left fun ⟨t, ht, _⟩ => hs t ht).symm

theorem magnitude?_of_mem_marks (hc : (c, base) ∈ marks) :
    magnitude? ('0' :: c :: s) = marked? base s := by
  simp only [marks, List.mem_cons, List.not_mem_nil, or_false, Prod.mk.injEq] at hc
  rcases hc with ⟨rfl, rfl⟩ | ⟨rfl, rfl⟩ | ⟨rfl, rfl⟩ | ⟨rfl, rfl⟩ | ⟨rfl, rfl⟩ | ⟨rfl, rfl⟩ <;> rfl

theorem magnitude?_of_not_mem_marks (hc : ∀ base, (c, base) ∉ marks) :
    magnitude? ('0' :: c :: s) = (underscored? 10 true 0 ('0' :: c :: s)).filter (· = 0) := by
  simp only [marks, List.mem_cons, List.not_mem_nil, or_false, Prod.mk.injEq] at hc
  have hx : ¬(c = 'x' ∨ c = 'X') := by
    intro h
    exact hc 16 (by tauto)
  have ho : ¬(c = 'o' ∨ c = 'O') := by
    intro h
    exact hc 8 (by tauto)
  have hb : ¬(c = 'b' ∨ c = 'B') := by
    intro h
    exact hc 2 (by tauto)
  rw [magnitude?, if_neg hx, if_neg ho, if_neg hb]

/-- No mark is a decimal digit. -/
theorem not_digits_of_mem_marks (hc : (c, base) ∈ marks) : ¬Digits 10 ('0' :: c :: s) n := by
  intro h
  rw [← underscored?_eq_some_iff (by decide)] at h
  simp only [marks, List.mem_cons, List.not_mem_nil, or_false, Prod.mk.injEq] at hc
  rcases hc with ⟨rfl, -⟩ | ⟨rfl, -⟩ | ⟨rfl, -⟩ | ⟨rfl, -⟩ | ⟨rfl, -⟩ | ⟨rfl, -⟩ <;> cases h

theorem unsigned_zero_cons_iff (hc : ∀ base, (c, base) ∉ marks) :
    Unsigned ('0' :: c :: s) n ↔ Digits 10 ('0' :: c :: s) n ∧ n = 0 := by
  constructor
  · intro h
    cases h with
    | decimal h hzero => exact ⟨h, (hzero rfl).resolve_left (by simp)⟩
    | marked hmem => exact absurd hmem (hc _)
    | underscore hmem => exact absurd hmem (hc _)
  · intro ⟨h, hn⟩
    exact .decimal h fun _ => .inr hn

theorem unsigned_marked_iff (hc : (c, base) ∈ marks) : Unsigned ('0' :: c :: s) n ↔
    Digits base s n ∨ ∃ t, s = '_' :: t ∧ Digits base t n := by
  constructor
  · have hbase : ∀ b, (c, b) ∈ marks → b = base := by
      intro b hb
      simp only [marks, List.mem_cons, List.not_mem_nil, or_false, Prod.mk.injEq] at hb hc
      rcases hc with ⟨rfl, rfl⟩ | ⟨rfl, rfl⟩ | ⟨rfl, rfl⟩ | ⟨rfl, rfl⟩ | ⟨rfl, rfl⟩ | ⟨rfl, rfl⟩ <;>
        simpa using hb
    intro h
    cases h with
    | decimal h => exact absurd h (not_digits_of_mem_marks hc)
    | marked hmem h => exact .inl (hbase _ hmem ▸ h)
    | underscore hmem h => exact .inr ⟨_, rfl, hbase _ hmem ▸ h⟩
  · intro h
    rcases h with h | ⟨t, rfl, h⟩
    · exact .marked hc h
    · exact .underscore hc h

theorem magnitude?_eq_some_iff : magnitude? s = some n ↔ Unsigned s n := by
  by_cases hs : ∃ c t, s = '0' :: c :: t
  · obtain ⟨c, t, rfl⟩ := hs
    by_cases hc : ∃ base, (c, base) ∈ marks
    · obtain ⟨base, hc⟩ := hc
      rw [magnitude?_of_mem_marks hc, marked?_eq_some_iff (digitIn?_underscore_of_mem_marks hc),
        unsigned_marked_iff hc]
    · have hnone : ∀ base, (c, base) ∉ marks := not_exists.1 hc
      rw [magnitude?_of_not_mem_marks hnone, unsigned_zero_cons_iff hnone,
        Option.filter_eq_some_iff, underscored?_eq_some_iff (by decide), decide_eq_true_iff]
  · have hplain : magnitude? s = underscored? 10 true 0 s := by
      unfold magnitude?
      split
      · exact absurd ⟨_, _, rfl⟩ hs
      · rfl
    rw [hplain, underscored?_eq_some_iff (by decide)]
    constructor
    · intro h
      refine .decimal h fun hzero => .inl ?_
      rcases s with _ | ⟨d, _ | ⟨c, t⟩⟩
      · cases hzero
      · cases hzero
        rfl
      · cases hzero
        exact absurd ⟨c, t, rfl⟩ hs
    · intro h
      cases h with
      | decimal h => exact h
      | marked => exact absurd ⟨_, _, rfl⟩ hs
      | underscore => exact absurd ⟨_, _, rfl⟩ hs

theorem Digits.eq_or_isDigit (h : Digits base s n) :
    ∀ c ∈ s, c = '_' ∨ (digitIn? base c).isSome = true := by
  obtain ⟨ds, hds, hn⟩ := h
  exact fun c hc => (hds.eq_or_mem c hc).imp_right (hn.isDigit c)

theorem isAsciiBlank_of_digitIn? (h : (digitIn? base c).isSome = true) :
    Hex.isAsciiBlank c = false := by
  obtain ⟨d, hd⟩ := Option.isSome_iff_exists.1 h
  have hmin := (Hex.toNat_of_digitIn? hd).1
  have hspace : c ≠ ' ' := by
    rintro rfl
    exact absurd hmin (by decide)
  simp only [Hex.isAsciiBlank, hspace, decide_false, Bool.false_or, Bool.and_eq_false_iff,
    decide_eq_false_iff_not]
  omega

theorem Digits.not_blank (h : Digits base s n) : ∀ c ∈ s, Hex.isAsciiBlank c = false := by
  intro c hc
  rcases h.eq_or_isDigit c hc with rfl | hdigit
  · rfl
  · exact isAsciiBlank_of_digitIn? hdigit

theorem isAsciiBlank_of_mem_marks (hc : (c, base) ∈ marks) : Hex.isAsciiBlank c = false := by
  have hall : ∀ p ∈ marks, Hex.isAsciiBlank p.1 = false := by decide
  exact hall (c, base) hc

theorem Unsigned.not_blank (h : Unsigned s n) : ∀ c ∈ s, Hex.isAsciiBlank c = false := by
  cases h with
  | decimal h => exact h.not_blank
  | marked hc h => simpa [isAsciiBlank_of_mem_marks hc] using ⟨by decide, h.not_blank⟩
  | underscore hc h =>
    simpa [isAsciiBlank_of_mem_marks hc] using ⟨by decide, by decide, h.not_blank⟩

theorem Unsigned.head?_isSome (h : Unsigned s n) :
    ∃ c, s.head? = some c ∧ (digitIn? 10 c).isSome = true := by
  cases h with
  | decimal h =>
    obtain ⟨ds, hds, hn⟩ := h
    cases hds with
    | last c => exact ⟨c, rfl, hn.isDigit c (List.mem_cons_self ..)⟩
    | next c => exact ⟨c, rfl, hn.isDigit c (List.mem_cons_self ..)⟩
    | underscore c => exact ⟨c, rfl, hn.isDigit c (List.mem_cons_self ..)⟩
  | marked => exact ⟨'0', rfl, rfl⟩
  | underscore => exact ⟨'0', rfl, rfl⟩

theorem Signed.not_blank (h : Signed s i) : ∀ c ∈ s, Hex.isAsciiBlank c = false := by
  cases h with
  | plain h => exact h.not_blank
  | plus h => simpa using ⟨by decide, h.not_blank⟩
  | minus h => simpa using ⟨by decide, h.not_blank⟩

theorem Signed.ne_nil (h : Signed s i) : s ≠ [] := by
  cases h with
  | plain h =>
    rintro rfl
    obtain ⟨c, hc, -⟩ := h.head?_isSome
    cases hc
  | plus => exact List.cons_ne_nil _ _
  | minus => exact List.cons_ne_nil _ _

/-- The reader of literals without the blanks around them. -/
def signedMagnitude? (s : List Char) : Option Int :=
  match s with
  | '-' :: rest => (magnitude? rest).map fun (n : Nat) => -(n : Int)
  | '+' :: rest => (magnitude? rest).map fun (n : Nat) => (n : Int)
  | s => (magnitude? s).map fun (n : Nat) => (n : Int)

theorem literal?_eq (text : String) : literal? text = signedMagnitude? (asciiTrimmed text) := by
  have hlift : ∀ (o : Option Nat) (f : Int → Int),
      (do let n ← o; pure (n : Int)).map f = o.map fun (n : Nat) => f n := by
    intro o f
    cases o <;> rfl
  simp only [literal?, signed?, hlift]
  rfl

theorem signedMagnitude?_eq_some_iff : signedMagnitude? s = some i ↔ Signed s i := by
  unfold signedMagnitude?
  split
  · simp only [Option.map_eq_some_iff, magnitude?_eq_some_iff]
    constructor
    · intro ⟨n, hn, hi⟩
      exact hi ▸ .minus hn
    · intro h
      cases h with
      | plain h =>
        obtain ⟨c, hc, hdigit⟩ := h.head?_isSome
        cases hc
        cases hdigit
      | minus h => exact ⟨_, h, rfl⟩
  · simp only [Option.map_eq_some_iff, magnitude?_eq_some_iff]
    constructor
    · intro ⟨n, hn, hi⟩
      exact hi ▸ .plus hn
    · intro h
      cases h with
      | plain h =>
        obtain ⟨c, hc, hdigit⟩ := h.head?_isSome
        cases hc
        cases hdigit
      | plus h => exact ⟨_, h, rfl⟩
  · rename_i hminus hplus
    simp only [Option.map_eq_some_iff, magnitude?_eq_some_iff]
    constructor
    · intro ⟨n, hn, hi⟩
      exact hi ▸ .plain hn
    · intro h
      cases h with
      | plain h => exact ⟨_, h, rfl⟩
      | plus => exact absurd rfl (hplus _)
      | minus => exact absurd rfl (hminus _)

/-- The reader of literals gives the integer that a text is a literal of. -/
theorem literal?_eq_some_iff : literal? text = some i ↔ IsLiteral text i := by
  rw [literal?_eq, signedMagnitude?_eq_some_iff]
  constructor
  · intro h
    obtain ⟨left, right, htext, hleft, hright⟩ :=
      exists_dropped Hex.isAsciiBlank (text.toList.map inAscii)
    exact ⟨left, _, right, htext, hleft, hright, h⟩
  · intro ⟨left, mid, right, htext, hleft, hright, h⟩
    have htrimmed : asciiTrimmed text = mid := by
      rw [asciiTrimmed, htext]
      exact dropped_of_ends hleft hright h.not_blank h.ne_nil
    rwa [htrimmed]

end Literals

/-! ### Hexadecimal -/

theorem toList_hexadecimal (n : Nat) : (hexadecimal n).toList = '0' :: 'x' :: inBase 16 n :=
  String.toList_ofList

theorem isPlain_of_mem_hexadecimal {n : Nat} {c : Char} (h : c ∈ (hexadecimal n).toList) :
    IsPlain c ∧ c ≠ ';' := by
  have hdigit : ∀ d < 16, IsPlain (digitChar d) ∧ digitChar d ≠ ';' := by decide
  rw [toList_hexadecimal] at h
  rcases List.mem_cons.1 h with rfl | h
  · decide
  rcases List.mem_cons.1 h with rfl | h
  · decide
  obtain ⟨d, hd, rfl⟩ := mem_inBase (by decide) h
  exact hdigit d hd

/-- A number in hexadecimal is a literal of the number. -/
theorem literal?_hexadecimal (n : Nat) : literal? (hexadecimal n) = some (n : Int) := by
  have hdigits : Digits 16 (inBase 16 n) n :=
    ⟨inBase 16 n, grouped_self (inBase_ne_nil 16 n), numeral_inBase (by decide) (by decide) n⟩
  have htrimmed : asciiTrimmed (hexadecimal n) = '0' :: 'x' :: inBase 16 n := by
    rw [asciiTrimmed_of_isPlain fun c hc => (isPlain_of_mem_hexadecimal hc).1, toList_hexadecimal]
  rw [literal?_eq, htrimmed, signedMagnitude?_eq_some_iff]
  exact .plain (.marked (by decide) hdigits)

end FeltRelay.Text
