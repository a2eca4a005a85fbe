import FeltRelay.Proofs.Entries
import FeltRelay.Proofs.Json.Text
import Mathlib.Data.List.TakeDrop

/-!
# JSON values read back

A value without floating-point numbers is read back from the text that is written for it, in every
style whose separators are those of the grammar with blanks behind them (`read?_write_append`). The
reader spends one step on a value and one on each item behind it, so the length of the text is
enough.
-/

namespace FeltRelay.Json

open FeltRelay.Text

/-- A value without floating-point numbers, no object of which repeats a name. -/
inductive Plain : Json → Prop
  | null : Plain .null
  | bool (b : Bool) : Plain (.bool b)
  | int (i : Int) : Plain (.int i)
  | str (s : String) : Plain (.str s)
  | arr {items : List Json} (each : ∀ v ∈ items, Plain v) : Plain (.arr items)
  | obj {ms : List (String × Json)} (nodup : (Entries.keys ms).Nodup)
      (each : ∀ e ∈ ms, Plain e.2) : Plain (.obj ms)

/-- Separators are those of the grammar, with blanks behind them. -/
structure Style.Regular (st : Style) : Prop where
  comma : ∃ gap, st.comma = ',' :: gap ∧ ∀ c ∈ gap, isGap c = true
  colon : ∃ gap, st.colon = ':' :: gap ∧ ∀ c ∈ gap, isGap c = true

theorem regular_indented : Style.indented.Regular := by
  refine ⟨⟨[], rfl, fun c hc => absurd hc List.not_mem_nil⟩, ⟨[' '], rfl, fun c hc => ?_⟩⟩
  rw [List.mem_singleton.1 hc]
  rfl

theorem regular_canonical : Style.canonical.Regular := by
  have hnone : ∀ c ∈ ([] : List Char), isGap c = true := fun c hc => absurd hc List.not_mem_nil
  exact ⟨⟨[], rfl, hnone⟩, ⟨[], rfl, hnone⟩⟩

variable {st : Style}

/-! ### Blanks -/

theorem skipGap_append {gap : List Char} (h : ∀ c ∈ gap, isGap c = true) (s : List Char) :
    skipGap (gap ++ s) = skipGap s := by
  rw [skipGap, List.dropWhile_append_of_pos h]
  rfl

theorem skipGap_cons {c : Char} (h : isGap c = false) (s : List Char) :
    skipGap (c :: s) = c :: s := by
  rw [skipGap, List.dropWhile_cons_of_neg (by rw [h]; exact Bool.false_ne_true)]

theorem isGap_newline (st : Style) (level : Nat) : ∀ c ∈ st.newline level, isGap c = true := by
  intro c hc
  unfold Style.newline at hc
  split at hc
  · cases hc
  · rcases List.mem_cons.1 hc with rfl | hc
    · rfl
    · rw [(List.mem_replicate.1 hc).2]
      rfl

/-! ### What follows a value -/

/-- What may follow a value: the end, a separator, a closing bracket or a blank. -/
def Ends (rest : List Char) : Prop :=
  ∀ c s, rest = c :: s → c = ',' ∨ c = ']' ∨ c = '\x7d' ∨ isGap c = true

theorem ends_cons {c : Char} (h : c = ',' ∨ c = ']' ∨ c = '\x7d' ∨ isGap c = true) (s : List Char) :
    Ends (c :: s) := by
  intro c' s' heq
  cases heq
  exact h

theorem ends_append {gap : List Char} (hgap : ∀ c ∈ gap, isGap c = true) {c : Char}
    (h : c = ',' ∨ c = ']' ∨ c = '\x7d' ∨ isGap c = true) (s : List Char) :
    Ends (gap ++ c :: s) := by
  cases gap with
  | nil => exact ends_cons h s
  | cons g gap => exact ends_cons (.inr (.inr (.inr (hgap g (List.mem_cons_self ..))))) _

/-- A number does not go on in what may follow it. -/
theorem Ends.head {c : Char} {s : List Char} (h : Ends (c :: s)) :
    c.isDigit = false ∧ c ≠ '.' ∧ ¬(c = 'e' ∨ c = 'E') := by
  rcases h c s rfl with rfl | rfl | rfl | hgap
  · decide
  · decide
  · decide
  · simp only [isGap, Bool.or_eq_true, decide_eq_true_eq] at hgap
    rcases hgap with ((rfl | rfl) | rfl) | rfl <;> decide

/-! ### Integers -/

theorem isDigit_of_mem_inBase {n : Nat} {c : Char} (h : c ∈ inBase 10 n) : c.isDigit = true := by
  obtain ⟨d, hd, rfl⟩ := mem_inBase (by decide) h
  exact isDigit_digitChar hd

theorem spanDigits_inBase (n : Nat) {rest : List Char} (h : Ends rest) :
    spanDigits (inBase 10 n ++ rest) = (inBase 10 n, rest) := by
  have hall : ∀ c ∈ inBase 10 n, c.isDigit = true := fun c hc => isDigit_of_mem_inBase hc
  rw [spanDigits, List.span_eq_takeWhile_dropWhile, List.takeWhile_append_of_pos hall,
    List.dropWhile_append_of_pos hall]
  cases rest with
  | nil => simp
  | cons c s =>
    have hc := h.head.1
    simp [hc]

theorem readFraction?_of_ends {rest : List Char} (h : Ends rest) : readFraction? rest = none := by
  unfold readFraction?
  split
  · exact absurd rfl h.head.2.1
  · rfl

theorem readExponent?_of_ends {rest : List Char} (h : Ends rest) : readExponent? rest = none := by
  unfold readExponent?
  split
  · rw [if_neg h.head.2.2]
  · rfl

theorem readMagnitude_inBase (negative : Bool) (n : Nat) {rest : List Char} (h : Ends rest) :
    readMagnitude negative (inBase 10 n ++ rest) =
      some (.int (if negative then -(n : Int) else n), rest) := by
  by_cases h0 : n = 0
  · subst h0
    have hzero : inBase 10 0 = ['0'] := rfl
    simp only [readMagnitude, hzero, List.cons_append, List.nil_append, List.isEmpty_cons,
      Bool.false_eq_true, if_false, readFraction?_of_ends h, readExponent?_of_ends h]
    rfl
  · obtain ⟨c, s, heq, hc⟩ := inBase_eq_cons (by decide : 2 ≤ 10) (by decide) h0
    have hspan := spanDigits_inBase n h
    have hvalue := decimalValue_inBase n
    rw [heq] at hspan hvalue ⊢
    rw [readMagnitude, hspan]
    · simp only [List.isEmpty_cons, Bool.false_eq_true, if_false, readFraction?_of_ends h,
        readExponent?_of_ends h, hvalue]
    · intro r hcons
      cases hcons
      exact hc rfl

/-- No word begins as a number does. -/
theorem ne_of_number {c l : Char} (h : c = '-' ∨ c.isDigit = true)
    (hl : l ∈ ['n', 't', 'f', 'N', 'I', ']', '"', '[', '\x7b', ' ', '\t', '\n', '\r']) : l ≠ c := by
  rintro rfl
  simp only [List.mem_cons, List.not_mem_nil, or_false] at hl
  rcases hl with rfl | rfl | rfl | rfl | rfl | rfl | rfl | rfl | rfl | rfl | rfl | rfl | rfl
  all_goals exact absurd h (by decide)

theorem afterWord?_of_ne {w c : Char} (h : w ≠ c) (word s : List Char) :
    afterWord? (w :: word) (c :: s) = none := by
  rw [afterWord?, if_neg h]

theorem readAtom_of_number {c : Char} (h : c = '-' ∨ c.isDigit = true) (s : List Char) :
    readAtom (c :: s) = readNumber (c :: s) := by
  simp only [readAtom, words, List.findSome?_cons, List.findSome?_nil,
    afterWord?_of_ne (ne_of_number h (by decide : 'n' ∈ _)),
    afterWord?_of_ne (ne_of_number h (by decide : 't' ∈ _)),
    afterWord?_of_ne (ne_of_number h (by decide : 'f' ∈ _)),
    afterWord?_of_ne (ne_of_number h (by decide : 'N' ∈ _)),
    afterWord?_of_ne (ne_of_number h (by decide : 'I' ∈ _)), Option.map_none]

/-- The first character of an integer. -/
theorem integer_eq_cons (i : Int) :
    ∃ c s, (integer i).toList = c :: s ∧ (c = '-' ∨ c.isDigit = true) := by
  rw [integer]
  split
  · rw [String.toList_ofList]
    exact ⟨'-', _, rfl, .inl rfl⟩
  · rw [decimal, String.toList_ofList]
    cases h : inBase 10 i.natAbs with
    | nil => exact absurd h (inBase_ne_nil 10 _)
    | cons c s =>
      exact ⟨c, s, rfl, .inr (isDigit_of_mem_inBase (h ▸ List.mem_cons_self ..))⟩

theorem readAtom_integer (i : Int) {rest : List Char} (h : Ends rest) :
    readAtom ((integer i).toList ++ rest) = some (.int i, rest) := by
  obtain ⟨c, s, heq, hc⟩ := integer_eq_cons i
  have hatom := readAtom_of_number hc (s ++ rest)
  rw [heq, List.cons_append, hatom, ← List.cons_append, ← heq, integer]
  by_cases hi : i < 0
  · rw [if_pos hi, String.toList_ofList, List.cons_append, readNumber]
    have hword : afterWord? "Infinity".toList (inBase 10 i.natAbs ++ rest) = none := by
      cases hd : inBase 10 i.natAbs with
      | nil => exact absurd hd (inBase_ne_nil 10 _)
      | cons d ds =>
        have hdigit := isDigit_of_mem_inBase (hd ▸ List.mem_cons_self .. : d ∈ inBase 10 i.natAbs)
        exact afterWord?_of_ne (ne_of_number (.inr hdigit) (by decide : 'I' ∈ _)) _ _
    rw [hword]
    dsimp only
    rw [readMagnitude_inBase true _ h, if_pos rfl]
    congr 3
    omega
  · rw [if_neg hi, decimal, String.toList_ofList, readNumber, readMagnitude_inBase false _ h]
    · rw [if_neg Bool.false_ne_true]
      congr 3
      omega
    · intro r hr
      cases hd : inBase 10 i.natAbs with
      | nil => exact inBase_ne_nil 10 _ hd
      | cons d ds =>
        have hdigit := isDigit_of_mem_inBase (hd ▸ List.mem_cons_self .. : d ∈ inBase 10 i.natAbs)
        rw [hd] at hr
        cases hr
        cases hdigit

/-! ### Values -/

/-- Other values than texts, arrays and objects are atoms. -/
theorem readValue_atom {c : Char} (h : c ≠ '"' ∧ c ≠ '[' ∧ c ≠ '\x7b') (fuel : Nat) (s : List Char) :
    readValue (fuel + 1) (c :: s) = readAtom (c :: s) := by
  rw [readValue]
  · intro rest heq
    cases heq
    exact h.1 rfl
  · intro rest heq
    cases heq
    exact h.2.1 rfl
  · intro rest heq
    cases heq
    exact h.2.2 rfl

/-- The text of a value begins with no blank and closes nothing. -/
theorem writeAt_eq_cons (st : Style) {v : Json} (h : Plain v) (level : Nat) :
    ∃ c s, writeAt st level v = c :: s ∧ isGap c = false ∧ c ≠ ']' := by
  cases h with
  | null => exact ⟨'n', _, rfl, by decide, by decide⟩
  | bool b =>
    cases b with
    | false => exact ⟨'f', _, rfl, by decide, by decide⟩
    | true => exact ⟨'t', _, rfl, by decide, by decide⟩
  | int i =>
    obtain ⟨c, s, heq, hc⟩ := integer_eq_cons i
    refine ⟨c, s, heq, ?_, (ne_of_number hc (by decide)).symm⟩
    rw [Bool.eq_false_iff]
    intro hgap
    simp only [isGap, Bool.or_eq_true, decide_eq_true_eq] at hgap
    rcases hgap with ((rfl | rfl) | rfl) | rfl
    all_goals exact absurd hc (by decide)
  | str s => exact ⟨'"', _, rfl, by decide, by decide⟩
  | arr each =>
    rename_i items
    cases items with
    | nil => exact ⟨'[', _, rfl, by decide, by decide⟩
    | cons v vs => exact ⟨'[', _, rfl, by decide, by decide⟩
  | obj nodup each =>
    rename_i ms
    cases ms with
    | nil => exact ⟨'\x7b', _, rfl, by decide, by decide⟩
    | cons e ms => exact ⟨'\x7b', _, rfl, by decide, by decide⟩

theorem skipGap_writeAt {v : Json} (h : Plain v) (level : Nat) (rest : List Char) :
    skipGap (writeAt st level v ++ rest) = writeAt st level v ++ rest := by
  obtain ⟨c, s, heq, hc, -⟩ := writeAt_eq_cons st h level
  rw [heq, List.cons_append, skipGap_cons hc]

/-- The reader of a fuel reads back what takes no more characters: a value, the items of an array
behind those read so far, the members of an object. -/
structure ReadsBack (st : Style) (fuel : Nat) : Prop where
  value : ∀ {level v rest}, Plain v → Ends rest → (writeAt st level v).length ≤ fuel →
    readValue fuel (writeAt st level v ++ rest) = some (v, rest)
  items : ∀ {level} acc rest {v vs gap}, Plain v → (∀ w ∈ vs, Plain w) → (∀ c ∈ gap, isGap c = true) →
    (writeAt st level v).length + (writeItems st level vs).length < fuel →
    readItems fuel acc (writeAt st level v ++ (writeItems st level vs ++ gap ++ ']' :: rest)) =
      some (.arr (acc.reverse ++ v :: vs), rest)
  members : ∀ {level} acc k rest {v ms gap}, Plain v → (∀ e ∈ ms, Plain e.2) →
    (∀ c ∈ gap, isGap c = true) →
    (writeAt st level v).length + (writeMembers st level ms).length < fuel →
    readMembers fuel acc (writeText st.ascii k ++ st.colon ++ writeAt st level v ++
        (writeMembers st level ms ++ gap ++ '\x7d' :: rest)) =
      some (.obj (Entries.ofPairs (acc.reverse ++ (k, v) :: ms)), rest)

theorem readsBack_zero : ReadsBack st 0 := by
  constructor
  · intro level v rest hv _ hlen
    obtain ⟨c, s, heq, -, -⟩ := writeAt_eq_cons st hv level
    rw [heq] at hlen
    cases hlen
  · intro level acc v vs gap rest _ _ _ hlen
    cases hlen
  · intro level acc k v ms gap rest _ _ _ hlen
    cases hlen

variable {fuel : Nat}

/-- Behind an item stands another one, or the end of the array. -/
theorem readsBack_items (hst : st.Regular) (ih : ReadsBack st fuel) {level : Nat} {acc : List Json}
    {v : Json} {vs : List Json} {gap rest : List Char} (hv : Plain v) (hvs : ∀ w ∈ vs, Plain w)
    (hgap : ∀ c ∈ gap, isGap c = true)
    (hlen : (writeAt st level v).length + (writeItems st level vs).length < fuel + 1) :
    readItems (fuel + 1) acc (writeAt st level v ++ (writeItems st level vs ++ gap ++ ']' :: rest)) =
      some (.arr (acc.reverse ++ v :: vs), rest) := by
  cases vs with
  | nil =>
    have hends : Ends (gap ++ ']' :: rest) := ends_append hgap (.inr (.inl rfl)) rest
    rw [writeItems, List.nil_append, readItems, ih.value hv hends (by omega)]
    dsimp only
    rw [skipGap_append hgap, skipGap_cons (by decide)]
    simp
  | cons w ws =>
    obtain ⟨blanks, hcomma, hblanks⟩ := hst.comma
    have hw := hvs w (List.mem_cons_self ..)
    have hws : ∀ u ∈ ws, Plain u := fun u hu => hvs u (List.mem_cons_of_mem _ hu)
    have htext : writeItems st level (w :: ws) ++ gap ++ ']' :: rest = ',' :: (blanks ++
        (st.newline level ++ (writeAt st level w ++
          (writeItems st level ws ++ gap ++ ']' :: rest)))) := by
      simp [writeItems, hcomma]
    have hskip : skipGap (blanks ++ (st.newline level ++ (writeAt st level w ++
        (writeItems st level ws ++ gap ++ ']' :: rest)))) =
        writeAt st level w ++ (writeItems st level ws ++ gap ++ ']' :: rest) := by
      rw [skipGap_append hblanks, skipGap_append (isGap_newline st level), skipGap_writeAt hw]
    have hsmall : (writeAt st level w).length + (writeItems st level ws).length < fuel := by
      simp only [writeItems, hcomma, List.length_append, List.length_cons] at hlen
      omega
    rw [htext, readItems, ih.value hv (ends_cons (.inl rfl) _) (by omega)]
    dsimp only
    rw [skipGap_cons (by decide)]
    change readItems fuel (v :: acc) (skipGap _) = _
    rw [hskip, ih.items _ _ hw hws hgap hsmall]
    simp

/-- Behind a member stands another one, or the end of the object. -/
theorem readsBack_members (hst : st.Regular) (ih : ReadsBack st fuel) {level : Nat}
    {acc : List (String × Json)} {k : String} {v : Json} {ms : List (String × Json)}
    {gap rest : List Char} (hv : Plain v) (hms : ∀ e ∈ ms, Plain e.2)
    (hgap : ∀ c ∈ gap, isGap c = true)
    (hlen : (writeAt st level v).length + (writeMembers st level ms).length < fuel + 1) :
    readMembers (fuel + 1) acc (writeText st.ascii k ++ st.colon ++ writeAt st level v ++
        (writeMembers st level ms ++ gap ++ '\x7d' :: rest)) =
      some (.obj (Entries.ofPairs (acc.reverse ++ (k, v) :: ms)), rest) := by
  obtain ⟨blanks, hcolon, hblanks⟩ := hst.colon
  obtain ⟨body, hbody, hread⟩ := readText_writeText st.ascii k (':' :: (blanks ++
    (writeAt st level v ++ (writeMembers st level ms ++ gap ++ '\x7d' :: rest))))
  have hstart : writeText st.ascii k ++ st.colon ++ writeAt st level v ++
      (writeMembers st level ms ++ gap ++ '\x7d' :: rest) = '"' :: body := by
    rw [← hbody, hcolon]
    simp
  have hskip : skipGap (blanks ++ (writeAt st level v ++
      (writeMembers st level ms ++ gap ++ '\x7d' :: rest))) =
      writeAt st level v ++ (writeMembers st level ms ++ gap ++ '\x7d' :: rest) := by
    rw [skipGap_append hblanks, skipGap_writeAt hv]
  rw [hstart, readMembers, hread]
  dsimp only
  rw [skipGap_cons (by decide)]
  simp only [hskip]
  cases ms with
  | nil =>
    have hends : Ends (gap ++ '\x7d' :: rest) := ends_append hgap (.inr (.inr (.inl rfl))) rest
    rw [writeMembers, List.nil_append, ih.value hv hends (by omega)]
    dsimp only
    rw [skipGap_append hgap, skipGap_cons (by decide)]
    simp
  | cons e ms =>
    obtain ⟨k', w⟩ := e
    obtain ⟨blanks', hcomma, hblanks'⟩ := hst.comma
    have hw : Plain w := hms (k', w) (List.mem_cons_self ..)
    have hms' : ∀ e ∈ ms, Plain e.2 := fun e he => hms e (List.mem_cons_of_mem _ he)
    have htext : writeMembers st level ((k', w) :: ms) ++ gap ++ '\x7d' :: rest = ',' :: (blanks' ++
        (st.newline level ++ (writeText st.ascii k' ++ st.colon ++ writeAt st level w ++
          (writeMembers st level ms ++ gap ++ '\x7d' :: rest)))) := by
      simp [writeMembers, hcomma]
    have hsmall : (writeAt st level w).length + (writeMembers st level ms).length < fuel := by
      simp only [writeMembers, hcomma, List.length_append, List.length_cons] at hlen
      omega
    have hquote : ∀ s, skipGap (writeText st.ascii k' ++ s) = writeText st.ascii k' ++ s :=
      fun s => skipGap_cons (by decide) _
    rw [htext, ih.value hv (ends_cons (.inl rfl) _) (by omega)]
    dsimp only
    rw [skipGap_cons (by decide)]
    change readMembers fuel ((String.ofList k.toList, v) :: acc) (skipGap _) = _
    rw [skipGap_append hblanks', skipGap_append (isGap_newline st level), List.append_assoc,
      List.append_assoc, hquote, ← List.append_assoc, ← List.append_assoc,
      ih.members _ _ _ hw hms' hgap hsmall]
    simp

/-- A value is read back if the items and members within it are. -/
theorem readsBack_value (ih : ReadsBack st fuel) {level : Nat} {v : Json} {rest : List Char}
    (hv : Plain v) (hends : Ends rest) (hlen : (writeAt st level v).length ≤ fuel + 1) :
    readValue (fuel + 1) (writeAt st level v ++ rest) = some (v, rest) := by
  cases hv with
  | null => rfl
  | bool b =>
    cases b with
    | false => rfl
    | true => rfl
  | int i =>
    obtain ⟨c, s, heq, hc⟩ := integer_eq_cons i
    have hne : c ≠ '"' ∧ c ≠ '[' ∧ c ≠ '\x7b' :=
      ⟨(ne_of_number hc (by decide)).symm, (ne_of_number hc (by decide)).symm,
        (ne_of_number hc (by decide)).symm⟩
    have hatom := readAtom_integer i hends
    rw [writeAt]
    rw [heq, List.cons_append] at hatom ⊢
    rw [readValue_atom hne, hatom]
  | str s =>
    obtain ⟨body, hbody, hread⟩ := readText_writeText st.ascii s rest
    rw [writeAt, hbody, readValue, hread]
    simp
  | arr each =>
    rename_i items
    cases items with
    | nil => rfl
    | cons v vs =>
      have hv := each v (List.mem_cons_self ..)
      have hvs : ∀ w ∈ vs, Plain w := fun w hw => each w (List.mem_cons_of_mem _ hw)
      have htext : writeAt st level (.arr (v :: vs)) ++ rest = '[' :: (st.newline (level + 1) ++
          (writeAt st (level + 1) v ++
            (writeItems st (level + 1) vs ++ st.newline level ++ ']' :: rest))) := by
        simp [writeAt]
      have hsmall : (writeAt st (level + 1) v).length + (writeItems st (level + 1) vs).length <
          fuel := by
        simp only [writeAt, List.length_append, List.length_cons] at hlen
        omega
      have hread := ih.items [] rest hv hvs (isGap_newline st level) hsmall
      -- The first item begins with no closing bracket, which would mean an empty array.
      obtain ⟨c, s, heq, -, hc⟩ := writeAt_eq_cons st hv (level + 1)
      rw [htext, readValue, skipGap_append (isGap_newline st _), skipGap_writeAt hv]
      rw [heq] at hread ⊢
      split
      · rename_i hclose
        cases hclose
        exact absurd rfl hc
      · exact hread
  | obj nodup each =>
    rename_i ms
    cases ms with
    | nil => rfl
    | cons e ms =>
      obtain ⟨k, v⟩ := e
      have hv : Plain v := each (k, v) (List.mem_cons_self ..)
      have hms : ∀ e ∈ ms, Plain e.2 := fun e he => each e (List.mem_cons_of_mem _ he)
      have htext : writeAt st level (.obj ((k, v) :: ms)) ++ rest = '\x7b' ::
          (st.newline (level + 1) ++ (writeText st.ascii k ++ st.colon ++
            writeAt st (level + 1) v ++
            (writeMembers st (level + 1) ms ++ st.newline level ++ '\x7d' :: rest))) := by
        simp [writeAt]
      have hsmall : (writeAt st (level + 1) v).length + (writeMembers st (level + 1) ms).length <
          fuel := by
        simp only [writeAt, List.length_append, List.length_cons] at hlen
        omega
      have hread := ih.members [] k rest hv hms (isGap_newline st level)
        hsmall
      have hquote : ∀ s, skipGap (writeText st.ascii k ++ s) = writeText st.ascii k ++ s :=
        fun s => skipGap_cons (by decide) _
      rw [htext, readValue, skipGap_append (isGap_newline st _), List.append_assoc,
        List.append_assoc, hquote, ← List.append_assoc, ← List.append_assoc]
      rw [show writeText st.ascii k = '"' :: (writeText st.ascii k).tail from rfl] at hread ⊢
      rw [List.reverse_nil, List.nil_append, Entries.ofPairs_of_nodup nodup] at hread
      exact hread

theorem readsBack (hst : st.Regular) (fuel : Nat) : ReadsBack st fuel := by
  -- The three readers call each other with one step less, so they are treated together.
  induction fuel with
  | zero => exact readsBack_zero
  | succ fuel ih =>
    exact ⟨readsBack_value ih, fun _ _ => readsBack_items hst ih,
      fun _ _ _ => readsBack_members hst ih⟩

/-- A value is read back from its text, and from its text before blanks. -/
theorem read?_write_append (hst : st.Regular) {v : Json} (hv : Plain v) {gap : String}
    (hgap : ∀ c ∈ gap.toList, isGap c = true) : read? (write st v ++ gap) = some v := by
  have hends : Ends gap.toList := by
    intro c s heq
    exact .inr (.inr (.inr (hgap c (heq ▸ List.mem_cons_self ..))))
  have hlen : (writeAt st 0 v).length ≤ (write st v ++ gap).toList.length + 1 := by
    rw [String.toList_append, List.length_append, write, String.toList_ofList]
    omega
  have hskip := skipGap_append hgap []
  rw [List.append_nil] at hskip
  rw [read?]
  rw [String.toList_append] at hlen ⊢
  rw [write, String.toList_ofList] at hlen ⊢
  rw [skipGap_writeAt hv, (readsBack hst _).value hv hends hlen]
  dsimp only
  rw [hskip]
  rfl

end FeltRelay.Json
