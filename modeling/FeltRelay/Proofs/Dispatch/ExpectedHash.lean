import FeltRelay.Dispatch.Drift
import FeltRelay.Proofs.Cairo.Constant
import FeltRelay.Proofs.Codec.ByteArray
import FeltRelay.Proofs.Text.Literal
import Mathlib.Data.Bool.AllAny
import Mathlib.Tactic.NormNum.Basic
import Mathlib.Tactic.NormNum.Pow

/-!
# Spellings of a hash

A dispatcher is told which hash it should find, as a text or as an integer. A text that spells all
64 digits of the lock's hash is accepted, whatever its case, its mark and the blanks around it, and
so is the element that the first 62 digits spell, as an integer and as a literal of it that has not
the length of a whole hash (`checkDrift_text_eq_ok_iff`). Everything else is a drift.
-/

namespace FeltRelay.Text

variable {s : List Char} {c : Char}

/-! ### Spelled digits -/

/-- The small hexadecimal digits. -/
def smallDigits : List Char :=
  ['0', '1', '2', '3', '4', '5', '6', '7', '8', '9', 'a', 'b', 'c', 'd', 'e', 'f']

/-- A text spells digits: in either case, perhaps behind a mark, and with blanks around them. -/
def Spells (digits text : List Char) : Prop :=
  ∃ left mark ds right, text = left ++ (mark ++ ds) ++ right ∧ (∀ c ∈ left, isBlank c = true) ∧
    (∀ c ∈ right, isBlank c = true) ∧ mark ∈ [[], ['0', 'x'], ['0', 'X']] ∧
    ds.map Char.toLower = digits

set_option maxRecDepth 20000 in
/-- One letter of another script has a small letter in ASCII: the sign of the kelvin. -/
theorem smallRuns_ascii : ∀ r ∈ smallRuns, r.first + r.count * r.stride ≤ 128 ∨
    (128 : Int) ≤ r.first + r.distance ∨
    r.first = 8490 ∧ r.count = 1 ∧ r.stride = 1 ∧ r.distance = -8383 := by
  rw [smallRuns, CaseRun.ofText, String.toList_ofList]
  decide +kernel

theorem target?_of_mem_smallRuns {r : CaseRun} {m n : Nat} (hr : r ∈ smallRuns) (hn : 128 ≤ n)
    (h : r.target? n = some m) : m = 107 ∨ 128 ≤ m := by
  rw [CaseRun.target?] at h
  split at h
  · rename_i hin
    cases h
    rcases smallRuns_ascii r hr with hlow | hhigh | ⟨hfirst, hcount, hstride, hdistance⟩
    · omega
    · omega
    · simp only [hfirst, hcount, hstride, hdistance] at hin ⊢
      omega
  · cases h

/-- A digit or its mark is the small letter of ASCII characters only. -/
theorem toNat_lt_of_smallOf (h : ∀ d ∈ smallOf c, d ∈ 'x' :: smallDigits) : c.toNat < 128 := by
  have hmark : ∀ d ∈ 'x' :: smallDigits, d ≠ 'i' ∧ d.toNat ≠ 107 ∧ d.toNat ≠ 0 ∧ d.toNat < 128 :=
    List.all_iff_forall_prop.1 (by decide)
  by_contra hlarge
  rw [smallOf, if_neg hlarge] at h
  split at h
  · exact (hmark 'i' (h 'i' (List.mem_cons_self ..))).1 rfl
  · obtain ⟨k, hk⟩ : ∃ k, k = (smallRuns.findSome? (·.target? c.toNat)).getD c.toNat := ⟨_, rfl⟩
    rw [← hk] at h
    obtain ⟨-, hkelvin, hpos, hascii⟩ := hmark _ (h _ (List.mem_cons_self ..))
    have hsmall : k = 107 ∨ 128 ≤ k := by
      cases hfind : smallRuns.findSome? (·.target? c.toNat) with
      | none =>
        rw [hfind, Option.getD_none] at hk
        omega
      | some m =>
        obtain ⟨r, hr, hm⟩ := List.exists_of_findSome?_eq_some hfind
        rw [hfind, Option.getD_some] at hk
        exact hk ▸ target?_of_mem_smallRuns hr (by omega) hm
    by_cases hvalid : k.isValidChar
    · have hvalue : (Char.ofNat k).toNat = k := by
        rw [Char.ofNat, dif_pos hvalid]
        rfl
      rw [hvalue] at hkelvin hascii
      omega
    · have hvalue : (Char.ofNat k).toNat = 0 := by
        rw [Char.ofNat, dif_neg hvalid]
        rfl
      exact hpos hvalue

theorem toNat_lt_of_lowerFrom {before : List Char}
    (h : ∀ d ∈ lowerFrom before s, d ∈ 'x' :: smallDigits) : ∀ c ∈ s, c.toNat < 128 := by
  induction s generalizing before with
  | nil =>
    intro c hc
    cases hc
  | cons c s ih =>
    have hsmall : c.toNat < 128 := by
      apply toNat_lt_of_smallOf
      intro d hd
      by_cases hc : c = 'Σ'
      · -- Both small letters of a sigma are out of the question.
        rw [lowerFrom, if_pos hc] at h
        split at h
        · exact absurd (h 'ς' (List.mem_append_left _ (List.mem_cons_self ..))) (by decide)
        · exact absurd (h 'σ' (List.mem_append_left _ (List.mem_cons_self ..))) (by decide)
      · rw [lowerFrom, if_neg hc] at h
        exact h d (List.mem_append_left _ hd)
    intro d hd
    rcases List.mem_cons.1 hd with rfl | hd
    · exact hsmall
    · have hrest : ∀ e ∈ lowerFrom (c :: before) s, e ∈ 'x' :: smallDigits := by
        intro e he
        apply h
        rw [lowerFrom]
        exact List.mem_append_right _ he
      exact ih hrest d hd

theorem toNat_lt_of_toLower (h : c.toLower.toNat < 128) : c.toNat < 128 := by
  by_contra hlarge
  unfold Char.toLower at h
  split at h
  · rename_i hcapital
    have hmax : c.toNat ≤ 90 := UInt32.le_iff_toNat_le.1 hcapital.2
    omega
  · exact hlarge h

/-- What becomes a digit or a mark in small letters. -/
theorem of_toLower (h : c.toLower ∈ 'x' :: smallDigits) : c.toNat < 128 ∧ isBlank c = false ∧
    (c.toLower = '0' → c = '0') ∧ (c.toLower = 'x' → c = 'x' ∨ c = 'X') := by
  have hascii : ∀ d ∈ 'x' :: smallDigits, d.toNat < 128 := List.all_iff_forall_prop.1 (by decide)
  have hall : ∀ n < 128, (Char.ofNat n).toLower ∈ 'x' :: smallDigits →
      isBlank (Char.ofNat n) = false ∧ ((Char.ofNat n).toLower = '0' → Char.ofNat n = '0') ∧
      ((Char.ofNat n).toLower = 'x' → Char.ofNat n = 'x' ∨ Char.ofNat n = 'X') := by
    decide +kernel
  have hc : c.toNat < 128 := toNat_lt_of_toLower (hascii _ h)
  have hspec := hall c.toNat hc
  rw [Char.ofNat_toNat] at hspec
  exact ⟨hc, hspec h⟩

end FeltRelay.Text

namespace FeltRelay.Dispatch

open FeltRelay.Schema FeltRelay.Text

variable {digits : List Char} {text : String} {lock : Lock} {n : Nat} {expected : ExpectedHash}

/-! ### Whole hashes -/

theorem dropMark_cases (s : List Char) : s = dropMark s ∨ s = '0' :: 'x' :: dropMark s := by
  unfold dropMark
  split
  · rename_i h
    obtain ⟨t, rfl⟩ := List.isPrefixOf_iff_prefix.1 h
    exact .inr rfl
  · exact .inl rfl

theorem dropMark_of_digits (h : ∀ c ∈ digits, c ∈ smallDigits) : dropMark digits = digits := by
  apply if_neg
  intro hmark
  have hx : 'x' ∈ digits := (List.isPrefixOf_iff_prefix.1 hmark).subset (by decide)
  exact absurd (h 'x' hx) (by decide)

theorem hashDigits_eq (text : String) :
    hashDigits text = dropMark (lowerFrom [] (trimChars text.toList)) := by
  rw [hashDigits, lower, trim, String.toList_ofList, String.toList_ofList]

/-- A text has the digits of a hash left over exactly if it spells them. -/
theorem hashDigits_eq_iff (hne : digits ≠ []) (hdigits : ∀ c ∈ digits, c ∈ smallDigits) :
    hashDigits text = digits ↔ Spells digits text.toList := by
  rw [hashDigits_eq]
  constructor
  · intro h
    obtain ⟨left, right, htext, hleft, hright⟩ := exists_trimChars text.toList
    generalize trimChars text.toList = mid at h htext
    have hmark := dropMark_cases (lowerFrom [] mid)
    rw [h] at hmark
    have hsmall : ∀ d ∈ lowerFrom [] mid, d ∈ 'x' :: smallDigits := by
      intro d hd
      rcases hmark with hmark | hmark
      · rw [hmark] at hd
        exact List.mem_cons_of_mem _ (hdigits d hd)
      · rw [hmark] at hd
        rcases List.mem_cons.1 hd with rfl | hd
        · decide
        rcases List.mem_cons.1 hd with rfl | hd
        · exact List.mem_cons_self ..
        · exact List.mem_cons_of_mem _ (hdigits d hd)
    have hlower := lowerFrom_of_ascii (toNat_lt_of_lowerFrom hsmall) []
    rw [hlower] at hmark hsmall
    rcases hmark with hmark | hmark
    · exact ⟨left, [], mid, right, htext, hleft, hright, List.mem_cons_self .., hmark⟩
    · obtain ⟨a, rest, rfl, ha, hrest⟩ := List.map_eq_cons_iff.1 hmark
      obtain ⟨b, ds, rfl, hb, hds⟩ := List.map_eq_cons_iff.1 hrest
      obtain rfl : a = '0' := (of_toLower (hsmall _ (by simp))).2.2.1 ha
      have hx : b = 'x' ∨ b = 'X' := (of_toLower (hsmall _ (by simp))).2.2.2 hb
      refine ⟨left, ['0', b], ds, right, htext, hleft, hright, ?_, hds⟩
      rcases hx with rfl | rfl <;> decide
  · intro ⟨left, mark, ds, right, htext, hleft, hright, hmark, hds⟩
    have hlower : (mark ++ ds).map Char.toLower = mark.map Char.toLower ++ digits := by
      rw [List.map_append, hds]
    have hchars : ∀ c ∈ mark ++ ds, c.toLower ∈ 'x' :: smallDigits := by
      intro c hc
      rcases List.mem_append.1 hc with hc | hc
      · have hall : ∀ m ∈ [[], ['0', 'x'], ['0', 'X']],
            m.all (fun c => decide (c.toLower ∈ 'x' :: smallDigits)) = true := by decide
        exact List.all_iff_forall_prop.1 (hall mark hmark) c hc
      · exact List.mem_cons_of_mem _ (hdigits _ (hds ▸ List.mem_map_of_mem hc))
    have hne' : mark ++ ds ≠ [] := by
      intro hnil
      rw [hnil] at hlower
      exact hne (List.append_eq_nil_iff.1 hlower.symm).2
    have htrim : trimChars text.toList = mark ++ ds := by
      rw [htext]
      exact trimChars_of_blanks hleft hright (fun c hc => (of_toLower (hchars c hc)).2.1) hne'
    rw [htrim, lowerFrom_of_ascii (fun c hc => (of_toLower (hchars c hc)).1), hlower]
    simp only [List.mem_cons, List.not_mem_nil, or_false] at hmark
    rcases hmark with rfl | rfl | rfl
    · exact dropMark_of_digits hdigits
    · rfl
    · rfl

/-! ### Elements -/

/-- A hash as locks carry it: `0x` and 64 small digits. -/
structure IsHash (hash : String) (digits : List Char) : Prop where
  toList : hash.toList = '0' :: 'x' :: digits
  length : digits.length = 64
  small : ∀ c ∈ digits, c ∈ smallDigits

theorem numeral_flatMap_digits {bytes : List UInt8} (hne : bytes ≠ []) :
    Numeral 16 (bytes.flatMap Hex.digits) (bigEndian bytes) := by
  have hdigit : ∀ d < 16, digitIn? 16 (digitChar d) = some d := by decide
  induction bytes using List.reverseRecOn with
  | nil => exact absurd rfl hne
  | append_singleton bytes b ih =>
    have hb : b.toNat < 256 := b.toNat_lt
    have hhigh := hdigit (b.toNat / 16) (by omega)
    have hlow := hdigit (b.toNat % 16) (by omega)
    have hvalue : bigEndian (bytes ++ [b]) =
        (bigEndian bytes * 16 + b.toNat / 16) * 16 + b.toNat % 16 := by
      rw [bigEndian, List.foldl_append, ← bigEndian, List.foldl_cons, List.foldl_nil]
      omega
    rw [List.flatMap_append, List.flatMap_singleton, Hex.digits, List.append_cons, hvalue]
    apply Numeral.append _ hlow
    cases bytes with
    | nil =>
      have hzero : bigEndian [] * 16 + b.toNat / 16 = b.toNat / 16 := Nat.zero_add _
      rw [hzero]
      exact .digit hhigh
    | cons c bytes => exact .append (ih (List.cons_ne_nil c bytes)) hhigh

theorem pairs_of_digits {s : List Char} (hs : ∀ c ∈ s, isHexDigit c = true)
    (hlen : s.length % 2 = 0) : Hex.Pairs s := by
  match s with
  | [] => exact .nil
  | [c] => cases hlen
  | c :: d :: s =>
    have hrest : Hex.Pairs s := by
      apply pairs_of_digits
      · exact fun e he => hs e (List.mem_cons_of_mem _ (List.mem_cons_of_mem _ he))
      · rw [List.length_cons, List.length_cons] at hlen
        omega
    exact .pair (hs c (by simp)) (hs d (by simp)) hrest

/-- The element of a hash is the number that the first 62 of its digits spell. -/
theorem IsHash.hashElement? {hash : String} (h : IsHash hash digits) :
    ∃ n < 16 ^ 62, hashElement? hash = some n ∧ Numeral 16 (digits.take 62) n := by
  have hdigit : ∀ c ∈ smallDigits, isHexDigit c = true ∧ Hex.isAsciiBlank c = false ∧
      c.toLower = c := List.all_iff_forall_prop.1 (by decide)
  obtain ⟨bytes, hbytes⟩ := Option.isSome_iff_exists.1 (Hex.decode?_isSome_iff.2
    (pairs_of_digits (fun c hc => (hdigit c (h.small c hc)).1) (by rw [h.length])))
  have hplain : Hex.plain digits = digits := by
    rw [Hex.plain, List.filter_eq_self.2 fun c hc => by simp [(hdigit c (h.small c hc)).2.1]]
    exact (List.map_congr_left fun c hc => (hdigit c (h.small c hc)).2.2).trans (List.map_id _)
  have hwritten : bytes.flatMap Hex.digits = digits := by
    rw [Hex.flatMap_digits_of_decode? hbytes, hplain]
  have hlen : bytes.length = 32 := by
    have hall := Hex.length_flatMap_digits bytes
    rw [hwritten, h.length] at hall
    omega
  have htake : (bytes.take 31).length = 31 := by
    rw [List.length_take, hlen]
    rfl
  have hfront : (bytes.take 31).flatMap Hex.digits = digits.take 62 := by
    rw [← hwritten]
    conv_rhs => rw [← List.take_append_drop 31 bytes, List.flatMap_append]
    exact (List.take_left' (by rw [Hex.length_flatMap_digits, htake])).symm
  have hlt := Codec.wordValue_lt (bytes.take 31)
  rw [htake, show 256 ^ 31 = 16 ^ 62 by norm_num] at hlt
  refine ⟨bigEndian (bytes.take 31), hlt, ?_, ?_⟩
  · have hmark : ['0', 'x'].isPrefixOf hash.toList = true := by
      rw [h.toList]
      rfl
    simp only [FeltRelay.Schema.hashElement?, hmark, if_true]
    rw [h.toList, List.drop_succ_cons, List.drop_succ_cons, List.drop_zero, hbytes]
    rfl
  · rw [← hfront]
    apply numeral_flatMap_digits
    intro hnil
    rw [hnil] at htake
    cases htake

/-- An expected hash denotes an integer: it is the integer or a literal of it. -/
inductive ExpectedHash.Denotes : ExpectedHash → Int → Prop
  | text {text : String} {i : Int} (h : IsLiteral text i) : Denotes (.text text) i
  | element (i : Int) : Denotes (.element i) i

theorem ExpectedHash.element?_eq_some_iff {i : Int} :
    expected.element? = some i ↔ expected.Denotes i := by
  cases expected with
  | text text =>
    rw [ExpectedHash.element?, literal?_eq_some_iff]
    constructor
    · exact .text
    · intro h
      cases h with
      | text h => exact h
  | element j =>
    rw [ExpectedHash.element?, Option.some.injEq]
    constructor
    · intro h
      exact h ▸ .element j
    · intro h
      cases h with
      | element => rfl

theorem checkElement_eq_ok_iff (h : hashElement? lock.hash = some n) :
    checkElement expected lock = .ok () ↔ expected.Denotes n := by
  rw [← ExpectedHash.element?_eq_some_iff]
  unfold checkElement
  simp only [h, Option.getD_some]
  split
  · rename_i want hwant
    rw [hwant, Option.some.injEq]
    split
    · rename_i heq
      exact iff_of_true rfl heq
    · rename_i hne
      exact iff_of_false (fun hok => by cases hok) hne
  · rename_i hnone
    rw [hnone]
    exact iff_of_false (fun hok => by cases hok) (Option.some_ne_none _).symm
  · rename_i hnone
    rw [hnone]
    exact iff_of_false (fun hok => by cases hok) (Option.some_ne_none _).symm

/-- A comparison ends well or in a drift. -/
theorem checkDrift_cases (expected : ExpectedHash) (lock : Lock) :
    checkDrift expected lock = .ok () ∨
      ∃ shown held, checkDrift expected lock = .error (.schemaDrift shown held) := by
  have helement : checkElement expected lock = .ok () ∨
      ∃ shown held, checkElement expected lock = .error (.schemaDrift shown held) := by
    unfold checkElement
    dsimp only
    split
    · split
      · exact .inl rfl
      · exact .inr ⟨_, _, rfl⟩
    · exact .inr ⟨_, _, rfl⟩
    · exact .inr ⟨_, _, rfl⟩
  unfold checkDrift
  split
  · split
    · split
      · exact .inl rfl
      · exact .inr ⟨_, _, rfl⟩
    · exact helement
  · exact helement

/-- A text is accepted that spells the hash, or that denotes its element and has not the length of a
hash. -/
theorem checkDrift_text_eq_ok_iff (h : IsHash lock.hash digits)
    (hn : hashElement? lock.hash = some n) : checkDrift (.text text) lock = .ok () ↔
      Spells digits text.toList ∨ (hashDigits text).length ≠ 64 ∧ IsLiteral text n := by
  have hne : digits ≠ [] := by
    intro hnil
    have := h.length
    rw [hnil] at this
    cases this
  have hheld : dropMark lock.hash.toList = digits := by
    rw [h.toList]
    rfl
  rw [← hashDigits_eq_iff hne h.small, checkDrift]
  split
  · rename_i hlen
    rw [hheld]
    simp [hlen]
  · rename_i hlen
    have hdiffer : hashDigits text ≠ digits := by
      intro heq
      rw [heq] at hlen
      exact hlen h.length
    rw [checkElement_eq_ok_iff hn]
    simp only [hdiffer, hlen, false_or, ne_eq, not_false_eq_true, true_and]
    constructor
    · intro hdenotes
      cases hdenotes with
      | text hliteral => exact hliteral
    · exact .text

/-! ### Spellings -/

theorem signedHex_natCast (n : Nat) : signedHex (n : Int) = hexadecimal n := by
  have hnonneg : ¬(n : Int) < 0 := by omega
  rw [signedHex, if_neg hnonneg, Int.natAbs_natCast, String.empty_append]

theorem hashDigits_hexadecimal (n : Nat) : hashDigits (hexadecimal n) = inBase 16 n := by
  have hplain : ∀ c ∈ (hexadecimal n).toList, IsPlain c :=
    fun c hc => (isPlain_of_mem_hexadecimal hc).1
  rw [hashDigits, trim_of_isPlain hplain, lower_of_isPlain hplain, toList_hexadecimal]
  rfl

/-- The literal of an element is too short for the text of a whole hash. -/
theorem length_hashDigits_hexadecimal (hn : n < 16 ^ 62) :
    (hashDigits (hexadecimal n)).length ≤ 62 := by
  rw [hashDigits_hexadecimal]
  exact length_inBase_le (by decide) hn

/-- A lock's hash has one element, the number of its first 62 digits. A text that spells all 64
digits is accepted, and so is the element, as an integer and as the literal that a file of generated
code states. What is accepted is a text that spells all digits or denotes the element, and all else
is a drift. -/
theorem checkDrift_spellings (h : IsHash lock.hash digits) :
    ∃ n, hashElement? lock.hash = some n ∧ Numeral 16 (digits.take 62) n ∧
      (∀ text : String, Spells digits text.toList → checkDrift (.text text) lock = .ok ()) ∧
      checkDrift (.element n) lock = .ok () ∧
      (∀ source literal, Cairo.StatesHash lock source literal →
        checkDrift (.text literal) lock = .ok ()) ∧
      ∀ expected, checkDrift expected lock = .ok () ∧
          ((∃ text : String, expected = .text text ∧ Spells digits text.toList) ∨
            expected.Denotes n) ∨
        ∃ shown held, checkDrift expected lock = .error (.schemaDrift shown held) := by
  obtain ⟨n, hlt, hn, hnumeral⟩ := h.hashElement?
  refine ⟨n, hn, hnumeral, ?_, ?_, ?_, ?_⟩
  · intro text hspells
    exact (checkDrift_text_eq_ok_iff h hn).2 (.inl hspells)
  · exact (checkElement_eq_ok_iff hn).2 (.element n)
  · intro source literal hstates
    have hliteral : literal = hexadecimal n := by
      rw [Cairo.statesHash_iff.1 hstates, hn, Option.getD_some]
    have hshort := length_hashDigits_hexadecimal hlt
    have hdenotes := literal?_eq_some_iff.1 (literal?_hexadecimal n)
    rw [hliteral, checkDrift_text_eq_ok_iff h hn]
    exact .inr ⟨by omega, hdenotes⟩
  · intro expected
    rcases checkDrift_cases expected lock with hok | hdrift
    · refine .inl ⟨hok, ?_⟩
      cases expected with
      | text text =>
        rcases (checkDrift_text_eq_ok_iff h hn).1 hok with hspells | ⟨-, hliteral⟩
        · exact .inl ⟨text, rfl, hspells⟩
        · exact .inr (.text hliteral)
      | element i => exact .inr ((checkElement_eq_ok_iff hn).1 hok)
    · exact .inr hdrift

/-- A lock with all digits in order in its hash, four times. -/
def ascending : Lock :=
  ⟨⟨none, [], [], []⟩, String.ofList ('0' :: 'x' :: (List.replicate 4 smallDigits).flatten), .int 1⟩

/-- The element is accepted, and so are the digits in capitals behind a capital mark. -/
theorem checkDrift_ascending :
    (∃ n : Nat, hashElement? ascending.hash = some n ∧
      checkDrift (.element n) ascending = .ok ()) ∧
    checkDrift (.text (String.ofList (['\t'] ++
      (['0', 'X'] ++ (List.replicate 4 smallDigits).flatten.map Char.toUpper) ++ [' '])))
      ascending = .ok () := by
  have hhash : IsHash ascending.hash (List.replicate 4 smallDigits).flatten := by
    constructor
    · exact String.toList_ofList
    · decide
    · intro c hc
      obtain ⟨ds, hds, hc⟩ := List.mem_flatten.1 hc
      exact List.eq_of_mem_replicate hds ▸ hc
  obtain ⟨n, hn, -, hspelled, helement, -⟩ := checkDrift_spellings hhash
  refine ⟨⟨n, hn, helement⟩, ?_⟩
  apply hspelled
  rw [String.toList_ofList]
  refine ⟨['\t'], ['0', 'X'], _, [' '], rfl, ?_, ?_, by decide, by decide⟩
  · exact List.all_eq_true.1 (by decide)
  · exact List.all_eq_true.1 (by decide)

end FeltRelay.Dispatch
