import FeltRelay.Proofs.Result
import FeltRelay.Proofs.Text.Literal
import FeltRelay.Server.Table
import Mathlib.Data.Bool.AllAny
import Mathlib.Data.List.DropRight

/-!
# Addresses of servers

An address of a table is trimmed, gets a scheme if it has none, and loses the slashes at its end.
The slashes of the scheme are among those, if nothing stands behind them, and a blank may stand
before the others. Without such a fault the address in the table stays as it is when it is
normalized again (`normalize_eq_self_iff`), and requests go to addresses below it
(`addresses_of_ofMembers`).
-/

namespace FeltRelay.Server

open FeltRelay.Text

variable {s t slashes : List Char} {address url : String}

/-! ### Slashes at the end -/

theorem exists_dropSlashes (s : List Char) :
    ∃ slashes, s = dropSlashes s ++ slashes ∧ ∀ c ∈ slashes, c = '/' := by
  refine ⟨s.rtakeWhile fun c => decide (c = '/'), List.rdropWhile_append_rtakeWhile.symm, ?_⟩
  intro c hc
  exact of_decide_eq_true (List.mem_rtakeWhile_imp (p := fun c => decide (c = '/')) hc)

theorem getLast?_dropSlashes (s : List Char) : (dropSlashes s).getLast? ≠ some '/' := by
  intro hlast
  have hne : dropSlashes s ≠ [] := by
    intro hnil
    rw [hnil] at hlast
    cases hlast
  have hnot := List.rdropWhile_last_not (fun c => decide (c = '/')) s hne
  rw [List.getLast?_eq_some_getLast hne] at hlast
  exact hnot (decide_eq_true (Option.some.inj hlast))

theorem dropSlashes_append (hs : s.getLast? ≠ some '/') (h : ∀ c ∈ slashes, c = '/') :
    dropSlashes (s ++ slashes) = s := by
  have hfront : slashes.reverse.dropWhile (fun c => decide (c = '/')) = [] :=
    List.dropWhile_eq_nil_iff.2 fun c hc => decide_eq_true (h c (List.mem_reverse.1 hc))
  have hback : s.reverse.dropWhile (fun c => decide (c = '/')) = s.reverse := by
    cases hrev : s.reverse with
    | nil => rfl
    | cons c rest =>
      apply List.dropWhile_cons_of_neg
      intro hc
      apply hs
      rw [List.getLast?_eq_head?_reverse, hrev, List.head?_cons, of_decide_eq_true hc]
  rw [dropSlashes, List.reverse_append, List.dropWhile_append, hfront, hback]
  exact List.reverse_reverse s

theorem dropSlashes_of_getLast? (hs : s.getLast? ≠ some '/') : dropSlashes s = s := by
  have hnone : ∀ c ∈ ([] : List Char), c = '/' := fun c hc => absurd hc List.not_mem_nil
  have h := dropSlashes_append hs hnone
  rwa [List.append_nil] at h

/-! ### Schemes -/

def schemeMark : List Char := [':', '/', '/']

theorem hasScheme_iff : hasScheme s = true ↔ schemeMark <:+: s := by
  induction s with
  | nil => decide
  | cons c s ih =>
    rw [hasScheme, Bool.or_eq_true, ih, List.isPrefixOf_iff_prefix, List.infix_cons_iff]
    rfl

theorem hasScheme_append_left (h : hasScheme s = true) (t : List Char) :
    hasScheme (s ++ t) = true :=
  hasScheme_iff.2 (List.infix_append_of_infix_left (hasScheme_iff.1 h))

/-- Slashes behind a text make a scheme of it only if a colon stands at its end. -/
theorem exists_of_hasScheme_append (h : hasScheme (s ++ slashes) = true)
    (hs : hasScheme s = false) (hlast : s.getLast? ≠ some '/') (hslashes : ∀ c ∈ slashes, c = '/') :
    ∃ front rest, s = front ++ [':'] ∧ slashes = '/' :: '/' :: rest := by
  rcases List.infix_append_iff.1 (hasScheme_iff.1 h) with hin | hin | ⟨u, v, huv, hu, hv⟩
  · rw [hasScheme_iff.2 hin] at hs
    cases hs
  · exact absurd (hslashes ':' (hin.subset (by decide))) (by decide)
  obtain ⟨front, rfl⟩ := hu
  obtain ⟨rest, rfl⟩ := hv
  -- The mark is cut in two: the first part ends the text, the second one is made of slashes.
  rcases u with _ | ⟨c, _ | ⟨d, u⟩⟩
  · have hcolon : ':' ∈ v := by
      rw [← List.nil_append v, ← huv]
      exact List.mem_cons_self ..
    exact absurd (hslashes ':' (List.mem_append_left _ hcolon)) (by decide)
  · obtain ⟨rfl, rfl⟩ := List.cons.inj huv
    exact ⟨front, rest, rfl, rfl⟩
  · obtain ⟨-, hrest⟩ := List.cons.inj huv
    have hmem : (d :: u).getLast (List.cons_ne_nil d u) ∈ ['/', '/'] := by
      rw [hrest]
      exact List.mem_append_left _ (List.getLast_mem _)
    have hend : (front ++ c :: d :: u).getLast? = some '/' := by
      rw [List.getLast?_append_of_ne_nil _ (List.cons_ne_nil _ _), List.getLast?_cons_cons,
        List.getLast?_eq_some_getLast (List.cons_ne_nil d u)]
      simpa using hmem
    exact absurd hend hlast

/-- A trimmed address with the usual scheme in front, unless it has one. -/
def withScheme (s : List Char) : List Char := if hasScheme s then s else "http://".toList ++ s

theorem toList_normalize (address : String) :
    (normalize address).toList = dropSlashes (withScheme (trimChars address.toList)) :=
  String.toList_ofList

theorem withScheme_of_hasScheme (h : hasScheme s = true) : withScheme s = s := if_pos h

theorem withScheme_of_not (h : hasScheme s = false) : withScheme s = "http://".toList ++ s := by
  rw [withScheme, h]
  rfl

theorem hasScheme_withScheme (s : List Char) : hasScheme (withScheme s) = true := by
  cases h : hasScheme s with
  | true => rwa [withScheme_of_hasScheme h]
  | false =>
    rw [withScheme_of_not h]
    exact hasScheme_append_left (by decide) s

/-! ### Addresses at fault -/

/-- A trimmed address with nothing but slashes behind its scheme, or at all. -/
inductive Placeless (s : List Char) : Prop
  | slashes (hs : ∀ c ∈ s, c = '/')
  | scheme {front slashes : List Char} (hs : s = front ++ schemeMark ++ slashes)
    (hfront : hasScheme front = false) (hslashes : ∀ c ∈ slashes, c = '/')

/-- A trimmed address with a blank before the slashes at its end. -/
def Loose (s : List Char) : Prop :=
  ∃ front c slashes, s = front ++ c :: slashes ∧ isBlank c = true ∧ ∀ d ∈ slashes, d = '/'

theorem dropSlashes_ne_nil (h : ¬Placeless s) : dropSlashes s ≠ [] := by
  intro hnil
  obtain ⟨slashes, hs, hslashes⟩ := exists_dropSlashes s
  rw [hnil, List.nil_append] at hs
  exact h (.slashes (by rwa [hs]))

/-- Of an address that names a place the scheme stays. -/
theorem dropSlashes_withScheme (h : ¬Placeless s) :
    dropSlashes (withScheme s) = withScheme (dropSlashes s) := by
  obtain ⟨slashes, hs, hslashes⟩ := exists_dropSlashes s
  have hlast := getLast?_dropSlashes s
  cases hcore : hasScheme (dropSlashes s) with
  | true =>
    have hfull : hasScheme s = true := by
      rw [hs]
      exact hasScheme_append_left hcore slashes
    rw [withScheme_of_hasScheme hfull, withScheme_of_hasScheme hcore]
  | false =>
    have hfull : hasScheme s = false := by
      by_contra hscheme
      rw [Bool.not_eq_false, hs] at hscheme
      obtain ⟨front, rest, hfront, rfl⟩ := exists_of_hasScheme_append hscheme hcore hlast hslashes
      apply h
      rw [hfront] at hs hcore
      have hsplit : s = front ++ schemeMark ++ rest := by
        rw [hs, List.append_assoc, List.append_assoc]
        rfl
      apply Placeless.scheme hsplit
      · by_contra hscheme'
        rw [hasScheme_append_left (by simpa using hscheme')] at hcore
        cases hcore
      · intro c hc
        exact hslashes c (by simp [hc])
    have hne := dropSlashes_ne_nil h
    have hend : ("http://".toList ++ dropSlashes s).getLast? ≠ some '/' := by
      rwa [List.getLast?_append_of_ne_nil _ hne]
    rw [withScheme_of_not hfull, withScheme_of_not hcore]
    conv_lhs => rw [hs, ← List.append_assoc]
    exact dropSlashes_append hend hslashes

theorem hasScheme_append_colon {front : List Char} (h : hasScheme front = false) :
    hasScheme (front ++ [':']) = false := by
  by_contra hscheme
  rw [Bool.not_eq_false, hasScheme_iff, List.infix_concat_iff] at hscheme
  rcases hscheme with hend | hin
  · obtain ⟨u, hu⟩ := hend
    have hlast := congrArg List.getLast? hu
    rw [List.getLast?_concat, List.getLast?_append_of_ne_nil _ (by decide)] at hlast
    cases hlast
  · rw [hasScheme_iff.2 hin] at h
    cases h

theorem dropSlashes_schemeMark (front : List Char) (h : ∀ c ∈ slashes, c = '/') :
    dropSlashes (front ++ schemeMark ++ slashes) = front ++ [':'] := by
  have hslashes : ∀ c ∈ '/' :: '/' :: slashes, c = '/' := by simpa using h
  have hcore := dropSlashes_append (s := front ++ [':']) (by simp) hslashes
  rwa [List.append_assoc] at hcore ⊢

theorem dropSlashes_withScheme_of_slashes (hs : ∀ c ∈ s, c = '/') :
    dropSlashes (withScheme s) = "http:".toList := by
  have hnone : hasScheme s = false := by
    by_contra hscheme
    rw [Bool.not_eq_false, hasScheme_iff] at hscheme
    exact absurd (hs ':' (hscheme.subset (by decide))) (by decide)
  have hmark : "http://".toList ++ s = "http".toList ++ schemeMark ++ s := rfl
  rw [withScheme_of_not hnone, hmark, dropSlashes_schemeMark _ hs]
  rfl

/-- Without a place the slashes of the scheme go, too. -/
theorem hasScheme_of_placeless (h : Placeless s) :
    hasScheme (dropSlashes (withScheme s)) = false := by
  cases h with
  | slashes hs =>
    rw [dropSlashes_withScheme_of_slashes hs]
    decide
  | @scheme front slashes hs hfront hslashes =>
    have hscheme : hasScheme s = true :=
      hasScheme_iff.2 (by rw [hs]; exact List.infix_append front schemeMark slashes)
    rw [withScheme_of_hasScheme hscheme, hs, dropSlashes_schemeMark front hslashes]
    exact hasScheme_append_colon hfront

theorem hasScheme_dropSlashes_iff :
    hasScheme (dropSlashes (withScheme s)) = true ↔ ¬Placeless s := by
  constructor
  · intro hscheme h
    rw [hasScheme_of_placeless h] at hscheme
    cases hscheme
  · intro h
    rw [dropSlashes_withScheme h]
    exact hasScheme_withScheme _

/-! ### Blanks at the ends -/

theorem trimChars_eq_self_iff : trimChars s = s ↔
    (∀ c ∈ s.head?, isBlank c = false) ∧ ∀ c ∈ s.getLast?, isBlank c = false := by
  constructor
  · intro h
    have hhead : ∀ c ∈ (trimChars s).head?, isBlank c = false := head?_dropped isBlank s
    have hlast : ∀ c ∈ (trimChars s).getLast?, isBlank c = false := getLast?_dropped isBlank s
    rw [h] at hhead hlast
    exact ⟨hhead, hlast⟩
  · intro ⟨hhead, hlast⟩
    have hfront : s.dropWhile isBlank = s := by
      cases s with
      | nil => rfl
      | cons c s => exact List.dropWhile_cons_of_neg (by simp [hhead c rfl])
    have hback : s.rdropWhile isBlank = s := by
      rw [List.rdropWhile_eq_self_iff]
      intro hne
      simp [hlast _ (List.getLast?_eq_some_getLast hne)]
    show (s.dropWhile isBlank).rdropWhile isBlank = s
    rw [hfront, hback]

theorem hasScheme_of_append_right (ht : ∀ c ∈ t, isBlank c = true)
    (h : hasScheme (s ++ t) = true) : hasScheme s = true := by
  rw [hasScheme_iff] at h ⊢
  rcases List.infix_append_iff.1 h with h | h | ⟨u, v, huv, hu, hv⟩
  · exact h
  · exact absurd (ht ':' (h.subset (by decide))) (by decide)
  cases v using List.reverseRecOn with
  | nil => exact huv ▸ (List.append_nil u).symm ▸ hu.isInfix
  | append_singleton v c =>
    have hlast := congrArg List.getLast? huv
    rw [← List.append_assoc, List.getLast?_concat] at hlast
    cases hlast
    exact absurd (ht '/' (hv.subset (by simp))) (by decide)

theorem hasScheme_of_append_left (hs : ∀ c ∈ s, isBlank c = true)
    (h : hasScheme (s ++ t) = true) : hasScheme t = true := by
  induction s with
  | nil => exact h
  | cons c s ih =>
    have hc : isBlank c = true := hs c (List.mem_cons_self ..)
    rw [List.cons_append, hasScheme, Bool.or_eq_true, List.isPrefixOf_iff_prefix] at h
    rcases h with h | h
    · cases (List.cons_prefix_cons.1 h).1
      cases hc
    · exact ih (fun d hd => hs d (List.mem_cons_of_mem _ hd)) h

/-- Blanks around a text hold no part of a scheme. -/
theorem hasScheme_trimChars (s : List Char) : hasScheme (trimChars s) = hasScheme s := by
  obtain ⟨left, right, hs, hleft, hright⟩ := exists_trimChars s
  rw [Bool.eq_iff_iff]
  constructor
  · intro h
    rw [hs, hasScheme_iff, List.append_assoc]
    exact List.infix_append_of_infix_right (List.infix_append_of_infix_left (hasScheme_iff.1 h))
  · intro h
    rw [hs] at h
    apply hasScheme_of_append_left hleft
    exact hasScheme_of_append_right hright h

/-! ### Normal forms -/

/-- What stays as it is: a text with a scheme, without blanks at its ends, that does not end in a
slash. -/
theorem normalize_eq_self_iff : normalize url = url ↔ hasScheme url.toList = true ∧
    trimChars url.toList = url.toList ∧ url.toList.getLast? ≠ some '/' := by
  rw [← String.toList_inj, toList_normalize]
  generalize url.toList = s
  constructor
  · intro h
    have hscheme : hasScheme s = true := by
      by_contra hnone
      have hplaceless : Placeless (trimChars s) := by
        by_contra hplace
        rw [← hasScheme_dropSlashes_iff, h] at hplace
        exact hnone hplace
      cases hplaceless with
      | slashes hslashes =>
        rw [dropSlashes_withScheme_of_slashes hslashes] at h
        rw [← h] at hslashes
        exact absurd (hslashes 'h' (by decide)) (by decide)
      | scheme hsplit =>
        apply hnone
        rw [← hasScheme_trimChars, hsplit, hasScheme_iff]
        exact List.infix_append _ _ _
    have htrim : trimChars s = s := by
      rw [withScheme_of_hasScheme (by rwa [hasScheme_trimChars])] at h
      obtain ⟨slashes, hslashes, -⟩ := exists_dropSlashes (trimChars s)
      obtain ⟨left, right, hs, -⟩ := exists_trimChars s
      have hlen := congrArg List.length hs
      have hlen' := congrArg List.length hslashes
      rw [h] at hlen'
      simp only [List.length_append] at hlen hlen'
      have hleft : left = [] := List.eq_nil_of_length_eq_zero (by omega)
      have hright : right = [] := List.eq_nil_of_length_eq_zero (by omega)
      rw [hleft, hright, List.nil_append, List.append_nil] at hs
      exact hs.symm
    exact ⟨hscheme, htrim, h ▸ getLast?_dropSlashes _⟩
  · intro ⟨hscheme, htrim, hlast⟩
    rw [htrim, withScheme_of_hasScheme hscheme, dropSlashes_of_getLast? hlast]

theorem loose_iff : Loose s ↔ ∃ c ∈ (dropSlashes s).getLast?, isBlank c = true := by
  constructor
  · intro ⟨front, c, slashes, hs, hc, hslashes⟩
    have hne : c ≠ '/' := by
      intro h
      rw [h] at hc
      cases hc
    have hcore : dropSlashes s = front ++ [c] := by
      rw [hs, List.append_cons]
      exact dropSlashes_append (by simpa using hne) hslashes
    exact ⟨c, by rw [hcore]; exact List.getLast?_concat, hc⟩
  · intro ⟨c, hc, hblank⟩
    obtain ⟨slashes, hs, hslashes⟩ := exists_dropSlashes s
    obtain ⟨front, hfront⟩ := List.getLast?_eq_some_iff.1 hc
    exact ⟨front, c, slashes, by rw [List.append_cons, ← hfront, ← hs], hblank, hslashes⟩

theorem trimChars_withScheme_iff (hne : s ≠ []) (hhead : ∀ c ∈ s.head?, isBlank c = false) :
    trimChars (withScheme s) = withScheme s ↔ ∀ c ∈ s.getLast?, isBlank c = false := by
  rw [trimChars_eq_self_iff]
  cases h : hasScheme s with
  | true =>
    rw [withScheme_of_hasScheme h]
    exact and_iff_right hhead
  | false =>
    rw [withScheme_of_not h, List.getLast?_append_of_ne_nil _ hne]
    apply and_iff_right
    intro c hc
    cases hc
    decide

/-- A second normalization changes nothing, unless the address is at fault. -/
theorem normalize_normalize_iff : normalize (normalize address) = normalize address ↔
    ¬Placeless (trimChars address.toList) ∧ ¬Loose (trimChars address.toList) := by
  have hhead : ∀ c ∈ (trimChars address.toList).head?, isBlank c = false :=
    head?_dropped isBlank address.toList
  rw [normalize_eq_self_iff, toList_normalize, and_iff_left (getLast?_dropSlashes _),
    hasScheme_dropSlashes_iff]
  generalize trimChars address.toList = s at hhead
  apply and_congr_right
  intro h
  obtain ⟨slashes, hs, -⟩ := exists_dropSlashes s
  have hne := dropSlashes_ne_nil h
  have hfirst : ∀ c ∈ (dropSlashes s).head?, isBlank c = false := by
    intro c hc
    apply hhead
    rw [hs, List.head?_append, Option.mem_def.1 hc]
    rfl
  rw [dropSlashes_withScheme h, trimChars_withScheme_iff hne hfirst, loose_iff]
  simp

/-! ### Absolute addresses -/

/-- A scheme: a letter, then letters, digits and three marks. -/
def IsScheme (s : List Char) : Prop :=
  ∃ c rest, s = c :: rest ∧ c.isAlpha = true ∧
    ∀ d ∈ rest, d.isAlphanum = true ∨ d ∈ ['+', '-', '.']

theorem IsScheme.not_mem (h : IsScheme s) : ':' ∉ s ∧ '/' ∉ s := by
  obtain ⟨c, rest, rfl, hc, hrest⟩ := h
  constructor <;>
  · intro hmem
    rcases List.mem_cons.1 hmem with rfl | hmem
    · cases hc
    · rcases hrest _ hmem with hmark | hmark
      · cases hmark
      · exact absurd hmark (by decide)

/-- A text that begins with a scheme and its mark. -/
def IsAbsolute (s : List Char) : Prop :=
  ∃ scheme rest, s = scheme ++ schemeMark ++ rest ∧ IsScheme scheme

theorem IsAbsolute.hasScheme (h : IsAbsolute s) : hasScheme s = true := by
  obtain ⟨scheme, rest, rfl, -⟩ := h
  exact hasScheme_iff.2 (List.infix_append scheme schemeMark rest)

theorem IsAbsolute.append (h : IsAbsolute s) (t : List Char) : IsAbsolute (s ++ t) := by
  obtain ⟨scheme, rest, rfl, hscheme⟩ := h
  exact ⟨scheme, rest ++ t, by rw [List.append_assoc], hscheme⟩

theorem isAbsolute_dropSlashes_iff (h : ¬Placeless s) :
    IsAbsolute (dropSlashes s) ↔ IsAbsolute s := by
  obtain ⟨slashes, hs, hslashes⟩ := exists_dropSlashes s
  constructor
  · intro habs
    rw [hs]
    exact habs.append slashes
  · intro ⟨scheme, rest, hsplit, hscheme⟩
    obtain ⟨slashes, hrest, hslashes⟩ := exists_dropSlashes rest
    have hnone : hasScheme scheme = false := by
      by_contra hmark
      rw [Bool.not_eq_false, hasScheme_iff] at hmark
      exact hscheme.not_mem.1 (hmark.subset (by decide))
    have hne : dropSlashes rest ≠ [] := by
      intro hnil
      rw [hnil, List.nil_append] at hrest
      exact h (.scheme hsplit hnone (by rwa [hrest]))
    have hlast : (scheme ++ schemeMark ++ dropSlashes rest).getLast? ≠ some '/' := by
      rw [List.getLast?_append_of_ne_nil _ hne]
      exact getLast?_dropSlashes rest
    rw [hsplit, hrest, ← List.append_assoc, dropSlashes_append hlast hslashes]
    exact ⟨scheme, dropSlashes rest, rfl, hscheme⟩

/-- An address that names a place is absolute unless `://` stands in it behind something else than a
scheme. -/
theorem isAbsolute_normal_iff : IsAbsolute (dropSlashes (withScheme s)) ↔
    ¬Placeless s ∧ (hasScheme s = true → IsAbsolute s) := by
  constructor
  · intro habs
    have hplace : ¬Placeless s := hasScheme_dropSlashes_iff.1 habs.hasScheme
    refine ⟨hplace, fun hscheme => ?_⟩
    rw [withScheme_of_hasScheme hscheme, isAbsolute_dropSlashes_iff hplace] at habs
    exact habs
  · intro ⟨hplace, habs⟩
    cases hscheme : hasScheme s with
    | true =>
      rw [withScheme_of_hasScheme hscheme, isAbsolute_dropSlashes_iff hplace]
      exact habs hscheme
    | false =>
      have hcore : hasScheme (dropSlashes s) = false := by
        obtain ⟨slashes, hs, -⟩ := exists_dropSlashes s
        by_contra hmark
        rw [hs, hasScheme_append_left (by simpa using hmark)] at hscheme
        cases hscheme
      rw [dropSlashes_withScheme hplace, withScheme_of_not hcore]
      have hletters : ∀ c ∈ ['t', 't', 'p'], c.isAlphanum = true ∨ c ∈ ['+', '-', '.'] :=
        List.all_iff_forall_prop.1 (by decide)
      exact ⟨['h', 't', 't', 'p'], dropSlashes s, rfl, 'h', ['t', 't', 'p'], rfl, rfl, hletters⟩

/-- A step behind an address neither makes it absolute nor takes that away. -/
theorem isAbsolute_append_iff {path : List Char} (hs : s.getLast? ≠ some '/')
    (hpath : path.head? ≠ some '/') : IsAbsolute (s ++ '/' :: path) ↔ IsAbsolute s := by
  constructor
  · intro ⟨scheme, rest, hsplit, hscheme⟩
    rw [List.append_assoc] at hsplit
    rcases List.append_eq_append_iff.1 hsplit with ⟨u, rfl, hu⟩ | ⟨u, rfl, hu⟩
    · -- The step would be part of the scheme.
      rcases u with _ | ⟨c, u⟩
      · cases hu
      · cases hu
        exact absurd (List.mem_append_right s (List.mem_cons_self ..)) hscheme.not_mem.2
    · rcases u with _ | ⟨c, _ | ⟨d, _ | ⟨e, u⟩⟩⟩
      · cases hu
      · cases hu
        exact absurd rfl hpath
      · cases hu
        exact absurd (by simp) hs
      · cases hu
        exact ⟨scheme, u, by rw [List.append_assoc]; rfl, hscheme⟩
  · intro h
    exact h.append _

/-! ### Tables -/

variable {defaults : PollingDefaults} {base : Polling} {ms : Option Yaml.Named} {t : Table}
  {service : Yaml.Scalar} {v : Json} {e : Entry}

/-- The address that a member of a table gives: the member itself or one part of it. -/
inductive Gives : Json → String → Prop
  | text {address : String} (hne : address ≠ "") : Gives (.str address) address
  | member {members : List (String × Json)} {address : String}
    (h : members.lookup "server_url" = some (.str address)) (hne : address ≠ "") :
    Gives (.obj members) address

theorem deepest?_eq_none_iff {places : List (List Schema.Step)} :
    deepest? places = none ↔ places = [] := by
  cases places with
  | nil => exact iff_of_true rfl rfl
  | cons p rest =>
    refine iff_of_false ?_ (List.cons_ne_nil p rest)
    rw [deepest?]
    cases deepest? rest with
    | none => exact Option.some_ne_none p
    | some q =>
      dsimp only
      split <;> exact Option.some_ne_none _

theorem exists_of_nonemptyFaults (h : nonemptyFaults v = []) :
    ∃ address, v = .str address ∧ address ≠ "" := by
  cases v with
  | str address =>
    refine ⟨address, rfl, fun hempty => ?_⟩
    rw [hempty] at h
    cases h
  | _ => cases h

/-- A member without a fault gives an address. -/
theorem exists_gives (h : entryFault? v = none) : ∃ address, Gives v address := by
  unfold entryFault? at h
  split at h
  · rename_i members
    rw [deepest?_eq_none_iff] at h
    simp only [objectFaults, Schema.nameFaults, Schema.memberFaults, List.append_eq_nil_iff] at h
    obtain ⟨⟨⟨⟨⟨⟨hrequired, -⟩, hurl⟩, -⟩, -⟩, -⟩, -⟩ := h
    cases hlookup : members.lookup "server_url" with
    | none => simp [Entries.has, hlookup] at hrequired
    | some spec =>
      rw [hlookup] at hurl
      obtain ⟨address, rfl, hne⟩ := exists_of_nonemptyFaults (List.map_eq_nil_iff.1 hurl)
      exact ⟨address, .member hlookup hne⟩
  · rw [deepest?_eq_none_iff] at h
    obtain ⟨address, rfl, hne⟩ := exists_of_nonemptyFaults h
    exact ⟨address, .text hne⟩

theorem url_of_ofJson (hgives : Gives v address) (h : Entry.ofJson base service v = .ok e) :
    e.service = service ∧ e.url = normalize address := by
  cases hgives with
  | text =>
    cases h
    exact ⟨rfl, rfl⟩
  | @member members address haddress =>
    obtain ⟨limits, -, h⟩ := bind_eq_ok_iff.1 h
    obtain ⟨timeout, -, h⟩ := bind_eq_ok_iff.1 h
    cases h
    refine ⟨rfl, ?_⟩
    rw [Json.member?, Json.members, haddress]
    rfl

theorem exists_of_ofMembers (h : Table.ofMembers defaults ms = .ok t) (he : e ∈ t.entries) :
    ∃ spec ∈ ms.getD [], spec.1 = e.service ∧
      ∃ address, Gives spec.2 address ∧ e.url = normalize address := by
  unfold Table.ofMembers at h
  split at h
  · cases h
  · rename_i hfault
    obtain ⟨entries, hentries, hret⟩ := bind_eq_ok_iff.1 h
    cases hret
    obtain ⟨spec, hspec, hmade⟩ := exists_of_forall₂ (forall₂_of_mapM hentries) he
    cases ms with
    | none => cases hfault
    | some ms =>
      have hnone := List.findSome?_eq_none_iff.1 hfault spec hspec
      obtain ⟨address, haddress⟩ := exists_gives (Option.map_eq_none_iff.1 hnone)
      obtain ⟨hservice, hurl⟩ := url_of_ofJson haddress hmade
      exact ⟨spec, hspec, hservice.symm, address, haddress, hurl⟩

/-- An absolute address under another one. -/
def IsBelow (base url : String) : Prop :=
  IsAbsolute url.toList ∧ (base ++ "/").toList <+: url.toList

/-- A server of a table has the normalized address that the table gives for its service, which never
ends in a slash. It has a scheme exactly if the address names a place, and is in normal form exactly
if besides no blank stands before the slashes at its end. Requests and the states of jobs are asked
for at absolute addresses below it exactly if the address names a place and has nothing but a scheme
in front of its first `://`. -/
theorem addresses_of_ofMembers (h : Table.ofMembers defaults ms = .ok t) (he : e ∈ t.entries) :
    ∃ spec ∈ ms.getD [], spec.1 = e.service ∧ ∃ address s, Gives spec.2 address ∧
      s = trimChars address.toList ∧ e.url = normalize address ∧
      e.url.toList.getLast? ≠ some '/' ∧
      (hasScheme e.url.toList = true ↔ ¬Placeless s) ∧
      (normalize e.url = e.url ↔ ¬Placeless s ∧ ¬Loose s) ∧
      (∀ job, IsBelow e.url (e.statusUrl job) ↔
        ¬Placeless s ∧ (hasScheme s = true → IsAbsolute s)) ∧
      ∀ path, path.toList.head? ≠ some '/' → (IsBelow e.url (e.urlFor path) ↔
        ¬Placeless s ∧ (hasScheme s = true → IsAbsolute s)) := by
  obtain ⟨spec, hspec, hservice, address, haddress, hurl⟩ := exists_of_ofMembers h he
  refine ⟨spec, hspec, hservice, address, _, haddress, rfl, hurl, ?_⟩
  have hlast : e.url.toList.getLast? ≠ some '/' := by
    rw [hurl, toList_normalize]
    exact getLast?_dropSlashes _
  have hbelow : ∀ url path, url = e.url ++ "/" ++ path → path.toList.head? ≠ some '/' →
      (IsBelow e.url url ↔ ¬Placeless (trimChars address.toList) ∧
        (hasScheme (trimChars address.toList) = true → IsAbsolute (trimChars address.toList))) := by
    intro url path heq hpath
    have hstep : url.toList = e.url.toList ++ '/' :: path.toList := by
      rw [heq, String.toList_append, String.toList_append, List.append_assoc]
      rfl
    rw [IsBelow, and_iff_left, hstep, isAbsolute_append_iff hlast hpath, hurl, toList_normalize,
      isAbsolute_normal_iff]
    exact ⟨path.toList, by rw [heq]; exact String.toList_append.symm⟩
  refine ⟨hlast, ?_, ?_, fun job => ?_, fun path hpath => ?_⟩
  · rw [hurl, toList_normalize]
    exact hasScheme_dropSlashes_iff
  · rw [hurl]
    exact normalize_normalize_iff
  · have hstatus : e.statusUrl job = e.url ++ "/" ++ ("status/" ++ job) := by
      have hstep : "/status/" = "/" ++ "status/" := by decide
      rw [Entry.statusUrl, hstep, String.append_assoc, String.append_assoc, String.append_assoc]
    refine hbelow _ _ hstatus ?_
    rw [String.toList_append]
    exact fun h => nomatch h
  · exact hbelow _ path rfl hpath

/-- A host with blanks around it and a slash behind. -/
def hosted : Json := .obj [("Sqrt", " localhost:3000/ ")]

theorem addresses_hosted : ∃ t, Table.ofJson {} hosted = .ok t ∧ t.entries.length = 1 ∧
    ∀ e ∈ t.entries, normalize e.url = e.url ∧ IsBelow e.url (e.statusUrl "7") ∧
      IsBelow e.url (e.urlFor "sqrt") := by
  have hlength : (Table.ofJson {} hosted).toOption.map (·.entries.length) = some 1 := by
    decide +kernel
  obtain ⟨t, ht, hlength⟩ := Option.map_eq_some_iff.1 hlength
  refine ⟨t, eq_ok_of_toOption ht, hlength, fun e he => ?_⟩
  obtain ⟨spec, hspec, -, address, s, hgives, hs, hurl, -, -, hnormal, hstatus, hpath⟩ :=
    addresses_of_ofMembers (eq_ok_of_toOption ht) he
  obtain rfl : spec = (.str "Sqrt", .str " localhost:3000/ ") := List.mem_singleton.1 hspec
  cases hgives
  have hstays : normalize e.url = e.url := by
    rw [hurl]
    decide +kernel
  have hplace := (hnormal.1 hstays).1
  have hnone : hasScheme s = false := by
    rw [hs]
    decide +kernel
  have hground : ¬Placeless s ∧ (hasScheme s = true → IsAbsolute s) :=
    ⟨hplace, fun hscheme => absurd hscheme (by simp [hnone])⟩
  exact ⟨hstays, (hstatus "7").2 hground, (hpath "sqrt" (by decide)).2 hground⟩

/-- Nothing but a slash, and a blank before one. -/
def astray : Json := .obj [("S", "/"), ("T", "http://h /")]

/-- The first server has an address without a scheme, and both addresses change when they are
normalized again. -/
theorem addresses_astray :
    (Table.ofJson {} astray).toOption.map (·.entries.map Entry.url) = some ["http:", "http://h "] ∧
      hasScheme "http:".toList = false ∧ normalize "http:" = "http://http:" ∧
      normalize "http://h " = "http://h" := by
  decide +kernel

end FeltRelay.Server
