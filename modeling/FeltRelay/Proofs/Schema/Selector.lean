import FeltRelay.Proofs.Schema.Unambiguous
import FeltRelay.Proofs.Text.Literal
import Mathlib.Data.Bool.AllAny

/-!
# Selectors

A selector is the small form of a method's name: words of small letters and digits with single
underscores between them. It has the letters and digits of the name in their order, and is its own
small form (`selectors_normal`). The same form comes of trimming the underscores and writing one for
two until no two stand together (`halves_bared_iff`).
-/

namespace FeltRelay.Schema

namespace Naming

open FeltRelay.Text

variable {t w : List Char} {ws : List (List Char)}

/-! ### Small letters again -/

theorem smallOf_of_small {c : Char} (h : c.isLower = true ∨ c.isDigit = true) :
    isAlphanumeric c = true ∧ isCapital c = false ∧ smallOf c = [c] := by
  have hlt := lt_of_isAlphanum (isAlphanum_of_isLower_or_isDigit h)
  have hall : c.isLower = true ∨ c.isDigit = true →
      c.isAlphanum = true ∧ c.isUpper = false ∧ c.toLower = c :=
    of_ascii (p := fun c => c.isLower = true ∨ c.isDigit = true →
      c.isAlphanum = true ∧ c.isUpper = false ∧ c.toLower = c) (by decide +kernel) hlt
  obtain ⟨hal, hupper, hlower⟩ := hall h
  simp only [isAlphanumeric, isCapital, smallOf, hlt, if_true]
  exact ⟨hal, hupper, by rw [hlower]⟩

theorem snakeFrom_of_small {s : List Char}
    (hs : ∀ c ∈ s, c = '_' ∨ c.isLower = true ∨ c.isDigit = true) (afterSmall : Bool) :
    snakeFrom afterSmall s = s := by
  induction s generalizing afterSmall with
  | nil => rfl
  | cons c s ih =>
    have htail := ih fun d hd => hs d (List.mem_cons_of_mem _ hd)
    rcases hs c (List.mem_cons_self ..) with rfl | hc
    · have hmark : isAlphanumeric '_' = false := by decide
      rw [snakeFrom, hmark, if_neg Bool.false_ne_true, htail]
    · obtain ⟨hal, hcap, hsmall⟩ := smallOf_of_small hc
      rw [snakeFrom, if_pos hal, hcap, hsmall, htail]
      rfl

/-- Words joined by underscores are taken apart again. -/
theorem wordsOf_intercalate {ws : List (List Char)} (h : ∀ w ∈ ws, w ≠ [] ∧ '_' ∉ w) :
    wordsOf (['_'].intercalate ws) = ws := by
  unfold wordsOf
  cases hws : ws with
  | nil => rfl
  | cons w rest =>
    have hne : ws ≠ [] := by simp [hws]
    have hsplit : (['_'].intercalate ws).splitOnP (· = '_') = ws :=
      List.splitOn_intercalate '_' (fun w hw => (h w hw).2) hne
    rw [← hws, hsplit, List.filter_eq_self]
    intro v hv
    simpa using (h v hv).1

theorem wordsOf_snake {s : String} (hs : ∀ c ∈ s.toList, c.toNat < 128) :
    wordsOf (snake s).toList = snakeWords s.toList := by
  rw [snake, String.toList_ofList]
  exact wordsOf_intercalate fun w hw => not_mem_of_mem_snakeWords hs hw

/-- Small letters stay as they are, so a selector is the selector of itself. -/
theorem snake_snake {s : String} (hs : ∀ c ∈ s.toList, c.toNat < 128) :
    snake (snake s) = snake s := by
  have hsmall : snakeFrom false (snake s).toList = (snake s).toList :=
    snakeFrom_of_small (fun c hc => of_mem_snake hs hc) false
  conv_lhs => rw [snake, snakeWords, hsmall, wordsOf_snake hs]
  rfl

/-! ### Normal forms -/

/-- Words of small letters and digits with an underscore between two of them. -/
inductive IsNormal : List Char → Prop
  | word {w : List Char} (hne : w ≠ []) (hw : ∀ c ∈ w, c.isLower = true ∨ c.isDigit = true) :
    IsNormal w
  | append {w t : List Char} (hne : w ≠ []) (hw : ∀ c ∈ w, c.isLower = true ∨ c.isDigit = true)
    (ht : IsNormal t) : IsNormal (w ++ '_' :: t)

theorem isNormal_intercalate (hne : ws ≠ [])
    (h : ∀ w ∈ ws, w ≠ [] ∧ ∀ c ∈ w, c.isLower = true ∨ c.isDigit = true) :
    IsNormal (['_'].intercalate ws) := by
  induction ws with
  | nil => exact absurd rfl hne
  | cons w ws ih =>
    obtain ⟨hword, hchars⟩ := h w (List.mem_cons_self ..)
    cases ws with
    | nil =>
      rw [List.intercalate_singleton]
      exact .word hword hchars
    | cons v vs =>
      have hrest := ih (List.cons_ne_nil v vs) fun u hu => h u (List.mem_cons_of_mem _ hu)
      rw [List.intercalate_cons_cons, List.append_assoc, List.singleton_append]
      exact .append hword hchars hrest

theorem snake_eq_nil_or_isNormal {s : String} (hs : ∀ c ∈ s.toList, c.toNat < 128) :
    (snake s).toList = [] ∨ IsNormal (snake s).toList := by
  rw [snake, String.toList_ofList]
  by_cases hws : snakeWords s.toList = []
  · left
    rw [hws]
    rfl
  · right
    exact isNormal_intercalate hws fun w hw => of_mem_snakeWords hs hw

/-- No underscore stands at an end or next to another one. -/
structure IsSpaced (t : List Char) : Prop extends IsBare t where
  single : ¬['_', '_'] <:+: t

theorem not_mem_of_small (hw : ∀ c ∈ w, c.isLower = true ∨ c.isDigit = true) : '_' ∉ w := by
  intro hmark
  exact absurd (hw '_' hmark) (by decide)

theorem isSpaced_of_not_mem (hw : '_' ∉ w) : IsSpaced w where
  head hhead := hw (List.mem_of_mem_head? hhead)
  last hlast := hw (List.mem_of_mem_getLast? hlast)
  single hdouble := hw (hdouble.subset (List.mem_cons_self ..))

theorem IsSpaced.append (hne : w ≠ []) (hw : '_' ∉ w) (hnil : t ≠ []) (h : IsSpaced t) :
    IsSpaced (w ++ '_' :: t) where
  head := by
    rw [List.head?_append_of_ne_nil _ hne]
    exact (isSpaced_of_not_mem hw).head
  last := by
    rw [List.append_cons, List.getLast?_append_of_ne_nil _ hnil]
    exact h.last
  single := by
    have hsecond : ¬['_', '_'] <+: '_' :: t := by
      intro hfront
      obtain ⟨rest, rfl⟩ := (List.cons_prefix_cons.1 hfront).2
      exact h.head rfl
    intro hdouble
    rcases List.infix_append_iff.1 hdouble with hin | hin | ⟨u, v, huv, hu, hv⟩
    · exact (isSpaced_of_not_mem hw).single hin
    · rcases List.infix_cons_iff.1 hin with hfront | hin
      · exact hsecond hfront
      · exact h.single hin
    · cases u with
      | nil =>
        rw [List.nil_append] at huv
        exact hsecond (huv ▸ hv)
      | cons c u =>
        cases (List.cons.inj huv).1
        exact hw (hu.subset (List.mem_cons_self ..))

theorem IsNormal.ne_nil (h : IsNormal t) : t ≠ [] := by
  cases h with
  | word hne => exact hne
  | append hne => exact List.append_ne_nil_of_left_ne_nil hne _

theorem IsNormal.isSpaced (h : IsNormal t) : IsSpaced t := by
  induction h with
  | word hne hw => exact isSpaced_of_not_mem (not_mem_of_small hw)
  | append hne hw ht ih => exact .append hne (not_mem_of_small hw) ht.ne_nil ih

theorem isSpaced_snake {s : String} (hs : ∀ c ∈ s.toList, c.toNat < 128) :
    IsSpaced (snake s).toList := by
  rcases snake_eq_nil_or_isNormal hs with hnil | hnormal
  · rw [hnil]
    exact isSpaced_of_not_mem List.not_mem_nil
  · exact hnormal.isSpaced

/-! ### What is kept -/

theorem filter_snakeFrom {s : List Char} (hs : ∀ c ∈ s, c.toNat < 128) (afterSmall : Bool) :
    (snakeFrom afterSmall s).filter (· ≠ '_') = (s.filter Char.isAlphanum).map Char.toLower := by
  induction s generalizing afterSmall with
  | nil => rfl
  | cons c s ih =>
    have hc : c.toNat < 128 := hs c (List.mem_cons_self ..)
    have hrest := ih fun d hd => hs d (List.mem_cons_of_mem _ hd)
    have hal : isAlphanumeric c = c.isAlphanum := by rw [isAlphanumeric, if_pos hc]
    rw [snakeFrom, hal]
    split
    · rename_i halnum
      have hmark : c.toLower ≠ '_' := by
        intro heq
        have hsmall := isLower_or_isDigit_toLower halnum
        rw [heq] at hsmall
        exact absurd hsmall (by decide)
      have hlead : ∀ b : Bool, (if b then ['_'] else []).filter (· ≠ '_') = [] := by decide
      rw [List.filter_append, List.filter_append, hlead, hrest, smallOf, if_pos hc,
        List.filter_cons_of_pos (p := Char.isAlphanum) halnum]
      simp [hmark]
    · rename_i halnum
      rw [List.filter_cons_of_neg (by simp), List.filter_cons_of_neg halnum]
      exact hrest _

/-- Nothing but the underscores is lost between words. -/
theorem flatten_wordsOf (s : List Char) : (wordsOf s).flatten = s.filter (· ≠ '_') := by
  have hsplit : (s.splitOnP (· = '_')).flatten = s.filter (· ≠ '_') := by
    induction s with
    | nil => rfl
    | cons c s ih =>
      rw [List.splitOnP_cons_eq_if_modifyHead]
      by_cases hc : c = '_'
      · rw [if_pos (by simpa using hc), List.filter_cons_of_neg (by simp [hc])]
        exact ih
      · rw [if_neg (by simpa using hc), List.filter_cons_of_pos (by simpa using hc), ← ih]
        cases hrest : s.splitOnP (· = '_') with
        | nil => exact absurd hrest (by simp)
        | cons w ws => rfl
  rw [wordsOf, ← hsplit]
  generalize s.splitOnP (· = '_') = ws
  induction ws with
  | nil => rfl
  | cons w ws ih => cases w <;> simp [ih]

/-- Of an ASCII name the small form keeps the letters and digits. -/
theorem filter_snake {s : String} (hs : ∀ c ∈ s.toList, c.toNat < 128) :
    (snake s).toList.filter (· ≠ '_') = (s.toList.filter Char.isAlphanum).map Char.toLower := by
  rw [← flatten_wordsOf, wordsOf_snake hs, snakeWords, flatten_wordsOf]
  exact filter_snakeFrom hs false

/-! ### Rewriting -/

/-- One underscore for two, from the left. -/
def halved : List Char → List Char
  | '_' :: '_' :: s => '_' :: halved s
  | c :: s => c :: halved s
  | [] => []

/-- What comes of writing one underscore for two until no two stand together. -/
inductive Halves : List Char → List Char → Prop
  | done {t : List Char} (h : ¬['_', '_'] <:+: t) : Halves t t
  | step {t u : List Char} (h : ['_', '_'] <:+: t) (hu : Halves (halved t) u) : Halves t u

/-- A text without the underscores at its ends. -/
def bared (s : List Char) : List Char :=
  ((s.dropWhile (· = '_')).reverse.dropWhile (· = '_')).reverse

theorem wordsOf_underscore_cons (s : List Char) : wordsOf ('_' :: s) = wordsOf s := by
  rw [wordsOf, List.splitOnP_cons_eq_if_modifyHead, if_pos (by decide)]
  rfl

theorem wordsOf_append_underscore (s : List Char) : wordsOf (s ++ ['_']) = wordsOf s := by
  rw [wordsOf, List.splitOnP_append_cons s [] (by decide), List.filter_append]
  exact List.append_nil _

/-- A letter joins the first word, if a word begins the text. -/
theorem wordsOf_cons {c : Char} (hc : c ≠ '_') (s : List Char) : wordsOf (c :: s) =
    if s.head? = none ∨ s.head? = some '_' then [c] :: wordsOf s
    else (wordsOf s).modifyHead (c :: ·) := by
  have hmark : ¬decide (c = '_') = true := by simpa using hc
  cases s with
  | nil =>
    rw [wordsOf, List.splitOnP_cons_eq_if_modifyHead, if_neg hmark]
    rfl
  | cons d s =>
    rw [wordsOf, List.splitOnP_cons_eq_if_modifyHead, if_neg hmark]
    by_cases hd : d = '_'
    · rw [hd, if_pos (.inr rfl), wordsOf_underscore_cons, List.splitOnP_cons_eq_if_modifyHead,
        if_pos (by decide)]
      rfl
    · have hfirst : ¬((d :: s).head? = none ∨ (d :: s).head? = some '_') := by simpa using hd
      rw [if_neg hfirst, wordsOf, List.splitOnP_cons_eq_if_modifyHead, if_neg (by simpa using hd)]
      cases hrest : s.splitOnP (· = '_') with
      | nil => exact absurd hrest (by simp)
      | cons w ws => rfl

theorem head?_halved (s : List Char) : (halved s).head? = s.head? := by
  fun_cases halved s <;> rfl

theorem getLast?_halved (s : List Char) : (halved s).getLast? = s.getLast? := by
  fun_induction halved s with
  | case1 s ih => simp [List.getLast?_cons, ih]
  | case2 c s hne ih => simp [List.getLast?_cons, ih]
  | case3 => rfl

theorem wordsOf_halved (s : List Char) : wordsOf (halved s) = wordsOf s := by
  fun_induction halved s with
  | case1 s ih => simp only [wordsOf_underscore_cons, ih]
  | case2 c s hne ih =>
    by_cases hc : c = '_'
    · rw [hc, wordsOf_underscore_cons, wordsOf_underscore_cons, ih]
    · rw [wordsOf_cons hc, wordsOf_cons hc, head?_halved, ih]
  | case3 => rfl

theorem length_halved_le (s : List Char) : (halved s).length ≤ s.length := by
  fun_induction halved s with
  | case1 s ih =>
    simp only [List.length_cons]
    omega
  | case2 c s hne ih => exact Nat.succ_le_succ ih
  | case3 => exact Nat.le_refl _

theorem length_halved_lt {s : List Char} (h : ['_', '_'] <:+: s) :
    (halved s).length < s.length := by
  fun_induction halved s with
  | case1 s ih =>
    have hle := length_halved_le s
    simp only [List.length_cons]
    omega
  | case2 c s hne ih =>
    rcases List.infix_cons_iff.1 h with hfront | hin
    · obtain ⟨hc, rest, hrest⟩ := List.cons_prefix_cons.1 hfront
      exact absurd hrest.symm (hne rest hc.symm)
    · exact Nat.succ_lt_succ (ih hin)
  | case3 => exact absurd h (by decide)

theorem wordsOf_append_of_underscores {s t : List Char} (ht : ∀ c ∈ t, c = '_') :
    wordsOf (s ++ t) = wordsOf s ∧ wordsOf (t ++ s) = wordsOf s := by
  induction t generalizing s with
  | nil => exact ⟨by rw [List.append_nil], rfl⟩
  | cons c t ih =>
    have hrest : ∀ d ∈ t, d = '_' := fun d hd => ht d (List.mem_cons_of_mem _ hd)
    obtain rfl : c = '_' := ht c (List.mem_cons_self ..)
    constructor
    · rw [List.append_cons, (ih hrest).1, wordsOf_append_underscore]
    · rw [List.cons_append, wordsOf_underscore_cons, (ih hrest).2]

theorem wordsOf_bared (s : List Char) : wordsOf (bared s) = wordsOf s := by
  obtain ⟨left, right, hs, hleft, hright⟩ := exists_dropped (fun c => decide (c = '_')) s
  have hleft' : ∀ c ∈ left, c = '_' := fun c hc => of_decide_eq_true (hleft c hc)
  have hright' : ∀ c ∈ right, c = '_' := fun c hc => of_decide_eq_true (hright c hc)
  conv_rhs => rw [hs, (wordsOf_append_of_underscores hright').1,
    (wordsOf_append_of_underscores hleft').2]
  rfl

theorem isBare_bared (s : List Char) : IsBare (bared s) where
  head hhead := absurd (head?_dropped (fun c => decide (c = '_')) s '_' hhead) (by decide)
  last hlast := absurd (getLast?_dropped (fun c => decide (c = '_')) s '_' hlast) (by decide)

/-- Between single underscores no piece of a text is empty, but for the first one perhaps. -/
theorem splitOnP_of_single {s : List Char} (hlast : s.getLast? ≠ some '_')
    (hsingle : ¬['_', '_'] <:+: s) : ∃ w ws, s.splitOnP (· = '_') = w :: ws ∧
      (w = [] → s = [] ∨ s.head? = some '_') ∧ ∀ v ∈ ws, v ≠ [] := by
  induction s with
  | nil => exact ⟨[], [], rfl, fun _ => .inl rfl, fun v hv => absurd hv List.not_mem_nil⟩
  | cons c s ih =>
    have hlast' : s.getLast? ≠ some '_' := by
      intro heq
      apply hlast
      rw [List.getLast?_cons, heq]
      rfl
    have hsingle' : ¬['_', '_'] <:+: s := fun hin => hsingle (List.infix_cons_iff.2 (.inr hin))
    obtain ⟨w, ws, hpieces, hw, hws⟩ := ih hlast' hsingle'
    rw [List.splitOnP_cons_eq_if_modifyHead]
    by_cases hc : c = '_'
    · subst hc
      refine ⟨[], w :: ws, by rw [if_pos (by decide), hpieces], fun _ => .inr rfl, ?_⟩
      intro v hv
      rcases List.mem_cons.1 hv with rfl | hv
      · intro hnil
        rcases hw hnil with rfl | hhead
        · exact hlast rfl
        · obtain ⟨rest, rfl⟩ := List.head?_eq_some_iff.1 hhead
          exact hsingle ⟨[], rest, rfl⟩
      · exact hws v hv
    · refine ⟨c :: w, ws, ?_, fun hnil => absurd hnil (List.cons_ne_nil c w), hws⟩
      rw [if_neg (by simpa using hc), hpieces, List.modifyHead_cons]

theorem intercalate_wordsOf {s : List Char} (h : IsSpaced s) :
    ['_'].intercalate (wordsOf s) = s := by
  by_cases hne : s = []
  · rw [hne]
    rfl
  · obtain ⟨w, ws, hpieces, hfirst, hrest⟩ := splitOnP_of_single h.last h.single
    have hall : wordsOf s = s.splitOnP (· = '_') := by
      rw [wordsOf, hpieces, List.filter_eq_self]
      intro v hv
      have hv' : v ≠ [] := by
        rcases List.mem_cons.1 hv with rfl | hv
        · intro hnil
          exact (hfirst hnil).elim hne h.head
        · exact hrest v hv
      simpa using hv'
    rw [hall]
    exact List.intercalate_splitOn '_'

/-- Rewriting ends, and in the words joined by single underscores. -/
theorem halves_iff {s u : List Char} (h : IsBare s) :
    Halves s u ↔ u = ['_'].intercalate (wordsOf s) := by
  have hend : ∀ {s u}, Halves s u → IsBare s → u = ['_'].intercalate (wordsOf s) := by
    intro s u hu
    induction hu with
    | done hsingle =>
      intro hbare
      exact (intercalate_wordsOf ⟨hbare, hsingle⟩).symm
    | step hdouble hu ih =>
      intro hbare
      rw [← wordsOf_halved]
      exact ih ⟨by rw [head?_halved]; exact hbare.head, by rw [getLast?_halved]; exact hbare.last⟩
  have hexists : ∀ n (s : List Char), s.length = n → ∃ u, Halves s u := by
    intro n
    induction n using Nat.strong_induction_on with
    | _ n ih =>
      intro s hn
      by_cases hdouble : ['_', '_'] <:+: s
      · obtain ⟨u, hu⟩ := ih _ (hn ▸ length_halved_lt hdouble) (halved s) rfl
        exact ⟨u, .step hdouble hu⟩
      · exact ⟨s, .done hdouble⟩
  constructor
  · intro hu
    exact hend hu h
  · intro hu
    obtain ⟨v, hv⟩ := hexists _ s rfl
    rw [hu, ← hend hv h]
    exact hv

theorem halves_bared_iff (s u : String) :
    Halves (bared (snakeFrom false s.toList)) u.toList ↔ u = snake s := by
  rw [halves_iff (isBare_bared _), wordsOf_bared, ← String.toList_inj, snake, String.toList_ofList]
  rfl

end Naming

/-- A method whose selector and path are forms of its name. -/
structure Method.Spelled (x : Method) : Prop where
  ascii : ∀ c ∈ x.name.toList, c.toNat < 128
  selector : x.selector = Naming.selectorOf x.name
  path : x.path = Naming.pathOf x.name

theorem Method.Spelled.selectorOf_selector {x : Method} (h : x.Spelled) :
    Naming.selectorOf x.selector = x.selector := by
  rw [h.selector]
  exact Naming.snake_snake h.ascii

namespace Model

variable {m : Model} {text : String}

theorem spelled_of_ofText (h : ofText text = .ok m) : ∀ s ∈ m.services, ∀ x ∈ s.methods,
    x.Spelled := by
  obtain ⟨d, hd, hm⟩ := bind_eq_ok_iff.1 h
  obtain ⟨tokens, htokens, hd⟩ := bind_eq_ok_iff.1 hd
  obtain ⟨names, -, hmade⟩ := madeOf_of_ofDeclarations hm
  intro s hs x hx
  obtain ⟨sd, hsd, hof⟩ := exists_of_forall₂ hmade.services hs
  obtain ⟨xd, hxd, hx⟩ := exists_of_forall₂ hof.methods hx
  have hnamed := (Definitions.writtenIn_of_ofTokens hd).methods sd hsd xd hxd
  rw [← hx.name] at hnamed
  exact ⟨ascii_of_named htokens hnamed, by rw [hx.selector, hx.name], by rw [hx.path, hx.name]⟩

/-- The small form of an ASCII name is empty or in normal form, is its own small form, and has the
letters and digits of the name in their order, as small letters. So the selectors in the model of a
definitions text are short strings of small letters, digits and underscores, none of which stands at
an end or next to another one. -/
theorem selectors_normal :
    (∀ s : String, (∀ c ∈ s.toList, c.toNat < 128) →
      ((Naming.snake s).toList = [] ∨ Naming.IsNormal (Naming.snake s).toList) ∧
      Naming.snake (Naming.snake s) = Naming.snake s ∧
      (Naming.snake s).toList.filter (· ≠ '_') =
        (s.toList.filter Char.isAlphanum).map Char.toLower) ∧
    ∀ text m, ofText text = .ok m → ∀ e ∈ m.methods,
      IsShortString e.2.selector ∧ Naming.IsSpaced e.2.selector.toList ∧
      ∀ c ∈ e.2.selector.toList, c = '_' ∨ c.isLower = true ∨ c.isDigit = true := by
  constructor
  · intro s hs
    exact ⟨Naming.snake_eq_nil_or_isNormal hs, Naming.snake_snake hs, Naming.filter_snake hs⟩
  · intro text m h e he
    obtain ⟨s, hs, hx, -⟩ := mem_methods.1 he
    have hspelled := spelled_of_ofText h s hs e.2 hx
    refine ⟨isShortString_of_ofText h he, ?_, ?_⟩
    · rw [hspelled.selector]
      exact Naming.isSpaced_snake hspelled.ascii
    · intro c hc
      rw [hspelled.selector] at hc
      exact Naming.of_mem_snake hspelled.ascii hc

theorem selectors_normal_canvas :
    Naming.snake (Naming.snake "_getHTTP__Result2Go") = Naming.snake "_getHTTP__Result2Go" ∧
    (ofText canvasText = .ok canvas ∧ canvas.methods ≠ [] ∧ ∀ e ∈ canvas.methods,
      IsShortString e.2.selector ∧ Naming.IsSpaced e.2.selector.toList) := by
  obtain ⟨hsnake, hmodel⟩ := selectors_normal
  have hselectors := hmodel canvasText canvas ofText_canvasText
  constructor
  · have hascii : ∀ c ∈ "_getHTTP__Result2Go".toList, c.toNat < 128 := by
      rw [String.toList_ofList]
      exact List.all_iff_forall_prop.1 (by decide)
    exact (hsnake "_getHTTP__Result2Go" hascii).2.1
  · refine ⟨ofText_canvasText, by decide, fun e he => ?_⟩
    obtain ⟨hshort, hspaced, -⟩ := hselectors e he
    exact ⟨hshort, hspaced⟩

end Model

end FeltRelay.Schema
