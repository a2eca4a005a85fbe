import FeltRelay.Proofs.Schema.Selector
import Mathlib.Data.Finset.Card
import Mathlib.Data.Finset.Dedup

/-!
# Variants

A value of an enumeration becomes a variant without the enumeration's name in front, if its own name
begins with the words of that name. The words are found again in the name by the capitals behind
small letters, so two capitals in a row hide a word of one letter, and then the name stays
(`variants_of_ofText`).
-/

namespace FeltRelay.Schema

namespace Naming

open FeltRelay.Text

variable {c : Char} {s t w : List Char} {ws : List (List Char)}

/-! ### Letters -/

theorem isAlpha_iff : c.isAlpha = true ↔ c.isUpper = true ∨ c.isLower = true :=
  Bool.or_eq_true_iff

theorem isAlphanum_of_isAlpha (h : c.isAlpha = true) : c.isAlphanum = true := by
  show (c.isAlpha || c.isDigit) = true
  rw [h, Bool.true_or]

theorem lt_of_isAlpha (h : c.isAlpha = true) : c.toNat < 128 :=
  lt_of_isAlphanum (isAlphanum_of_isAlpha h)

theorem of_isUpper (h : c.isUpper = true) : c.isLower = false ∧ c.isDigit = false ∧
    c.toLower.toUpper = c ∧ c.toLower ≠ c :=
  of_ascii (p := fun c => c.isUpper = true → c.isLower = false ∧ c.isDigit = false ∧
    c.toLower.toUpper = c ∧ c.toLower ≠ c) (by decide +kernel)
    (lt_of_isAlpha (isAlpha_iff.2 (.inl h))) h

theorem of_isLower (h : c.isLower = true) : c.isUpper = false ∧ c.toLower = c :=
  of_ascii (p := fun c => c.isLower = true → c.isUpper = false ∧ c.toLower = c) (by decide +kernel)
    (lt_of_isAlpha (isAlpha_iff.2 (.inr h))) h

/-- A letter in the other case. -/
theorem of_isAlpha (h : c.isAlpha = true) : c.toLower.toNat < 128 ∧ c.toLower ≠ '_' ∧
    c.toUpper.isUpper = true ∧ c.toUpper.toLower = c.toLower :=
  of_ascii (p := fun c => c.isAlpha = true → c.toLower.toNat < 128 ∧ c.toLower ≠ '_' ∧
    c.toUpper.isUpper = true ∧ c.toUpper.toLower = c.toLower) (by decide +kernel)
    (lt_of_isAlpha h) h

theorem toLower_ne_underscore (h : c.isAlpha = true) : c.toLower ≠ '_' := (of_isAlpha h).2.1

theorem toNat_toLower_lt (h : c.isAlpha = true) : c.toLower.toNat < 128 := (of_isAlpha h).1

/-- The small form goes on behind a letter. -/
theorem snakeFrom_cons (h : c.isAlpha = true) (afterSmall : Bool) (s : List Char) :
    snakeFrom afterSmall (c :: s) =
      (if c.isUpper && afterSmall then ['_'] else []) ++ c.toLower :: snakeFrom c.isLower s := by
  have hal := isAlphanum_of_isAlpha h
  have hlt := lt_of_isAlpha h
  have hdigit : (c.isLower || c.isDigit) = c.isLower := by
    rcases isAlpha_iff.1 h with h | h
    · rw [(of_isUpper h).2.1, Bool.or_false]
    · rw [h, Bool.true_or]
  simp only [snakeFrom, isAlphanumeric, isCapital, isSmall, isDigitLike, smallOf, hlt, if_true, hal,
    hdigit, List.append_assoc, List.singleton_append]

theorem capitalized_cons (hc : c.toNat < 128) (s : List Char) :
    capitalized (c :: s) = c.toUpper :: s := by
  rw [capitalized, capitalOf, if_pos hc, List.singleton_append]

/-! ### Words written together -/

theorem exists_wordsOf_cons (hc : c ≠ '_') (s : List Char) :
    ∃ u vs, wordsOf (c :: s) = (c :: u) :: vs := by
  have hmark : ¬decide (c = '_') = true := by simpa using hc
  rw [wordsOf, List.splitOnP_cons_eq_if_modifyHead, if_neg hmark]
  cases hrest : s.splitOnP (· = '_') with
  | nil => exact absurd hrest (by simp)
  | cons u us => exact ⟨u, _, rfl⟩

/-- What follows the first letter of a name when its words are written together. -/
def camelFrom : Bool → List Char → List Char
  | _, [] => []
  | afterSmall, c :: s =>
    (if c.isUpper && afterSmall then c else c.toLower) :: camelFrom c.isLower s

theorem length_camelFrom (afterSmall : Bool) (s : List Char) :
    (camelFrom afterSmall s).length = s.length := by
  induction s generalizing afterSmall with
  | nil => rfl
  | cons c s ih => rw [camelFrom, List.length_cons, ih, List.length_cons]

/-- The words of a name in small letters, written together. -/
theorem flatMap_capitalized_wordsOf (hc : c.isAlpha = true) (hs : ∀ d ∈ s, d.isAlpha = true)
    (afterSmall : Bool) : (wordsOf (c.toLower :: snakeFrom afterSmall s)).flatMap capitalized =
      c.toLower.toUpper :: camelFrom afterSmall s := by
  induction s generalizing c afterSmall with
  | nil =>
    rw [snakeFrom, wordsOf_cons (toLower_ne_underscore hc), if_pos (.inl rfl)]
    exact congrArg (· ++ []) (capitalized_cons (toNat_toLower_lt hc) [])
  | cons d s ih =>
    have hd : d.isAlpha = true := hs d (List.mem_cons_self ..)
    have hrest := ih hd (fun e he => hs e (List.mem_cons_of_mem _ he)) d.isLower
    rw [snakeFrom_cons hd, camelFrom, wordsOf_cons (toLower_ne_underscore hc)]
    by_cases hword : (d.isUpper && afterSmall) = true
    · -- A capital behind a small letter begins a word.
      have hupper := (Bool.and_eq_true_iff.1 hword).1
      rw [if_pos hword, if_pos hword, if_pos (.inr rfl), List.singleton_append,
        wordsOf_underscore_cons, List.flatMap_cons, hrest, capitalized_cons (toNat_toLower_lt hc),
        (of_isUpper hupper).2.2.1]
      rfl
    · have hfirst : ¬(([] ++ d.toLower :: snakeFrom d.isLower s).head? = none ∨
          ([] ++ d.toLower :: snakeFrom d.isLower s).head? = some '_') := by
        simpa using toLower_ne_underscore hd
      obtain ⟨u, vs, huvs⟩ := exists_wordsOf_cons (toLower_ne_underscore hd) (snakeFrom d.isLower s)
      rw [huvs, List.flatMap_cons, capitalized_cons (toNat_toLower_lt hd)] at hrest
      rw [if_neg hword, if_neg hword, if_neg hfirst, List.nil_append, huvs, List.modifyHead_cons,
        List.flatMap_cons, capitalized_cons (toNat_toLower_lt hc), ← (List.cons.inj hrest).2]
      rfl

/-- A name of letters that begins with a capital keeps it. -/
theorem toList_upperCamel {s : String} {rest : List Char} (hs : s.toList = c :: rest)
    (hc : c.isUpper = true) (hrest : ∀ d ∈ rest, d.isAlpha = true) :
    (upperCamel s).toList = c :: camelFrom false rest := by
  have hal : c.isAlpha = true := isAlpha_iff.2 (.inl hc)
  obtain ⟨hlower, -, hback, -⟩ := of_isUpper hc
  rw [upperCamel, String.toList_ofList, snakeWords, hs, snakeFrom_cons hal, Bool.and_false,
    if_neg Bool.false_ne_true, List.nil_append, flatMap_capitalized_wordsOf hal hrest, hback,
    hlower]

/-! ### Words of a name -/

/-- A word of a name: a capital, then small letters. -/
def IsCamelWord (w : List Char) : Prop :=
  ∃ c rest, w = c :: rest ∧ c.isUpper = true ∧ ∀ d ∈ rest, d.isLower = true

theorem IsCamelWord.isAlpha (h : IsCamelWord w) : ∀ c ∈ w, c.isAlpha = true := by
  obtain ⟨c, rest, rfl, hc, hrest⟩ := h
  intro d hd
  rcases List.mem_cons.1 hd with rfl | hd
  · exact isAlpha_iff.2 (.inl hc)
  · exact isAlpha_iff.2 (.inr (hrest d hd))

theorem camelFrom_append (hs : ∀ c ∈ s, c.isLower = true) (afterSmall : Bool) (t : List Char) :
    camelFrom afterSmall (s ++ t) = s ++ camelFrom (afterSmall || !s.isEmpty) t := by
  induction s generalizing afterSmall with
  | nil => simp
  | cons c s ih =>
    have hc : c.isLower = true := hs c (List.mem_cons_self ..)
    obtain ⟨hupper, hsmall⟩ := of_isLower hc
    rw [List.cons_append, camelFrom, hupper, Bool.false_and, if_neg Bool.false_ne_true, hsmall, hc,
      ih fun d hd => hs d (List.mem_cons_of_mem _ hd)]
    simp

/-- Words keep their capitals unless one of a single letter stands before another one. -/
theorem camelFrom_flatten_iff (hws : ∀ w ∈ ws, IsCamelWord w) (afterSmall : Bool) :
    camelFrom afterSmall ws.flatten = ws.flatten ↔
      (ws ≠ [] → afterSmall = true) ∧ ∀ w ∈ ws.dropLast, 1 < w.length := by
  induction ws generalizing afterSmall with
  | nil => simp [camelFrom]
  | cons w ws ih =>
    obtain ⟨c, rest, rfl, hc, hrest⟩ := hws w (List.mem_cons_self ..)
    obtain ⟨hlower, -, -, hne⟩ := of_isUpper hc
    have htail := ih (fun v hv => hws v (List.mem_cons_of_mem _ hv)) (!rest.isEmpty)
    have hhead : (if afterSmall then c else c.toLower) = c ↔ afterSmall = true := by
      cases afterSmall <;> simp [hne]
    rw [List.flatten_cons, List.cons_append, camelFrom, hc, Bool.true_and, hlower,
      camelFrom_append hrest, Bool.false_or, List.cons.injEq, List.append_cancel_left_eq, hhead,
      htail]
    cases ws with
    | nil => simp
    | cons v vs => simp [List.length_pos_iff]

/-! ### Names of values -/

theorem snakeFrom_capitals (hw : ∀ c ∈ w, c.isAlpha = true) (t : List Char) :
    snakeFrom false (w.map Char.toUpper ++ '_' :: t) =
      w.map Char.toLower ++ '_' :: snakeFrom false t := by
  induction w with
  | nil =>
    have hmark : isAlphanumeric '_' = false := by decide
    rw [List.map_nil, List.nil_append, snakeFrom, hmark, if_neg Bool.false_ne_true]
    rfl
  | cons c w ih =>
    obtain ⟨-, -, hupper, hsmall⟩ := of_isAlpha (hw c (List.mem_cons_self ..))
    rw [List.map_cons, List.cons_append, snakeFrom_cons (isAlpha_iff.2 (.inl hupper)),
      Bool.and_false, if_neg Bool.false_ne_true, (of_isUpper hupper).1, hsmall,
      ih fun d hd => hw d (List.mem_cons_of_mem _ hd)]
    rfl

theorem wordsOf_append_cons (hne : w ≠ []) (hw : '_' ∉ w) (t : List Char) :
    wordsOf (w ++ '_' :: t) = w :: wordsOf t := by
  have hsingle : w.splitOnP (· = '_') = [w] := by
    apply List.splitOnP_eq_singleton
    intro c hc
    have hmark : c ≠ '_' := by
      rintro rfl
      exact hw hc
    simpa using hmark
  rw [wordsOf, List.splitOnP_append_cons w t (by decide), hsingle, List.singleton_append,
    List.filter_cons_of_pos (by simpa using hne), wordsOf]

theorem IsCamelWord.capitalized (h : IsCamelWord w) : capitalized (w.map Char.toLower) = w := by
  obtain ⟨c, rest, rfl, hc, hrest⟩ := h
  have hlt := toNat_toLower_lt (isAlpha_iff.2 (.inl hc))
  have hsmall : rest.map Char.toLower = rest :=
    (List.map_congr_left fun d hd => (of_isLower (hrest d hd)).2).trans (List.map_id _)
  rw [List.map_cons, capitalized_cons hlt, (of_isUpper hc).2.2.1, hsmall]

/-- Words in capitals with an underscore behind each are written together as the words. -/
theorem flatMap_capitalized_snakeWords (hws : ∀ w ∈ ws, IsCamelWord w) (t : List Char) :
    (snakeWords (ws.flatMap (fun w => w.map Char.toUpper ++ ['_']) ++ t)).flatMap capitalized =
      ws.flatten ++ (snakeWords t).flatMap capitalized := by
  induction ws with
  | nil => rfl
  | cons w ws ih =>
    have hw := hws w (List.mem_cons_self ..)
    have hmark : '_' ∉ w.map Char.toLower := by
      intro hmem
      obtain ⟨c, hc, heq⟩ := List.mem_map.1 hmem
      exact toLower_ne_underscore (hw.isAlpha c hc) heq
    have hne : w.map Char.toLower ≠ [] := by
      obtain ⟨c, rest, rfl, -⟩ := hw
      exact List.cons_ne_nil _ _
    rw [List.flatMap_cons, List.append_assoc, List.append_assoc, List.singleton_append, snakeWords,
      snakeFrom_capitals hw.isAlpha, wordsOf_append_cons hne hmark, List.flatMap_cons,
      hw.capitalized, ← snakeWords, ih fun v hv => hws v (List.mem_cons_of_mem _ hv),
      List.flatten_cons, List.append_assoc]

theorem head?_upperCamel {x : String} {rest : List Char} (hx : x.toList = c :: rest)
    (hc : c.isUpper = true) : (upperCamel x).toList.head? = some c := by
  have hal : c.isAlpha = true := isAlpha_iff.2 (.inl hc)
  have hlt := toNat_toLower_lt hal
  obtain ⟨u, vs, huvs⟩ := exists_wordsOf_cons (toLower_ne_underscore hal) (snakeFrom c.isLower rest)
  rw [upperCamel, String.toList_ofList, snakeWords, hx, snakeFrom_cons hal, Bool.and_false,
    if_neg Bool.false_ne_true, List.nil_append, huvs, List.flatMap_cons, capitalized_cons hlt,
    (of_isUpper hc).2.2.1]
  rfl

theorem isCapital_of_isUpper (hc : c.isUpper = true) : isCapital c = true := by
  rwa [isCapital, if_pos (lt_of_isAlpha (isAlpha_iff.2 (.inl hc)))]

/-- A name of the same length is taken off exactly if it is what stands in front. -/
theorem stripEnumName_eq_iff {enum variant x : String} {name : List Char}
    (hvariant : variant.toList = name ++ x.toList) (hlen : enum.toList.length = name.length)
    (hname : ∃ c, name.head? = some c ∧ c.isUpper = true)
    (hx : ∃ c, x.toList.head? = some c ∧ c.isUpper = true) :
    stripEnumName enum variant = x ↔ enum.toList = name := by
  obtain ⟨c, hc, hupper⟩ := hname
  obtain ⟨rest, rfl⟩ := List.head?_eq_some_iff.1 hc
  unfold stripEnumName
  dsimp only
  by_cases heq : enum.toList = c :: rest
  · obtain ⟨d, hd, hdupper⟩ := hx
    obtain ⟨tail, htail⟩ := List.head?_eq_some_iff.1 hd
    have hfront : (c :: rest).isPrefixOf variant.toList = true :=
      List.isPrefixOf_iff_prefix.2 ⟨x.toList, hvariant.symm⟩
    rw [heq, if_pos hfront, hvariant, List.drop_left, htail]
    dsimp only
    rw [if_pos (isCapital_of_isUpper hdupper), ← htail, String.ofList_toList]
    exact iff_of_true rfl rfl
  · have hfront : ¬enum.toList.isPrefixOf variant.toList = true := by
      rw [List.isPrefixOf_iff_prefix, hvariant]
      intro hprefix
      have hshort := List.prefix_of_prefix_length_le hprefix (List.prefix_append _ _) hlen.le
      exact heq (hshort.eq_of_length hlen)
    rw [if_neg hfront, hvariant, List.cons_append]
    dsimp only
    rw [if_pos (isCapital_of_isUpper hupper)]
    refine iff_of_false ?_ heq
    intro hwhole
    have hlength := congrArg (fun y => y.toList.length) hwhole
    simp only [String.toList_ofList, List.length_cons, List.length_append] at hlength
    omega

/-- A value whose name begins with the words of the enumeration's name loses them exactly if no
single letter is a word before another one. -/
theorem variant_eq_iff {enum value suffix : String} (hne : ws ≠ []) (hws : ∀ w ∈ ws, IsCamelWord w)
    (henum : enum.toList = ws.flatten)
    (hvalue : value.toList = ws.flatMap (fun w => w.map Char.toUpper ++ ['_']) ++ suffix.toList)
    (hsuffix : ∃ c, suffix.toList.head? = some c ∧ c.isUpper = true) :
    stripEnumName (upperCamel enum) (upperCamel value) = upperCamel suffix ↔
      ∀ w ∈ ws.dropLast, 1 < w.length := by
  obtain ⟨w, vs, rfl⟩ := List.exists_cons_of_ne_nil hne
  have hvs : ∀ v ∈ vs, IsCamelWord v := fun v hv => hws v (List.mem_cons_of_mem _ hv)
  obtain ⟨c, rest, rfl, hc, hrest⟩ := hws w (List.mem_cons_self ..)
  have hletters : ∀ d ∈ rest ++ vs.flatten, d.isAlpha = true := by
    intro d hd
    rcases List.mem_append.1 hd with hd | hd
    · exact isAlpha_iff.2 (.inr (hrest d hd))
    · obtain ⟨v, hv, hd⟩ := List.mem_flatten.1 hd
      exact (hvs v hv).isAlpha d hd
  have hcamel : (upperCamel enum).toList = c :: camelFrom false (rest ++ vs.flatten) :=
    toList_upperCamel henum hc hletters
  have hkept : (upperCamel enum).toList = ((c :: rest) :: vs).flatten ↔
      ∀ w ∈ ((c :: rest) :: vs).dropLast, 1 < w.length := by
    rw [hcamel, List.flatten_cons, List.cons_append, List.cons.injEq, camelFrom_append hrest,
      Bool.false_or, List.append_cancel_left_eq, camelFrom_flatten_iff hvs]
    cases vs with
    | nil => simp
    | cons v vs => simp [List.length_pos_iff]
  rw [stripEnumName_eq_iff ?_ ?_ ?_ ?_, hkept]
  · rw [upperCamel, String.toList_ofList, hvalue, flatMap_capitalized_snakeWords hws, upperCamel,
      String.toList_ofList]
  · rw [hcamel, List.length_cons, length_camelFrom]
    rfl
  · exact ⟨c, rfl, hc⟩
  · obtain ⟨d, hd, hdupper⟩ := hsuffix
    obtain ⟨tail, htail⟩ := List.head?_eq_some_iff.1 hd
    exact ⟨d, head?_upperCamel htail hdupper, hdupper⟩

end Naming

namespace Model

open Definitions

variable {m : Model} {text : String}

/-! ### Variants in order -/

theorem prefix_of_variantsOf {owner enum : String} {numbers : List Int} {variants : List String}
    {values : List (String × Int)} {out : List String}
    (h : variantsOf owner enum numbers variants values = .ok out) : variants <+: out := by
  induction values generalizing numbers variants with
  | nil =>
    cases h
    exact List.prefix_rfl
  | cons e values ih =>
    rw [variantsOf] at h
    split at h
    · exact ih h
    · dsimp only at h
      split at h
      · cases h
      · exact (List.prefix_append _ _).trans (ih h)

/-- A value with a number of its own gives the variant behind those of the numbers before it. -/
theorem getElem?_variantsOf {owner enum value : String} {number : Int} {numbers : List Int}
    {variants : List String} {before after : List (String × Int)} {out : List String}
    (h : variantsOf owner enum numbers variants (before ++ (value, number) :: after) = .ok out)
    (hnumbers : number ∉ numbers) (hbefore : number ∉ before.map Prod.snd) :
    out[variants.length + ((before.map Prod.snd).toFinset \ numbers.toFinset).card]? =
      some (variantName enum value) := by
  induction before generalizing numbers variants with
  | nil =>
    rw [List.nil_append, variantsOf, if_neg (by simpa using hnumbers)] at h
    dsimp only at h
    split at h
    · cases h
    · obtain ⟨rest, rfl⟩ := prefix_of_variantsOf h
      simp
  | cons e before ih =>
    obtain ⟨x, n⟩ := e
    rw [List.map_cons, List.mem_cons, not_or] at hbefore
    rw [List.cons_append, variantsOf] at h
    split at h
    · rename_i hused
      have hused' : n ∈ numbers.toFinset := by simpa using hused
      have hsame : ((n :: before.map Prod.snd).toFinset \ numbers.toFinset) =
          (before.map Prod.snd).toFinset \ numbers.toFinset := by
        rw [List.toFinset_cons, Finset.insert_sdiff_of_mem _ hused']
      rw [List.map_cons, hsame]
      exact ih h hnumbers hbefore.2
    · rename_i hnew
      dsimp only at h
      split at h
      · cases h
      · have hnew' : n ∉ numbers.toFinset := by simpa using hnew
        have hstep : ((n :: before.map Prod.snd).toFinset \ numbers.toFinset).card =
            1 + ((before.map Prod.snd).toFinset \ (n :: numbers).toFinset).card := by
          rw [List.toFinset_cons, List.toFinset_cons, Finset.insert_sdiff_of_notMem _ hnew',
            Finset.sdiff_insert, ← Finset.erase_insert_eq_erase, Nat.add_comm]
          exact (Finset.card_erase_add_one (Finset.mem_insert_self n _)).symm
        have hrest := ih h (by simpa using ⟨hbefore.1, hnumbers⟩) hbefore.2
        rw [List.length_append, List.length_singleton, Nat.add_assoc, ← hstep] at hrest
        exact hrest

theorem forall₂_enumOf {d : Declarations} (h : ofDeclarations d = .ok m) :
    List.Forall₂ (fun e spec => enumOf e = .ok spec) d.enums m.enums := by
  obtain ⟨names, -, h⟩ := bind_eq_ok_iff.1 h
  obtain ⟨messages, -, h⟩ := bind_eq_ok_iff.1 h
  obtain ⟨enums, henums, h⟩ := bind_eq_ok_iff.1 h
  obtain ⟨services, -, h⟩ := bind_eq_ok_iff.1 h
  obtain ⟨-, -, hret⟩ := bind_eq_ok_iff.1 h
  cases hret
  exact forall₂_of_mapM henums

/-- The declarations of an accepted text make its enumerations. Take one whose own name consists of
words, and a value of it with a number of its own and a name that consists of these words in
capitals, with an underscore behind each, and a rest that begins with a capital. The value becomes
the variant that the rest alone would give exactly if no single letter is a word before another one.
The variant stands behind those of the numbers before it. -/
theorem variants_of_ofText (h : ofText text = .ok m) : ∃ d, Declarations.ofText text = .ok d ∧
    ∀ e ∈ d.enums, ∃ spec ∈ m.enums, spec.name = flattened e.fullName ∧
      ∀ ws before after value number suffix, ws ≠ [] → (∀ w ∈ ws, Naming.IsCamelWord w) →
        (lastWord e.fullName).toList = ws.flatten →
        e.values = before ++ (value, number) :: after → number ∉ before.map Prod.snd →
        value.toList = ws.flatMap (fun w => w.map Char.toUpper ++ ['_']) ++ suffix.toList →
        (∃ c, suffix.toList.head? = some c ∧ c.isUpper = true) →
        (spec.variants[(before.map Prod.snd).toFinset.card]? = some (Naming.upperCamel suffix) ↔
          ∀ w ∈ ws.dropLast, 1 < w.length) := by
  obtain ⟨d, hd, hm⟩ := bind_eq_ok_iff.1 h
  refine ⟨d, hd, fun e he => ?_⟩
  obtain ⟨spec, hspec, hmade⟩ := exists_of_forall₂ (forall₂_enumOf hm).flip he
  refine ⟨spec, hspec, (of_enumOf hmade).name, ?_⟩
  obtain ⟨variants, hvariants, hret⟩ := bind_eq_ok_iff.1 hmade
  cases hret
  intro ws before after value number suffix hne hws hname hvalues hnumber hvalue hsuffix
  rw [hvalues] at hvariants
  have hslot := getElem?_variantsOf hvariants List.not_mem_nil hnumber
  rw [List.length_nil, Nat.zero_add, List.toFinset_nil, Finset.sdiff_empty] at hslot
  rw [hslot, Option.some.injEq]
  exact Naming.variant_eq_iff hne hws hname hvalue hsuffix

/-- An enumeration of two words, with another name for its first variant. -/
def shadedText : String :=
  "enum DarkHue \x7b DARK_HUE_RED = 3; DARK_HUE_CRIMSON = 3; DARK_HUE_LIME_2 = 1; \x7d"

/-- The model of `shadedText`. -/
def shaded : Model := ⟨none, [], [⟨"DarkHue", ["Red", "Lime2"]⟩], []⟩

theorem variants_shaded : ofText shadedText = .ok shaded ∧ ∃ spec ∈ shaded.enums,
    spec.variants[0]? = some (Naming.upperCamel "RED") ∧
      spec.variants[1]? = some (Naming.upperCamel "LIME_2") := by
  have htext : ofText shadedText = .ok shaded := by
    rw [ofText, Declarations.ofText, tokenize, shadedText, String.toList_ofList]
    exact eq_ok_of_toOption (by decide +kernel)
  have henum : ⟨[], "DarkHue", [("DARK_HUE_RED", 3), ("DARK_HUE_CRIMSON", 3),
      ("DARK_HUE_LIME_2", 1)]⟩ ∈ ((Declarations.ofText shadedText).toOption.getD {}).enums := by
    rw [Declarations.ofText, tokenize, shadedText, String.toList_ofList]
    decide +kernel
  obtain ⟨d, hd, henums⟩ := variants_of_ofText htext
  rw [hd] at henum
  obtain ⟨spec, hspec, -, hvariants⟩ := henums _ henum
  have hwords : ∀ w ∈ [['D', 'a', 'r', 'k'], ['H', 'u', 'e']], Naming.IsCamelWord w := by
    intro w hw
    rcases List.mem_pair.1 hw with rfl | rfl
    · exact ⟨'D', ['a', 'r', 'k'], rfl, rfl, List.all_eq_true.1 (by decide)⟩
    · exact ⟨'H', ['u', 'e'], rfl, rfl, List.all_eq_true.1 (by decide)⟩
  refine ⟨htext, spec, hspec, ?_, ?_⟩
  · exact (hvariants _ [] _ _ _ "RED" (by decide) hwords (by decide) rfl (by decide) (by decide)
      ⟨'R', rfl, rfl⟩).2 (by decide)
  · exact (hvariants _ [_, _] _ _ _ "LIME_2" (by decide) hwords (by decide) rfl (by decide)
      (by decide) ⟨'L', rfl, rfl⟩).2 (by decide)

/-- An enumeration of two words that are single letters. -/
def initialsText : String := "enum AB \x7b A_B_RED = 0; \x7d"

theorem variants_initials : ofText initialsText = .ok ⟨none, [], [⟨"AB", ["ABRed"]⟩], []⟩ ∧
    Naming.upperCamel "RED" = "Red" := by
  constructor
  · rw [ofText, Declarations.ofText, tokenize, initialsText, String.toList_ofList]
    exact eq_ok_of_toOption (by decide +kernel)
  · decide +kernel

end Model

end FeltRelay.Schema
