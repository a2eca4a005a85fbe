import FeltRelay.Proofs.Cairo.Constant
import FeltRelay.Proofs.Cairo.Identifier
import FeltRelay.Proofs.Cairo.Spelling
import Mathlib.Data.List.TakeWhile

/-!
# What a written file declares

The reader of declarations gives the structs and enums of a file in the order in which they are
written, and `Maybe` in front of them if it is used (`declarations?_emit`).
-/

namespace FeltRelay.Cairo

open FeltRelay.Schema Lexeme

variable {s t : String} {out out' : List Item} {ls ls' : List Lexeme}

/-- A part of a file declares these items, whatever follows. Each step takes a lexeme at least. -/
def Spells (s : String) (out : List Item) : Prop :=
  ∃ ls steps, Lexes s ls ∧ steps ≤ ls.length ∧
    ∀ fuel rest, items? (fuel + steps) [] (ls ++ rest) = (items? fuel [] rest).map (out ++ ·)

/-- A part that the reader passes over declares nothing. -/
theorem spells_nothing (ls : List Lexeme) (steps : Nat) (hls : Lexes s ls) (hsteps : steps ≤ ls.length)
    (h : ∀ fuel rest, items? (fuel + steps) [] (ls ++ rest) = items? fuel [] rest) :
    Spells s [] := by
  refine ⟨ls, steps, hls, hsteps, fun fuel rest => ?_⟩
  show _ = (items? fuel [] rest).map id
  rw [h, Option.map_id, id]

theorem Spells.nil : Spells "" [] :=
  spells_nothing [] 0 (fun _ => rfl) (Nat.le_refl 0) fun _ _ => rfl

theorem Spells.append (h : Spells s out) (h' : Spells t out') : Spells (s ++ t) (out ++ out') := by
  obtain ⟨ls, k, hls, hk, hread⟩ := h
  obtain ⟨ls', k', hls', hk', hread'⟩ := h'
  refine ⟨ls ++ ls', k' + k, hls.append hls', ?_, fun fuel rest => ?_⟩
  · rw [List.length_append]
    omega
  · rw [← Nat.add_assoc, List.append_assoc, hread, hread', Option.map_map]
    exact congrArg (Option.map · _) (funext fun _ => (List.append_assoc ..).symm)

theorem Spells.join {α : Type} {f : α → String} {g : α → List Item} {xs : List α}
    (h : ∀ x ∈ xs, Spells (f x) (g x)) : Spells (String.join (xs.map f)) (xs.flatMap g) := by
  induction xs with
  | nil => exact .nil
  | cons x xs ih =>
    rw [List.map_cons, join_cons, List.flatMap_cons]
    exact (h x (List.mem_cons_self ..)).append (ih fun y hy => h y (List.mem_cons_of_mem _ hy))

/-- A text that spells items declares these. -/
theorem declarations?_of_spells (h : Spells s out) : declarations? s = some out := by
  obtain ⟨ls, k, hls, hk, hread⟩ := h
  have hlexemes : lexemes s = ls := by
    have hall := hls []
    rwa [List.append_nil, runAll_nil, Mode.pending, List.append_nil] at hall
  have hitems := hread (ls.length - k) []
  rw [Nat.sub_add_cancel hk, List.append_nil, items?] at hitems
  rw [declarations?, hlexemes, hitems, Option.map_some, List.append_nil]

/-! ### Items -/

/-- The lexemes of a member, read in front of others. -/
def SpellsMember (ls : List Lexeme) (member : String × TypeExpr) : Prop :=
  ∀ fuel rest, members? (fuel + 1) (ls ++ rest) =
    (members? fuel rest).map fun r => (member :: r.1, r.2)

theorem members?_of_spellsMember {α : Type} {xs : List α} {f : α → List Lexeme}
    {g : α → String × TypeExpr} (h : ∀ x, SpellsMember (f x) (g x)) {fuel : Nat}
    (hfuel : xs.length < fuel) (rest : List Lexeme) :
    members? fuel (xs.flatMap f ++ mark '\x7d' :: rest) = some (xs.map g, rest) := by
  induction xs generalizing fuel with
  | nil =>
    obtain ⟨fuel, rfl⟩ := Nat.exists_eq_succ_of_ne_zero (Nat.pos_iff_ne_zero.1 hfuel)
    rfl
  | cons x xs ih =>
    obtain ⟨fuel, rfl⟩ := Nat.exists_eq_succ_of_ne_zero (Nat.ne_zero_of_lt hfuel)
    rw [List.flatMap_cons, List.append_assoc, h x, ih (Nat.lt_of_succ_lt_succ hfuel)]
    rfl

theorem typeExpr?_lexemes (t : Ty) (rest : List Lexeme) (h : rest.head? ≠ some (mark '<')) :
    typeExpr? (t.lexemes ++ rest) = some (t.expr, rest) := by
  induction t generalizing rest with
  | named name =>
    rw [Ty.lexemes, List.singleton_append]
    cases rest with
    | nil => rfl
    | cons l rest =>
      unfold typeExpr?
      split
      · rename_i heq
        cases heq
      · rename_i heq
        cases heq
        exact absurd rfl h
      · rename_i heq
        cases heq
        rfl
      · rename_i hnone
        exact absurd rfl (hnone _ _)
  | maybe t ih =>
    have hinner := ih (mark '>' :: rest) (by simp)
    simp only [Ty.lexemes, List.cons_append, List.nil_append, List.append_assoc, typeExpr?, hinner]
    rfl
  | array t ih =>
    have hinner := ih (mark '>' :: rest) (by simp)
    simp only [Ty.lexemes, List.cons_append, List.nil_append, List.append_assoc, typeExpr?, hinner]
    rfl

theorem spellsMember_memberLexemes (m : String × Ty) :
    SpellsMember (memberLexemes m) (m.1, m.2.expr) := by
  intro fuel rest
  have htype := typeExpr?_lexemes m.2 (mark ',' :: rest) (by simp)
  simp only [memberLexemes, List.nil_append, List.cons_append, List.append_assoc, members?, htype]

theorem spellsMember_variantLexemes (v : String) : SpellsMember (variantLexemes v) (v, .unit) :=
  fun _ _ => rfl

/-- A struct or an enum behind its attribute. -/
theorem items?_derive {traits : List Lexeme} (h : mark ']' ∉ traits) {attributes : List String}
    (hwords : wordsUpTo ']' ([mark '[', word "derive", mark '('] ++ traits ++
      [mark ')', mark ']']) = attributes) {kind : String} {isEnum : Bool}
    (hkind : (kind = "struct" ∨ kind = "enum") ∧ decide (kind = "enum") = isEnum)
    {tail rest : List Lexeme} {item : Item}
    (hitem : item? attributes isEnum tail = some (item, rest)) (fuel : Nat) :
    items? (fuel + 2) [] (deriveLexemes traits ++ word kind :: tail) =
      (items? fuel [] rest).map ([item] ++ ·) := by
  obtain ⟨inside, hinside⟩ : ∃ inside, inside = [mark '[', word "derive", mark '('] ++ traits ++
    [mark ')'] := ⟨_, rfl⟩
  have hfree : mark ']' ∉ inside := by
    rw [hinside]
    simpa using h
  have hlexemes : deriveLexemes traits ++ word kind :: tail =
      mark '#' :: (inside ++ mark ']' :: word kind :: tail) := by
    simp [deriveLexemes, hinside]
  have hwords' : wordsUpTo ']' (inside ++ [mark ']']) = attributes := by
    rw [← hwords, hinside]
    simp
  rw [hlexemes, items?, wordsUpTo_append hfree, behind_append hfree, hwords', items?,
    if_pos hkind.1, hkind.2, hitem]
  rfl

def Struct.item (s : Struct) : Item :=
  ⟨["derive", "Drop", "Serde"], false, s.name, none, s.members.map fun m => (m.1, m.2.expr)⟩

def Variants.item (e : Variants) : Item :=
  ⟨["derive", "Drop", "Serde", "PartialEq"], true, e.name, none, e.variants.map fun v => (v, .unit)⟩

def maybeItem : Item :=
  ⟨["derive", "Drop", "Serde"], true, "Maybe", some "T",
    [("Absent", .unit), ("Present", .named "T")]⟩

theorem length_le_flatMap {α : Type} {f : α → List Lexeme} (h : ∀ x, f x ≠ []) (xs : List α) :
    xs.length ≤ (xs.flatMap f).length := by
  induction xs with
  | nil => exact Nat.le_refl 0
  | cons x xs ih =>
    have hx := List.length_pos_iff.2 (h x)
    rw [List.flatMap_cons, List.length_append, List.length_cons]
    omega

theorem item?_of_members {α : Type} {f : α → List Lexeme} {g : α → String × TypeExpr}
    (h : ∀ x, SpellsMember (f x) (g x)) (hne : ∀ x, f x ≠ []) (attributes : List String)
    (isEnum : Bool) (name : String) (xs : List α) (rest : List Lexeme) :
    item? attributes isEnum (word name :: mark '\x7b' :: (xs.flatMap f ++ mark '\x7d' :: rest)) =
      some (⟨attributes, isEnum, name, none, xs.map g⟩, rest) := by
  have hfuel : xs.length < (xs.flatMap f ++ mark '\x7d' :: rest).length := by
    have hle := length_le_flatMap hne xs
    rw [List.length_append, List.length_cons]
    omega
  rw [item?, members?_of_spellsMember h hfuel]
  rfl

theorem wordsUpTo_serde : wordsUpTo ']' ([mark '[', word "derive", mark '('] ++ serdeTraits ++
    [mark ')', mark ']']) = ["derive", "Drop", "Serde"] := by decide

theorem not_mem_serdeTraits : mark ']' ∉ serdeTraits := by decide

/-- Members in braces behind a kind and a name make an item, with the attribute in front. -/
theorem spells_of_members {α : Type} {xs : List α} {f : α → List Lexeme}
    {g : α → String × TypeExpr} {traits : List Lexeme} {attributes : List String}
    {kind name : String} {isEnum : Bool}
    (hls : Lexes s (deriveLexemes traits ++ [word kind] ++ [word name] ++ [mark '\x7b'] ++
      xs.flatMap f ++ [mark '\x7d']))
    (hmember : ∀ x, SpellsMember (f x) (g x)) (hne : ∀ x, f x ≠ []) (htraits : mark ']' ∉ traits)
    (hwords : wordsUpTo ']' ([mark '[', word "derive", mark '('] ++ traits ++
      [mark ')', mark ']']) = attributes)
    (hkind : (kind = "struct" ∨ kind = "enum") ∧ decide (kind = "enum") = isEnum) :
    Spells s [⟨attributes, isEnum, name, none, xs.map g⟩] := by
  refine ⟨_, 2, hls, ?_, fun fuel rest => ?_⟩
  · simp only [deriveLexemes, List.length_append, List.length_cons]
    omega
  have hitem := item?_of_members hmember hne attributes isEnum name xs rest
  have hitems := items?_derive htraits hwords hkind hitem fuel
  simp only [List.append_assoc, List.cons_append, List.nil_append]
  exact hitems

theorem spells_struct {s : Struct} (hname : IsWord s.name.toList)
    (hmembers : ∀ m ∈ s.members, IsWord m.1.toList ∧ m.2.Wordy) : Spells s.text [s.item] :=
  spells_of_members (lexes_struct hname hmembers) spellsMember_memberLexemes
    (fun m => by simp [memberLexemes]) not_mem_serdeTraits wordsUpTo_serde ⟨.inl rfl, by decide⟩

theorem spells_variants {e : Variants} (hname : IsWord e.name.toList)
    (hvariants : ∀ v ∈ e.variants, IsWord v.toList) : Spells e.text [e.item] := by
  have hwords : wordsUpTo ']' ([mark '[', word "derive", mark '('] ++
      (serdeTraits ++ [mark ',', word "PartialEq"]) ++ [mark ')', mark ']']) =
      ["derive", "Drop", "Serde", "PartialEq"] := by decide
  exact spells_of_members (lexes_variants hname hvariants) spellsMember_variantLexemes
    (fun v => by simp [variantLexemes]) (by decide) hwords ⟨.inr rfl, by decide⟩

theorem spells_maybe : Spells maybeText [maybeItem] := by
  refine ⟨_, 2, lexes_maybeText, by decide, fun fuel rest => ?_⟩
  exact items?_derive not_mem_serdeTraits wordsUpTo_serde ⟨.inr rfl, by decide⟩ rfl fuel

/-- Implementations declare no type. -/
theorem spells_implementation {i : Implementation} (hname : IsWord i.name.toList)
    (hfunctions : ∀ f ∈ i.functions, f.Wordy) : Spells i.text [] := by
  obtain ⟨head, body, htext, hhead, hbody⟩ := exists_lexes_implementation hname hfunctions
  refine spells_nothing _ 2 htext ?_ fun fuel rest => ?_
  · simp only [List.length_append, List.length_cons]
    omega
  -- The brace behind the head stays open through the body.
  have hbehind : behindBody 0 (head ++ [mark '\x7b'] ++ body ++ [mark '\x7d'] ++ rest) = rest := by
    rw [List.append_assoc, List.append_assoc, List.append_assoc, behindBody_append hhead,
      List.singleton_append, behindBody, if_pos rfl, hbody, List.singleton_append, behindBody,
      if_neg (by decide), if_pos rfl, if_pos (Nat.le_refl 1)]
  have himpl : ∀ fuel attributes tail,
      items? (fuel + 1) attributes (word "impl" :: tail) = items? fuel [] (behindBody 0 tail) :=
    fun _ _ _ => rfl
  simp only [List.append_assoc, List.cons_append, List.nil_append] at hbehind ⊢
  show items? (fuel + 1) _ (word "impl" :: _) = _
  rw [himpl, hbehind]

/-! ### Files -/

/-- All names of a file are words. -/
structure File.Wordy (f : File) : Prop where
  enums : ∀ e ∈ f.enums, IsWord e.name.toList ∧ ∀ v ∈ e.variants, IsWord v.toList
  structs : ∀ s ∈ f.structs, IsWord s.name.toList ∧
    ∀ m ∈ s.members, IsWord m.1.toList ∧ m.2.Wordy
  implementations : ∀ i ∈ f.implementations, IsWord i.name.toList ∧ ∀ g ∈ i.functions, g.Wordy

def File.items (f : File) : List Item :=
  (if f.maybe then [maybeItem] else []) ++ f.enums.map Variants.item ++ f.structs.map Struct.item

theorem spells_file {f : File} (h : f.Wordy) : Spells f.text f.items := by
  have hmaybe : Spells (if f.maybe then maybeText else "") (if f.maybe then [maybeItem] else []) := by
    split
    · exact spells_maybe
    · exact .nil
  have henums : Spells (String.join (f.enums.map Variants.text)) (f.enums.flatMap ([·.item])) :=
    .join fun e he => spells_variants (h.enums e he).1 (h.enums e he).2
  have hstructs : Spells (String.join (f.structs.map Struct.text)) (f.structs.flatMap ([·.item])) :=
    .join fun s hs => spells_struct (h.structs s hs).1 (h.structs s hs).2
  have himpls : Spells (String.join (f.implementations.map Implementation.text))
      (f.implementations.flatMap fun _ => []) :=
    .join fun i hi => spells_implementation (h.implementations i hi).1 (h.implementations i hi).2
  have hnone : (f.implementations.flatMap fun _ => []) = ([] : List Item) :=
    List.flatMap_eq_nil_iff.2 fun _ _ => rfl
  have hall := ((hmaybe.append henums).append hstructs).append himpls
  rw [hnone, List.append_nil, ← List.map_eq_flatMap, ← List.map_eq_flatMap] at hall
  exact hall

/-! ### The head of a file -/

/-- A comment on one line. -/
theorem spells_comment (body : List Char) (h : '\n' ∉ body)
    (hs : s.toList = '/' :: '/' :: (body ++ ['\n'])) : Spells s [] := by
  refine spells_nothing [] 0 (fun rest => ?_) (Nat.zero_le 0) fun _ _ => rfl
  have hbody : runAll .comment (body ++ '\n' :: rest) = runAll .comment ('\n' :: rest) := by
    rw [runAll_append, run_comment h]
    rfl
  rw [hs, List.cons_append, List.cons_append, runAll_cons, runAll_cons, List.append_assoc,
    List.singleton_append]
  exact hbody

theorem isWord_hexadecimal (n : Nat) : IsWord (Text.hexadecimal n).toList := by
  have hdigit : ∀ d < 16, isWordChar (Text.digitChar d) = true := by decide
  rw [Text.toList_hexadecimal]
  refine ⟨by simp, fun c hc => ?_⟩
  rcases List.mem_cons.1 hc with rfl | hc
  · decide
  rcases List.mem_cons.1 hc with rfl | hc
  · decide
  obtain ⟨d, hd, rfl⟩ := Text.mem_inBase (by decide) hc
  exact hdigit d hd

/-- The origin is stated on one line if it has no line feed itself. -/
theorem spells_origin {origin : String} (h : '\n' ∉ origin.toList) :
    Spells ("// This file was generated by oracle-bridge from " ++ origin ++
      ". Do not edit by hand.\n") [] := by
  have hfront : "// This file was generated by oracle-bridge from ".toList =
      '/' :: '/' :: " This file was generated by oracle-bridge from ".toList := by
    rw [String.toList_ofList, String.toList_ofList]
  have hback : ". Do not edit by hand.\n".toList = ". Do not edit by hand.".toList ++ ['\n'] := by
    rw [String.toList_ofList, String.toList_ofList]
    rfl
  have hfree : '\n' ∉ " This file was generated by oracle-bridge from ".toList ∧
      '\n' ∉ ". Do not edit by hand.".toList := by
    rw [String.toList_ofList, String.toList_ofList]
    decide
  refine spells_comment (" This file was generated by oracle-bridge from ".toList ++
    origin.toList ++ ". Do not edit by hand.".toList) ?_ ?_
  · simp only [List.mem_append, not_or]
    exact ⟨⟨hfree.1, h⟩, hfree.2⟩
  · rw [String.toList_append, String.toList_append, hfront, hback]
    simp

theorem spells_use : Spells "use starknet::testing::cheatcode;\n\n" [] := by
  have hls : Lexes "use starknet::testing::cheatcode;\n\n" [word "use", word "starknet",
      mark ':', mark ':', word "testing", mark ':', mark ':', word "cheatcode", mark ';'] :=
    lexes_of_run (by decide)
  exact spells_nothing _ 1 hls (by decide) fun _ _ => rfl

theorem spells_hash {hash : String} (h : '\n' ∉ hash.toList) :
    Spells ("// " ++ hash ++ "\n") [] := by
  refine spells_comment (' ' :: hash.toList) (by simpa using h) ?_
  rw [String.toList_append, String.toList_append]
  rfl

theorem spells_const (element : Nat) :
    Spells ("const SCHEMA_HASH: felt252 = " ++ Text.hexadecimal element ++ ";\n\n") [] := by
  have hfirst : Lexes "const SCHEMA_HASH: felt252 = " [word "const", word "SCHEMA_HASH", mark ':',
      word "felt252", mark '='] := lexes_of_run (by decide)
  have hlast : Lexes ";\n\n" [mark ';'] := lexes_of_run (by decide)
  have hls := (hfirst.before (lexesBefore_word (isWord_hexadecimal element))).append hlast
    (by decide)
  exact spells_nothing _ 1 hls (by simp) fun _ _ => rfl

/-- The head of a file declares no type, whatever it says of its origin on one line. -/
theorem spells_header {origin hash : String} (horigin : '\n' ∉ origin.toList)
    (hhash : '\n' ∉ hash.toList) (element : Nat) : Spells (header origin hash element) [] := by
  have hall := (((spells_origin horigin).append spells_use).append (spells_hash hhash)).append
    (spells_const element)
  simp only [← String.append_assoc] at hall
  exact hall

/-- Line feeds in the end declare nothing. -/
theorem declarations?_endLine (s : String) : declarations? (endLine s) = declarations? s := by
  have hsplit : s.toList = (s.toList.reverse.dropWhile (· = '\n')).reverse ++
      (s.toList.reverse.takeWhile (· = '\n')).reverse := by
    rw [← List.reverse_append, List.takeWhile_append_dropWhile, List.reverse_reverse]
  have hfeeds : ∀ c ∈ (s.toList.reverse.takeWhile (· = '\n')).reverse, c = '\n' := by
    intro c hc
    simpa using List.mem_takeWhile_imp (List.mem_reverse.1 hc)
  have hend : lexemes s = runAll .between (s.toList.reverse.dropWhile (· = '\n')).reverse := by
    rw [← runAll_append_lineFeeds _ hfeeds, ← hsplit, lexemes]
  have hlexemes : lexemes (endLine s) = lexemes s := by
    rw [hend, lexemes, endLine, String.toList_append, String.toList_ofList]
    exact runAll_append_lineFeeds _ fun c hc => List.mem_singleton.1 hc
  rw [declarations?, declarations?, hlexemes]

/-! ### Models -/

theorem wordy_ofSchema (t : Schema.Ty) : (Ty.ofSchema t).Wordy := by
  induction t with
  | scalar s =>
    have hscalar : ∀ s ∈ Scalar.all, scalarName s ≠ "" ∧
        (scalarName s).toList.all isWordChar = true := by decide +kernel
    obtain ⟨hne, hchars⟩ := hscalar s s.mem_all
    exact ⟨by simpa using hne, List.all_eq_true.1 hchars⟩
  | message name => exact isWord_identifier name
  | enum name => exact isWord_identifier name
  | optional t ih => exact ih
  | array t ih => exact ih

/-- Whatever the names of a model, those of its file are words; only its selectors are written as
they are. -/
theorem wordy_ofModel {m : Model} (h : ∀ s ∈ m.services, ∀ x ∈ s.methods,
    ∀ c ∈ x.selector.toList, isWordChar c = true) : (File.ofModel m).Wordy := by
  refine ⟨fun e he => ?_, fun s hs => ?_, fun i hi => ?_⟩
  · obtain ⟨spec, -, rfl⟩ := List.mem_map.1 he
    refine ⟨isWord_identifier _, fun v hv => ?_⟩
    obtain ⟨variant, -, rfl⟩ := List.mem_map.1 hv
    exact isWord_identifier _
  · obtain ⟨spec, -, rfl⟩ := List.mem_map.1 hs
    refine ⟨isWord_identifier _, fun f hf => ?_⟩
    obtain ⟨field, -, rfl⟩ := List.mem_map.1 hf
    exact ⟨isWord_identifier _, wordy_ofSchema _⟩
  · obtain ⟨service, hservice, rfl⟩ := List.mem_map.1 hi
    refine ⟨isWord_identifier _, fun f hf => ?_⟩
    obtain ⟨x, hx, rfl⟩ := List.mem_map.1 hf
    exact ⟨isWord_identifier _, isWord_identifier _, isWord_identifier _, h service hservice x hx⟩

theorem not_mem_originOf {source package : Option String} {c : Char}
    (hsource : ∀ s ∈ source, c ∉ s.toList) (hpackage : ∀ p ∈ package, c ∉ p.toList)
    (hc : c ∉ "oracle definitions".toList) : c ∉ (originOf source package).toList := by
  have hmem : originOf source package ∈ source ∨ originOf source package ∈ package ∨
      originOf source package = "oracle definitions" := by
    cases source <;> cases package <;> simp [originOf, List.filterMap_cons, Option.filter] <;>
      split_ifs <;> simp_all
  rcases hmem with hmem | hmem | heq
  · exact hsource _ hmem
  · exact hpackage _ hmem
  · rw [heq]
    exact hc

theorem not_mem_encode (bytes : List UInt8) : '\n' ∉ (Text.Hex.encode bytes).toList := by
  have hdigit : ∀ d < 16, Text.digitChar d ≠ '\n' := by decide
  rw [Text.Hex.encode, String.toList_ofList]
  intro h
  obtain ⟨b, -, hb⟩ := List.mem_flatMap.1 h
  have hlt : b.toNat < 256 := b.toNat_lt
  rcases List.mem_cons.1 hb with heq | hb
  · exact hdigit _ (by omega) heq.symm
  · exact hdigit _ (by omega) (List.mem_singleton.1 hb).symm

theorem not_mem_hash (m : Model) : '\n' ∉ m.hash.toList := by
  have hlead : '\n' ∉ "0x".toList := by decide
  rw [Model.hash, String.toList_append, List.mem_append]
  exact not_or.2 ⟨hlead, not_mem_encode _⟩

/-- The file of a model declares its enums and its structs, in their order. -/
theorem declarations?_emit {m : Model} {source : Option String}
    (hsource : ∀ s ∈ source, '\n' ∉ s.toList) (hpackage : ∀ p ∈ m.package, '\n' ∉ p.toList)
    (hselectors : ∀ s ∈ m.services, ∀ x ∈ s.methods, ∀ c ∈ x.selector.toList, isWordChar c = true) :
    declarations? (emit m.lock source) = some (File.ofModel m).items := by
  have horigin := not_mem_originOf hsource hpackage (by decide +kernel)
  have hheader := spells_header horigin (not_mem_hash m) ((hashElement? m.hash).getD 0)
  have hfile := hheader.append (spells_file (wordy_ofModel hselectors))
  rw [emit, declarations?_endLine]
  exact declarations?_of_spells hfile

end FeltRelay.Cairo
