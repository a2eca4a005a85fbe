import FeltRelay.Cairo.Declarations
import FeltRelay.Proofs.Cairo.Identifier
import FeltRelay.Proofs.Schema.Routes

/-!
# Identifiers within a scope

No identifier is a keyword (`identifier_not_mem_keywords`). For that a keyword gets an underscore,
and a dot becomes one, so two fields of a message can share their identifier: exactly the names that
`Collide`. Variants never do, and of the functions of a service only two can, those of the selector
`x` and of the empty selector (`scopes_of_ofText`).
-/

namespace FeltRelay.Cairo

open FeltRelay.Text FeltRelay.Schema FeltRelay.Schema.Naming FeltRelay.Schema.Definitions

/-! ### Keywords -/

def IsKeyword (s : List Char) : Prop := keywords.contains (String.ofList s) = true

instance (s : List Char) : Decidable (IsKeyword s) := inferInstanceAs (Decidable (_ = true))

theorem isKeyword_iff {s : List Char} : IsKeyword s ↔ String.ofList s ∈ keywords :=
  List.contains_iff_mem

/-- Keywords are words of letters. -/
theorem of_isKeyword {s : List Char} (h : IsKeyword s) :
    s.head? ≠ some '_' ∧ s.getLast? ≠ some '_' := by
  have hall : ∀ k ∈ keywords, k.toList.head? ≠ some '_' ∧ k.toList.getLast? ≠ some '_' := by
    decide +kernel
  have hs := hall _ (isKeyword_iff.1 h)
  rwa [String.toList_ofList] at hs

/-- A word, with an underscore behind a keyword. -/
def escaped (s : List Char) : List Char := if IsKeyword s then s ++ ['_'] else s

/-- A word, with an underscore before a digit. -/
def sheltered (s : List Char) : List Char := if s.head?.any isDigitLike then '_' :: s else s

theorem toList_identifier (name : String) :
    (identifier name).toList = sheltered (escaped
      (if (trimChars name.toList).isEmpty then ['x']
        else (trimChars name.toList).map identifierChar)) := by
  rw [identifier, String.toList_ofList, List.isEmpty_map]
  rfl

theorem not_isKeyword_append (s : List Char) : ¬IsKeyword (s ++ ['_']) := by
  intro h
  exact (of_isKeyword h).2 (by simp)

theorem not_isKeyword_escaped (s : List Char) : ¬IsKeyword (escaped s) := by
  rw [escaped]
  split
  · exact not_isKeyword_append s
  · assumption

theorem not_isKeyword_sheltered {s : List Char} (h : ¬IsKeyword s) : ¬IsKeyword (sheltered s) := by
  rw [sheltered]
  split
  · intro hkeyword
    exact (of_isKeyword hkeyword).1 rfl
  · exact h

theorem identifier_not_mem_keywords (name : String) : identifier name ∉ keywords := by
  intro hmem
  have hkeyword : IsKeyword (identifier name).toList := by
    rwa [isKeyword_iff, String.ofList_toList]
  rw [toList_identifier] at hkeyword
  exact not_isKeyword_sheltered (not_isKeyword_escaped _) hkeyword

theorem head?_escaped_cons (c : Char) (s : List Char) : (escaped (c :: s)).head? = some c := by
  rw [escaped]
  split <;> rfl

theorem escaped_eq_iff {s t : List Char} :
    escaped s = escaped t ↔
      s = t ∨ (IsKeyword s ∧ t = s ++ ['_']) ∨ (IsKeyword t ∧ s = t ++ ['_']) := by
  have hs := not_isKeyword_append s
  have ht := not_isKeyword_append t
  by_cases hks : IsKeyword s <;> by_cases hkt : IsKeyword t
  · rw [escaped, escaped, if_pos hks, if_pos hkt, List.append_cancel_right_eq]
    refine ⟨.inl, ?_⟩
    rintro (h | ⟨-, rfl⟩ | ⟨-, rfl⟩)
    · exact h
    · exact absurd hkt hs
    · exact absurd hks ht
  · rw [escaped, escaped, if_pos hks, if_neg hkt]
    refine ⟨fun h => .inr (.inl ⟨hks, h.symm⟩), ?_⟩
    rintro (rfl | ⟨-, h⟩ | ⟨h, -⟩)
    · exact absurd hks hkt
    · exact h.symm
    · exact absurd h hkt
  · rw [escaped, escaped, if_neg hks, if_pos hkt]
    refine ⟨fun h => .inr (.inr ⟨hkt, h⟩), ?_⟩
    rintro (rfl | ⟨h, -⟩ | ⟨-, h⟩)
    · exact absurd hkt hks
    · exact absurd h hks
    · exact h
  · rw [escaped, escaped, if_neg hks, if_neg hkt]
    refine ⟨.inl, ?_⟩
    rintro (h | ⟨h, -⟩ | ⟨h, -⟩)
    · exact h
    · exact absurd h hks
    · exact absurd h hkt

/-! ### Fields -/

/-- A name with underscores for its dots. -/
def undotted (name : String) : List Char := name.toList.map fun c => if c = '.' then '_' else c

/-- Two names that are equal but for dots and underscores, or but for an underscore behind a
keyword. -/
def Collide (s t : String) : Prop :=
  undotted s = undotted t ∨ (IsKeyword (undotted s) ∧ undotted t = undotted s ++ ['_']) ∨
    (IsKeyword (undotted t) ∧ undotted s = undotted t ++ ['_'])

instance (s t : String) : Decidable (Collide s t) := inferInstanceAs (Decidable (_ ∨ _ ∨ _))

theorem of_isNameChar {c : Char} (h : IsNameChar c) :
    isBlank c = false ∧ identifierChar c = if c = '.' then '_' else c := by
  have hall : (isNamePart c = true ∨ c = '.') →
      isBlank c = false ∧ identifierChar c = if c = '.' then '_' else c :=
    of_ascii (p := fun c => (isNamePart c = true ∨ c = '.') →
      isBlank c = false ∧ identifierChar c = if c = '.' then '_' else c) (by decide +kernel)
      (Model.toNat_lt_of_isNameChar h)
  exact hall h

theorem isDigitLike_of_isNameStart {c : Char} (h : isNameStart c = true) :
    isDigitLike c = false := by
  have hall : isNameStart c = true → isDigitLike c = false :=
    of_ascii (p := fun c => isNameStart c = true → isDigitLike c = false) (by decide +kernel)
      (Model.toNat_lt_of_isNameChar (.inl (isNamePart_of_isNameStart h)))
  exact hall h

theorem toList_identifier_of_isName {name : String} (h : IsName name.toList) :
    (identifier name).toList = escaped (undotted name) := by
  obtain ⟨c, rest, hname, hstart⟩ := h.start
  have hne : name.toList.isEmpty = false := by rw [hname]; rfl
  have hmap : name.toList.map identifierChar = undotted name :=
    List.map_congr_left fun d hd => (of_isNameChar (h.chars d hd)).2
  have hfirst : isDigitLike (if c = '.' then '_' else c) = false := by
    rcases hstart with hc | rfl
    · split
      · decide
      · exact isDigitLike_of_isNameStart hc
    · decide
  have hhead : (escaped (undotted name)).head? = some (if c = '.' then '_' else c) := by
    rw [undotted, hname, List.map_cons, head?_escaped_cons]
  have hsheltered : sheltered (escaped (undotted name)) = escaped (undotted name) := by
    rw [sheltered, hhead, Option.any_some, hfirst, if_neg Bool.false_ne_true]
  rw [toList_identifier, trimChars_of_forall_not fun d hd => (of_isNameChar (h.chars d hd)).1, hne,
    if_neg Bool.false_ne_true, hmap, hsheltered]

theorem identifier_eq_iff {s t : String} (hs : IsName s.toList) (ht : IsName t.toList) :
    identifier s = identifier t ↔ Collide s t := by
  rw [← String.toList_inj, toList_identifier_of_isName hs, toList_identifier_of_isName ht,
    escaped_eq_iff, Collide]

/-! ### Selectors -/

/-- A text without the underscores at its ends. -/
def stripped (s : List Char) : List Char :=
  ((s.dropWhile (· = '_')).reverse.dropWhile (· = '_')).reverse

theorem dropWhile_of_head?_ne {s : List Char} (h : s.head? ≠ some '_') :
    s.dropWhile (· = '_') = s := by
  cases s with
  | nil => rfl
  | cons c s => exact List.dropWhile_cons_of_neg (by simpa using h)

theorem stripped_cons (s : List Char) : stripped ('_' :: s) = stripped s := by
  rw [stripped, List.dropWhile_cons_of_pos (by simp), stripped]

theorem stripped_of_isBare {s : List Char} (h : IsBare s) : stripped s = s := by
  have hlast : s.reverse.head? ≠ some '_' := by
    rw [List.head?_reverse]
    exact h.last
  rw [stripped, dropWhile_of_head?_ne h.head, dropWhile_of_head?_ne hlast, List.reverse_reverse]

theorem stripped_append {s : List Char} (h : IsBare s) : stripped (s ++ ['_']) = s := by
  cases s with
  | nil => rfl
  | cons c s =>
    have hhead : ((c :: s) ++ ['_']).head? ≠ some '_' := h.head
    have hstripped := stripped_of_isBare h
    rw [stripped, dropWhile_of_head?_ne h.head] at hstripped
    rw [stripped, dropWhile_of_head?_ne hhead, List.reverse_append, List.reverse_singleton,
      List.singleton_append, List.dropWhile_cons_of_pos (by simp), hstripped]

theorem stripped_sheltered (s : List Char) : stripped (sheltered s) = stripped s := by
  rw [sheltered]
  split
  · exact stripped_cons s
  · rfl

theorem stripped_escaped {s : List Char} (h : IsBare s) : stripped (escaped s) = s := by
  rw [escaped]
  split
  · exact stripped_append h
  · exact stripped_of_isBare h

/-- A selector that is not empty is its identifier without underscores at the ends. -/
theorem stripped_identifier {name : String}
    (hchars : ∀ c ∈ name.toList, c = '_' ∨ c.isLower = true ∨ c.isDigit = true)
    (hbare : IsBare name.toList) :
    stripped (identifier name).toList = if name.toList.isEmpty then ['x'] else name.toList := by
  have hpart : ∀ c ∈ name.toList, isNamePart c = true := by
    intro c hc
    rw [isNamePart, Bool.or_eq_true, decide_eq_true_eq]
    exact (hchars c hc).symm.imp isAlphanum_of_isLower_or_isDigit id
  have hmap : name.toList.map identifierChar = name.toList := by
    refine (List.map_congr_left fun c hc => ?_).trans (List.map_id _)
    rw [(of_isNameChar (.inl (hpart c hc))).2, if_neg]
    · rfl
    · rintro rfl
      exact absurd (hpart _ hc) (by decide)
  have hplain : IsBare (if name.toList.isEmpty then ['x'] else name.toList) := by
    split
    · exact ⟨by decide, by decide⟩
    · exact hbare
  rw [toList_identifier, trimChars_of_forall_not fun c hc => (of_isNameChar (.inl (hpart c hc))).1,
    hmap, stripped_sheltered, stripped_escaped hplain]

theorem eq_or_of_identifier_eq {s t : String}
    (hs : (∀ c ∈ s.toList, c = '_' ∨ c.isLower = true ∨ c.isDigit = true) ∧ IsBare s.toList)
    (ht : (∀ c ∈ t.toList, c = '_' ∨ c.isLower = true ∨ c.isDigit = true) ∧ IsBare t.toList)
    (h : identifier s = identifier t) : s = t ∨ (s = "" ∧ t = "x") ∨ (s = "x" ∧ t = "") := by
  have heq := stripped_identifier hs.1 hs.2
  rw [h, stripped_identifier ht.1 ht.2] at heq
  simp only [List.isEmpty_iff, String.toList_eq_nil_iff] at heq
  have hx : ∀ {u : String}, u.toList = ['x'] → u = "x" := fun hu => String.toList_inj.1 hu
  split_ifs at heq with ht' hs' hs'
  · exact .inl (hs'.trans ht'.symm)
  · exact .inr (.inr ⟨hx heq.symm, ht'⟩)
  · exact .inr (.inl ⟨hs', hx heq⟩)
  · exact .inl (String.toList_inj.1 heq.symm)

/-- Identifiers of different selectors differ, but for those of `x` and of the empty selector. -/
theorem nodup_identifiers_iff {selectors : List String} (hnodup : selectors.Nodup)
    (h : ∀ s ∈ selectors,
      (∀ c ∈ s.toList, c = '_' ∨ c.isLower = true ∨ c.isDigit = true) ∧ IsBare s.toList) :
    (selectors.map identifier).Nodup ↔ ¬("" ∈ selectors ∧ "x" ∈ selectors) := by
  constructor
  · rintro hmapped ⟨hempty, hx⟩
    have hsame : identifier "" = identifier "x" := by decide +kernel
    exact absurd (List.inj_on_of_nodup_map hmapped hempty hx hsame) (by decide)
  · intro hfree
    refine hnodup.map_on fun s hs t ht heq => ?_
    rcases eq_or_of_identifier_eq (h s hs) (h t ht) heq with rfl | ⟨rfl, rfl⟩ | ⟨rfl, rfl⟩
    · rfl
    · exact absurd ⟨hs, ht⟩ hfree
    · exact absurd ⟨ht, hs⟩ hfree

/-! ### Scopes of a file -/

/-- The identifiers of each scope: members of structs, variants of enums, functions of
implementations. -/
def File.scopes (f : File) : List (List String) :=
  f.structs.map (fun s => s.members.map (·.1)) ++ f.enums.map (·.variants) ++
    f.implementations.map fun i => i.functions.map (·.name)

variable {m : Model} {text : String}

theorem identified_of_mem_scopes {scope : List String} (h : scope ∈ (File.ofModel m).scopes) :
    ∃ names : List String, scope = names.map identifier := by
  simp only [File.scopes, File.ofModel, List.map_map, List.mem_append, List.mem_map] at h
  rcases h with (⟨s, -, rfl⟩ | ⟨e, -, rfl⟩) | ⟨s, -, rfl⟩
  · exact ⟨s.fieldNames, by simp [Message.fieldNames]⟩
  · exact ⟨e.variants, rfl⟩
  · exact ⟨s.methods.map (·.selector), by simp [Function.ofMethod]⟩

theorem isName_of_ofText (h : Model.ofText text = .ok m) {s : Message} (hs : s ∈ m.messages)
    {name : String} (hname : name ∈ s.fieldNames) : IsName name.toList := by
  obtain ⟨d, hd, hm⟩ := bind_eq_ok_iff.1 h
  obtain ⟨tokens, htokens, hd⟩ := bind_eq_ok_iff.1 hd
  obtain ⟨names, -, hmade⟩ := Model.madeOf_of_ofDeclarations hm
  obtain ⟨x, hx, hof⟩ := exists_of_forall₂ hmade.messages hs
  obtain ⟨f, hf, rfl⟩ := List.mem_map.1 hname
  obtain ⟨e, he, t, -, rfl⟩ := exists_of_forall₂ hof.fields hf
  obtain ⟨token, htoken, hkind, htext, -⟩ := (writtenIn_of_ofTokens hd).fields x hx e he
  rw [← htext]
  exact isName_of_mem_tokenize htokens htoken hkind

theorem selectors_of_service (h : Model.ofText text = .ok m) {s : Service} (hs : s ∈ m.services) :
    (s.methods.map (·.selector)).Nodup ∧ ∀ selector ∈ s.methods.map (·.selector),
      (∀ c ∈ selector.toList, c = '_' ∨ c.isLower = true ∨ c.isDigit = true) ∧
        IsBare selector.toList := by
  obtain ⟨hnodup, hchars⟩ := Model.selectors_of_ofText h
  refine ⟨?_, fun selector hmem => ?_⟩
  · rw [Model.selectors_methods, List.map_flatMap] at hnodup
    exact (List.nodup_flatMap.1 hnodup).1 s hs
  · obtain ⟨x, hx, rfl⟩ := List.mem_map.1 hmem
    have hspelled := Model.spelled_of_ofText h s hs x hx
    refine ⟨(hchars s hs x hx).2, ?_⟩
    rw [hspelled.selector]
    exact isBare_snake hspelled.ascii

/-- In the file of an accepted text no identifier of a scope is a keyword. The variants of an enum
are distinct, the members of a struct exactly if no two of its fields collide, and the functions of
an implementation exactly if the service does not have both the selector `x` and the empty one. -/
theorem scopes_of_ofText (h : Model.ofText text = .ok m) :
    (∀ scope ∈ (File.ofModel m).scopes, ∀ name ∈ scope, name ∉ keywords) ∧
      (∀ e ∈ (File.ofModel m).enums, e.variants.Nodup) ∧
      List.Forall₂ (fun (s : Message) (t : Struct) => (t.members.map (·.1)).Nodup ↔
        s.fieldNames.Pairwise (¬Collide · ·)) m.messages (File.ofModel m).structs ∧
      List.Forall₂ (fun (s : Service) (i : Implementation) => (i.functions.map (·.name)).Nodup ↔
        ¬("" ∈ s.methods.map (·.selector) ∧ "x" ∈ s.methods.map (·.selector)))
        m.services (File.ofModel m).implementations := by
  refine ⟨fun scope hscope name hname => ?_, fun e he => ?_, ?_, ?_⟩
  · obtain ⟨names, rfl⟩ := identified_of_mem_scopes hscope
    obtain ⟨source, -, rfl⟩ := List.mem_map.1 hname
    exact identifier_not_mem_keywords source
  · obtain ⟨spec, hspec, rfl⟩ := List.mem_map.1 he
    refine ((Model.distinct_of_ofText h).variants spec hspec).map_on fun v hv w hw heq => ?_
    exact identifier_inj (Model.isVariantName_of_ofText h hspec hv)
      (Model.isVariantName_of_ofText h hspec hw) heq
  · rw [File.ofModel, List.forall₂_map_right_iff, List.forall₂_same]
    intro s hs
    have hmembers : (s.fields.map fun f => (identifier f.name, Ty.ofSchema f.type)).map (·.1) =
        s.fieldNames.map identifier := by simp [Message.fieldNames]
    rw [hmembers, List.Nodup, List.pairwise_map]
    refine List.Pairwise.iff_of_mem fun hx hy => not_congr ?_
    exact identifier_eq_iff (isName_of_ofText h hs hx) (isName_of_ofText h hs hy)
  · rw [File.ofModel, List.forall₂_map_right_iff, List.forall₂_same]
    intro s hs
    have hfunctions : (s.methods.map Function.ofMethod).map (·.name) =
        (s.methods.map (·.selector)).map identifier := by simp [Function.ofMethod]
    obtain ⟨hnodup, hbare⟩ := selectors_of_service h hs
    rw [hfunctions]
    exact nodup_identifiers_iff hnodup hbare

/-- In the file of `canvas` all identifiers of a scope are distinct. -/
theorem scopes_canvas : Model.ofText Model.canvasText = .ok Model.canvas ∧
    ∀ scope ∈ (File.ofModel Model.canvas).scopes, scope.Nodup ∧ ∀ name ∈ scope, name ∉ keywords := by
  obtain ⟨hkeywords, hvariants, hstructs, himplementations⟩ :=
    scopes_of_ofText Model.ofText_canvasText
  have hfields : ∀ s ∈ Model.canvas.messages, s.fieldNames.Pairwise (¬Collide · ·) := by
    decide +kernel
  have hselectors : ∀ s ∈ Model.canvas.services,
      ¬("" ∈ s.methods.map (·.selector) ∧ "x" ∈ s.methods.map (·.selector)) := by decide +kernel
  refine ⟨Model.ofText_canvasText, fun scope hscope => ⟨?_, hkeywords scope hscope⟩⟩
  simp only [File.scopes, List.mem_append, List.mem_map] at hscope
  rcases hscope with (⟨t, ht, rfl⟩ | ⟨e, he, rfl⟩) | ⟨i, hi, rfl⟩
  · obtain ⟨s, hs, hiff⟩ := exists_of_forall₂ hstructs ht
    exact hiff.2 (hfields s hs)
  · exact hvariants e he
  · obtain ⟨s, hs, hiff⟩ := exists_of_forall₂ himplementations hi
    exact hiff.2 (hselectors s hs)

/-- A keyword beside the same word with an underscore, as names of fields. Dots beside underscores
and methods of which one has no letters do the same. -/
def collidingText : String :=
  "message A \x7b u32 type = 1; u32 type_ = 2; \x7d
   message B \x7b u32 a.b = 1; u32 a_b = 2; \x7d
   service S \x7b rpc x (A) returns (A); rpc _ (A) returns (A); \x7d"

/-- The model of `collidingText`. -/
def colliding : Model where
  package := none
  messages := [⟨"A", [⟨"type", .scalar (.unsigned .w32)⟩, ⟨"type_", .scalar (.unsigned .w32)⟩]⟩,
    ⟨"B", [⟨"a.b", .scalar (.unsigned .w32)⟩, ⟨"a_b", .scalar (.unsigned .w32)⟩]⟩]
  enums := []
  services := [⟨"S", [⟨"x", "x", "x", "A", "A"⟩, ⟨"_", "", "_", "A", "A"⟩]⟩]

/-- Each scope has one identifier twice. -/
theorem scopes_colliding : Model.ofText collidingText = .ok colliding ∧
    (File.ofModel colliding).scopes = [["type_", "type_"], ["a_b", "a_b"], ["x", "x"]] := by
  refine ⟨?_, by decide +kernel⟩
  rw [Model.ofText, Declarations.ofText, tokenize, collidingText, String.toList_ofList]
  exact eq_ok_of_toOption (by decide +kernel)

end FeltRelay.Cairo
