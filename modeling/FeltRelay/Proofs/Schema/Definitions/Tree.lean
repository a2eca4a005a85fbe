import FeltRelay.Proofs.Schema.Definitions.Reading
import FeltRelay.Proofs.Schema.Definitions.Spelled

/-!
# Declaration trees

What a definitions text is to declare, as a tree, with the statements to be skipped at their places.
`words` writes a tree, `outline` lists what it declares: messages before those nested in them, each
with the names around it and its own. `Plain` trees use no word that is reserved where it stands.
-/

namespace FeltRelay.Schema.Definitions

open FeltRelay.Text

namespace Word

def name (s : String) : Word := (.name, s)

def mark (s : String) : Word := (.mark, s)

def number (i : Int) : Word := (.number, integer i)

end Word

/-! ### Skipped statements -/

/-- Words in which all brackets are closed in turn. Outside of them a semicolon stands only if
`free`. -/
inductive Nested : Bool → List Word → Prop
  | nil {free : Bool} : Nested free []
  | plain {free : Bool} {w : Word} {ws : List Word}
      (h : w.2 ∉ ["(", ")", "[", "]", "\x7b", "\x7d"]) (hend : w.2 = ";" → free = true)
      (rest : Nested free ws) : Nested free (w :: ws)
  | group {free : Bool} {opening closing : Word} {us ws : List Word}
      (h : (opening.2, closing.2) ∈ [("(", ")"), ("[", "]"), ("\x7b", "\x7d")])
      (hus : Nested true us) (rest : Nested free ws) :
      Nested free (opening :: (us ++ closing :: ws))

/-- A statement that is skipped, up to its semicolon. -/
structure Statement where
  keyword : String
  content : List Word

def Statement.words (s : Statement) : List Word :=
  .name s.keyword :: (s.content ++ [.mark ";"])

structure Statement.Plain (keywords : List String) (s : Statement) : Prop where
  keyword : s.keyword ∈ keywords
  nested : Nested false s.content
  spelled : ∀ w ∈ s.content, Spelled w

/-! ### Fields -/

/-- A field, its type as it is referred to. -/
structure FieldTree where
  label : Option Label
  typeName : String
  name : String
  number : Int
deriving DecidableEq, Repr

def Label.word : Label → String
  | .optional => "optional"
  | .repeated => "repeated"
  | .required => "required"

def FieldTree.words (f : FieldTree) : List Word :=
  (f.label.map fun l => Word.name l.word).toList ++
    [.name f.typeName, .name f.name, .mark "=", .number f.number, .mark ";"]

/-- The words that do not stand for a type, more of them without a label. -/
def reservedTypes : Option Label → List String
  | none => bodyWords ++ ["optional", "repeated", "required", "float", "double"]
  | some _ => ["float", "double"]

structure FieldTree.Plain (f : FieldTree) : Prop where
  type : IsReference f.typeName.toList
  free : f.typeName ∉ reservedTypes f.label
  name : IsWord f.name.toList

/-! ### Enumerations -/

inductive ValueTree where
  | value (name : String) (number : Int)
  | skip (s : Statement)

def ValueTree.words : ValueTree → List Word
  | value name number => [.name name, .mark "=", .number number, .mark ";"]
  | skip s => s.words

def ValueTree.value? : ValueTree → Option (String × Int)
  | value name number => some (name, number)
  | skip _ => none

def ValueTree.Plain : ValueTree → Prop
  | value name _ => IsWord name.toList ∧ name ∉ ["option", "reserved"]
  | skip s => s.Plain ["option", "reserved"]

structure EnumTree where
  name : String
  values : List ValueTree

def EnumTree.words (e : EnumTree) : List Word :=
  .name "enum" :: .name e.name :: .mark "\x7b" :: (e.values.flatMap (·.words) ++ [.mark "\x7d"])

def EnumTree.declared (scope : List String) (e : EnumTree) : EnumDecl :=
  ⟨scope, e.name, e.values.filterMap (·.value?)⟩

structure EnumTree.Plain (e : EnumTree) : Prop where
  name : IsWord e.name.toList
  values : ∀ v ∈ e.values, v.Plain

/-! ### Messages -/

/-- What stands between the braces of a message, in order. -/
inductive BodyTree where
  | done
  | field (f : FieldTree) (rest : BodyTree)
  | enum (e : EnumTree) (rest : BodyTree)
  | message (name : String) (inner rest : BodyTree)
  | skip (s : Statement) (rest : BodyTree)

namespace BodyTree

/-- The words of a body with its closing brace. -/
def words : BodyTree → List Word
  | done => [.mark "\x7d"]
  | field f rest => f.words ++ rest.words
  | enum e rest => e.words ++ rest.words
  | message name inner rest =>
    .name "message" :: .name name :: .mark "\x7b" :: (inner.words ++ rest.words)
  | skip s rest => s.words ++ rest.words

def fields : BodyTree → List FieldTree
  | done => []
  | field f rest => f :: rest.fields
  | enum _ rest | message _ _ rest | skip _ rest => rest.fields

/-- The messages nested in a body, each before those nested in it. -/
def messages (scope : List String) : BodyTree → List (List String × List FieldTree)
  | done => []
  | message name inner rest =>
    (scope ++ [name], inner.fields) :: inner.messages (scope ++ [name]) ++ rest.messages scope
  | field _ rest | enum _ rest | skip _ rest => rest.messages scope

def enums (scope : List String) : BodyTree → List EnumDecl
  | done => []
  | enum e rest => e.declared scope :: rest.enums scope
  | message name inner rest => inner.enums (scope ++ [name]) ++ rest.enums scope
  | field _ rest | skip _ rest => rest.enums scope

def Plain : BodyTree → Prop
  | done => True
  | field f rest => f.Plain ∧ rest.Plain
  | enum e rest => e.Plain ∧ rest.Plain
  | message name inner rest => IsWord name.toList ∧ inner.Plain ∧ rest.Plain
  | skip s rest => s.Plain ["option", "reserved", "extensions"] ∧ rest.Plain

end BodyTree

/-! ### Services -/

/-- What ends a method: a semicolon, or statements to be skipped between braces. -/
inductive MethodEnd where
  | semicolon
  | braces (statements : List Statement)

def MethodEnd.words : MethodEnd → List Word
  | semicolon => [.mark ";"]
  | braces statements => .mark "\x7b" :: (statements.flatMap (·.words) ++ [.mark "\x7d"])

inductive MethodTree where
  | method (m : MethodDecl) (ending : MethodEnd)
  | skip (s : Statement)

def MethodTree.words : MethodTree → List Word
  | method m ending =>
    [.name "rpc", .name m.name, .mark "(", .name m.request, .mark ")", .name "returns", .mark "(",
      .name m.response, .mark ")"] ++ ending.words
  | skip s => s.words

def MethodTree.method? : MethodTree → Option MethodDecl
  | method m _ => some m
  | skip _ => none

def MethodTree.Plain : MethodTree → Prop
  | method m ending => IsWord m.name.toList ∧
      (IsReference m.request.toList ∧ m.request ≠ "stream") ∧
      (IsReference m.response.toList ∧ m.response ≠ "stream") ∧
      match ending with
      | .semicolon => True
      | .braces statements => ∀ s ∈ statements, s.Plain ["option"]
  | skip s => s.Plain ["option"]

structure ServiceTree where
  name : String
  methods : List MethodTree

def ServiceTree.words (s : ServiceTree) : List Word :=
  .name "service" :: .name s.name :: .mark "\x7b" ::
    (s.methods.flatMap (·.words) ++ [.mark "\x7d"])

def ServiceTree.declared (s : ServiceTree) : ServiceDecl :=
  ⟨s.name, s.methods.filterMap (·.method?)⟩

structure ServiceTree.Plain (s : ServiceTree) : Prop where
  name : IsWord s.name.toList
  methods : ∀ m ∈ s.methods, m.Plain

/-! ### Files -/

/-- A declaration at top level, or a statement that is skipped there. -/
inductive Entry where
  | version (value : String)
  | package (name : String)
  | message (name : String) (body : BodyTree)
  | enum (e : EnumTree)
  | service (s : ServiceTree)
  | skip (s : Statement)

namespace Entry

def words : Entry → List Word
  | version value => [.name "syntax", .mark "=", (.string, value), .mark ";"]
  | package name => [.name "package", .name name, .mark ";"]
  | message name body => .name "message" :: .name name :: .mark "\x7b" :: body.words
  | enum e => e.words
  | service s => s.words
  | skip s => s.words

def package? : Entry → Option String
  | package name => some name
  | _ => none

def messages : Entry → List (List String × List FieldTree)
  | message name body => ([name], body.fields) :: body.messages [name]
  | _ => []

def enums : Entry → List EnumDecl
  | message name body => body.enums [name]
  | enum e => [e.declared []]
  | _ => []

def service? : Entry → Option ServiceDecl
  | service s => some s.declared
  | _ => none

def Plain : Entry → Prop
  | version value => IsString value.toList
  | package name => IsDotted name.toList
  | message name body => IsWord name.toList ∧ body.Plain
  | enum e => e.Plain
  | service s => s.Plain
  | skip s => s.Plain ["import", "option"]

end Entry

/-- What declarations say, but for the places of fields. -/
structure Outline where
  package : Option String
  messages : List (List String × List FieldTree)
  enums : List EnumDecl
  services : List ServiceDecl

/-- What a file declares: its last package, and all else in order. -/
def outline (entries : List Entry) : Outline where
  package := (entries.filterMap (·.package?)).getLast?
  messages := entries.flatMap (·.messages)
  enums := entries.flatMap (·.enums)
  services := entries.filterMap (·.service?)

def FieldDecl.tree (f : FieldDecl) : FieldTree := ⟨f.label, f.typeName, f.name, f.number⟩

def MessageDecl.outline (m : MessageDecl) : List String × List FieldTree :=
  (m.scope, m.fields.map (·.tree))

def Declarations.outline (d : Declarations) : Outline :=
  ⟨d.package, d.messages.map (·.outline), d.enums, d.services⟩

/-! ### How trees are spelled -/

instance (s : List Char) : Decidable (IsWord s) :=
  decidable_of_iff (s.head?.any isNameStart = true ∧ s.tail.all isNamePart = true) (by
    constructor
    · rintro ⟨hhead, htail⟩
      cases s with
      | nil => cases hhead
      | cons c s => exact ⟨c, s, rfl, hhead, List.all_eq_true.1 htail⟩
    · rintro ⟨c, rest, rfl, hc, hrest⟩
      exact ⟨hc, List.all_eq_true.2 hrest⟩)

theorem spelled_name {s : String} (h : IsWord s.toList) : Spelled (.name s) := .inl (.word h)

theorem spelled_reference {s : String} (h : IsReference s.toList) : Spelled (.name s) := h

theorem spelled_number (i : Int) : Spelled (.number i) := isNumber_integer i

theorem spelled_mark {s : String} (h : (marks.any fun c => s.toList = [c]) = true) :
    Spelled (.mark s) := by
  obtain ⟨c, hc, heq⟩ := List.any_eq_true.1 h
  exact ⟨c, hc, of_decide_eq_true heq⟩

theorem Statement.Plain.spelled_words {keywords : List String} {s : Statement}
    (h : s.Plain keywords) (hkeywords : ∀ k ∈ keywords, IsWord k.toList) :
    ∀ w ∈ s.words, Spelled w := by
  simp only [Statement.words, List.forall_mem_cons, List.forall_mem_append]
  exact ⟨spelled_name (hkeywords _ h.keyword), h.spelled, spelled_mark (by decide), by simp⟩

theorem FieldTree.Plain.spelled {f : FieldTree} (h : f.Plain) : ∀ w ∈ f.words, Spelled w := by
  have hlabel : ∀ w ∈ (f.label.map fun l => Word.name l.word).toList, Spelled w := by
    cases f.label with
    | none => simp
    | some l =>
      simp only [Option.map_some, Option.toList_some, List.forall_mem_singleton]
      cases l <;> exact spelled_name (by decide)
  simp only [FieldTree.words, List.forall_mem_append, List.forall_mem_cons]
  exact ⟨hlabel, spelled_reference h.type, spelled_name h.name, spelled_mark (by decide),
    spelled_number _, spelled_mark (by decide), by simp⟩

theorem ValueTree.Plain.spelled {v : ValueTree} (h : v.Plain) : ∀ w ∈ v.words, Spelled w := by
  cases v with
  | value name number =>
    simp only [ValueTree.words, List.forall_mem_cons]
    exact ⟨spelled_name h.1, spelled_mark (by decide), spelled_number _, spelled_mark (by decide),
      by simp⟩
  | skip s => exact h.spelled_words (by decide)

theorem EnumTree.Plain.spelled {e : EnumTree} (h : e.Plain) : ∀ w ∈ e.words, Spelled w := by
  simp only [EnumTree.words, List.forall_mem_cons, List.forall_mem_append, List.forall_mem_flatMap]
  exact ⟨spelled_name (by decide), spelled_name h.name, spelled_mark (by decide),
    fun v hv => (h.values v hv).spelled, spelled_mark (by decide), by simp⟩

theorem BodyTree.Plain.spelled {b : BodyTree} (h : b.Plain) : ∀ w ∈ b.words, Spelled w := by
  induction b with
  | done =>
    simp only [BodyTree.words, List.forall_mem_singleton]
    exact spelled_mark (by decide)
  | field f rest ih =>
    simp only [BodyTree.words, List.forall_mem_append]
    exact ⟨h.1.spelled, ih h.2⟩
  | enum e rest ih =>
    simp only [BodyTree.words, List.forall_mem_append]
    exact ⟨h.1.spelled, ih h.2⟩
  | message name inner rest ihinner ihrest =>
    simp only [BodyTree.words, List.forall_mem_cons, List.forall_mem_append]
    exact ⟨spelled_name (by decide), spelled_name h.1, spelled_mark (by decide), ihinner h.2.1,
      ihrest h.2.2⟩
  | skip s rest ih =>
    simp only [BodyTree.words, List.forall_mem_append]
    exact ⟨h.1.spelled_words (by decide), ih h.2⟩

theorem MethodTree.Plain.spelled {m : MethodTree} (h : m.Plain) : ∀ w ∈ m.words, Spelled w := by
  cases m with
  | method m ending =>
    obtain ⟨hname, hrequest, hresponse, hending⟩ := h
    have hend : ∀ w ∈ ending.words, Spelled w := by
      cases ending with
      | semicolon =>
        simp only [MethodEnd.words, List.forall_mem_singleton]
        exact spelled_mark (by decide)
      | braces statements =>
        simp only [MethodEnd.words, List.forall_mem_cons, List.forall_mem_append,
          List.forall_mem_flatMap]
        exact ⟨spelled_mark (by decide), fun s hs => (hending s hs).spelled_words (by decide),
          spelled_mark (by decide), by simp⟩
    simp only [MethodTree.words, List.forall_mem_append, List.forall_mem_cons]
    exact ⟨⟨spelled_name (by decide), spelled_name hname, spelled_mark (by decide),
      spelled_reference hrequest.1, spelled_mark (by decide), spelled_name (by decide),
      spelled_mark (by decide), spelled_reference hresponse.1, spelled_mark (by decide), by simp⟩,
      hend⟩
  | skip s => exact h.spelled_words (by decide)

theorem ServiceTree.Plain.spelled {s : ServiceTree} (h : s.Plain) : ∀ w ∈ s.words, Spelled w := by
  simp only [ServiceTree.words, List.forall_mem_cons, List.forall_mem_append,
    List.forall_mem_flatMap]
  exact ⟨spelled_name (by decide), spelled_name h.name, spelled_mark (by decide),
    fun m hm => (h.methods m hm).spelled, spelled_mark (by decide), by simp⟩

/-- Plain entries are written in words that are spelled as tokens. -/
theorem Entry.Plain.spelled {e : Entry} (h : e.Plain) : ∀ w ∈ e.words, Spelled w := by
  cases e with
  | version value =>
    simp only [Entry.words, List.forall_mem_cons]
    exact ⟨spelled_name (by decide), spelled_mark (by decide), h, spelled_mark (by decide), by simp⟩
  | package name =>
    simp only [Entry.words, List.forall_mem_cons]
    exact ⟨spelled_name (by decide), spelled_reference (.inl h), spelled_mark (by decide), by simp⟩
  | message name body =>
    simp only [Entry.words, List.forall_mem_cons]
    exact ⟨spelled_name (by decide), spelled_name h.1, spelled_mark (by decide), h.2.spelled⟩
  | enum e => exact EnumTree.Plain.spelled h
  | service s => exact ServiceTree.Plain.spelled h
  | skip s => exact Statement.Plain.spelled_words h (by decide)

end FeltRelay.Schema.Definitions
