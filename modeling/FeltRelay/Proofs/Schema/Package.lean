import FeltRelay.Proofs.Schema.Containment
import FeltRelay.Proofs.Schema.Definitions
import FeltRelay.Proofs.Schema.Definitions.Moved
import FeltRelay.Proofs.Schema.Definitions.Spelled

/-!
# A package in front of a text

A package statement in front of a text that has none leaves the model as it is, but for the package,
exactly if each reference that begins with the name of the package is found to be the same with that
name taken off (`ofText_package_iff`).
-/

namespace FeltRelay.Schema

namespace Definitions

variable {names names' : Names}

/-! ### Declarations at other places -/

theorem FieldDecl.Moved.symm {f f' : FieldDecl} (h : f.Moved f') : f'.Moved f := by
  obtain ⟨p, rfl⟩ := h
  exact ⟨f.position, rfl⟩

theorem MessageDecl.Moved.symm {x x' : MessageDecl} (h : x.Moved x') : x'.Moved x :=
  ⟨h.scope.symm, (h.fields.imp fun _ _ hf => hf.symm).flip⟩

/-- The same declarations at other places. -/
structure Declarations.Moved (d d' : Declarations) : Prop where
  package : d'.package = d.package
  messages : List.Forall₂ MessageDecl.Moved d.messages d'.messages
  enums : d'.enums = d.enums
  services : d'.services = d.services

theorem Declarations.Moved.symm {d d' : Declarations} (h : d.Moved d') : d'.Moved d :=
  ⟨h.package.symm, (h.messages.imp fun _ _ hx => hx.symm).flip, h.enums.symm, h.services.symm⟩

theorem fieldsOf_of_moved {owner : String} {scope : List String} {seen : List (String × Int)}
    {decls decls' : List FieldDecl} {fields : List Field}
    (hmoved : List.Forall₂ FieldDecl.Moved decls decls')
    (h : fieldsOf names owner scope seen decls = .ok fields) :
    fieldsOf names owner scope seen decls' = .ok fields := by
  induction hmoved generalizing seen fields with
  | nil => exact h
  | @cons d d' decls decls' hd _ ih =>
    obtain ⟨p, rfl⟩ := hd
    obtain ⟨hfree, f, others, hf, hothers, hfields⟩ := fieldsOf_cons_eq_ok_iff.1 h
    exact fieldsOf_cons_eq_ok_iff.2 ⟨hfree, f, others, hf, ih hothers, hfields⟩

theorem messageOf_of_moved {x x' : MessageDecl} (hmoved : x.Moved x') {spec : Message}
    (h : messageOf names x = .ok spec) : messageOf names x' = .ok spec := by
  have hname : x'.fullName = x.fullName := by rw [MessageDecl.fullName, hmoved.scope]; rfl
  obtain ⟨fields, hfields, hret⟩ := bind_eq_ok_iff.1 h
  unfold messageOf
  rw [hname, hmoved.scope]
  exact bind_eq_ok_iff.2 ⟨fields, fieldsOf_of_moved hmoved.fields hfields, hret⟩

end Definitions

namespace Model

open Definitions

variable {m : Model}

theorem ofDeclarations_of_moved {d d' : Declarations} (hmoved : d.Moved d')
    (h : ofDeclarations d = .ok m) : ofDeclarations d' = .ok m := by
  have hnames : Names.ofDeclarations d' = Names.ofDeclarations d := by
    have hmessages : d.messages.map (fun x => (x.fullName, Declared.message)) =
        d'.messages.map fun x => (x.fullName, Declared.message) := by
      refine map_eq_of_forall₂ (hmoved.messages.imp fun x x' hx => ?_)
      rw [MessageDecl.fullName, MessageDecl.fullName, hx.scope]
    unfold Names.ofDeclarations
    rw [hmessages, hmoved.enums, hmoved.package]
  obtain ⟨names, hd, h⟩ := bind_eq_ok_iff.1 h
  obtain ⟨messages, hmessages, h⟩ := bind_eq_ok_iff.1 h
  have hmessages' : d'.messages.mapM (messageOf names) = .ok messages :=
    mapM_of_related (fun x x' spec (hx : x.Moved x') => messageOf_of_moved hx) hmoved.messages
      hmessages
  unfold ofDeclarations
  rw [hnames, hd, ok_bind, hmessages', ok_bind, hmoved.enums, hmoved.services, hmoved.package]
  exact h

end Model

/-! ### A package statement in front -/

namespace Definitions

theorem forall₂_moved {ts ts' : List Token} (h : ts'.map Token.bare = ts.map Token.bare) :
    List.Forall₂ Token.Moved ts ts' := by
  induction ts generalizing ts' with
  | nil =>
    rw [List.map_eq_nil_iff.1 h]
    exact .nil
  | cons t ts ih =>
    obtain ⟨t', ts', rfl, ht, hts⟩ := List.map_eq_cons_iff.1 h
    obtain ⟨kind, text, p⟩ := t'
    obtain ⟨rfl, rfl⟩ := Prod.mk.inj ht
    exact .cons ⟨p, rfl⟩ (ih hts)

/-- A text in no package declares the same behind a package statement. -/
theorem ofText_packaged {text p : String} {d : Declarations} (h : Declarations.ofText text = .ok d)
    (hnone : d.package = none) (hp : IsDotted p.toList) :
    ∃ d', Declarations.ofText ("package " ++ p ++ ";" ++ text) = .ok d' ∧
      Declarations.Moved { d with package := some p } d' := by
  obtain ⟨ts, hts, hof⟩ := bind_eq_ok_iff.1 h
  have hlist : ("package " ++ p ++ ";" ++ text).toList =
      "package".toList ++ ' ' :: (p.toList ++ (";".toList ++ text.toList)) := by simp
  have hlexes := lexes_package hp (lexes_of_tokensFrom hts (Nat.le_refl _))
  rw [← hlist] at hlexes
  obtain ⟨all, hall, hbare⟩ := exists_of_lexes hlexes (Nat.le_refl _) ⟨1, 1⟩
  obtain ⟨keyword, all, rfl, hkeyword, hbare⟩ := List.map_eq_cons_iff.1 hbare
  obtain ⟨name, all, rfl, hname, hbare⟩ := List.map_eq_cons_iff.1 hbare
  obtain ⟨semicolon, ts', rfl, hsemicolon, hbare⟩ := List.map_eq_cons_iff.1 hbare
  obtain ⟨d', hd', hpackaged⟩ := ofTokens_packaged hof (Prod.mk.inj hkeyword).2
    (Prod.mk.inj hname).1 (Prod.mk.inj hsemicolon).2 (forall₂_moved hbare)
  have hpackage := hpackaged.package hnone
  rw [(Prod.mk.inj hname).2, hp.dropWhile_dot, String.ofList_toList] at hpackage
  exact ⟨d', bind_eq_ok_iff.2 ⟨_, hall, hd'⟩,
    ⟨hpackage, hpackaged.messages, hpackaged.enums, hpackaged.services⟩⟩

end Definitions

/-! ### References -/

namespace Definitions

/-- A reference of a declaration and the scope that it is made in. -/
structure Reference where
  scope : List String
  name : String
deriving DecidableEq, Repr

def MessageDecl.references (d : MessageDecl) : List Reference :=
  d.fields.map fun f => ⟨d.scope, f.typeName⟩

def ServiceDecl.references (d : ServiceDecl) : List Reference :=
  d.methods.flatMap fun e => [⟨[], e.request⟩, ⟨[], e.response⟩]

def Declarations.references (d : Declarations) : List Reference :=
  d.messages.flatMap MessageDecl.references ++ d.services.flatMap ServiceDecl.references

/-- Two tables of names in which a reference stands for the same. -/
def Reference.Kept (names names' : Names) (r : Reference) : Prop :=
  names'.target? r.scope r.name = names.target? r.scope r.name

theorem ServiceDecl.forall_references {d : ServiceDecl} {P : Reference → Prop} :
    (∀ r ∈ d.references, P r) ↔ ∀ e ∈ d.methods, P ⟨[], e.request⟩ ∧ P ⟨[], e.response⟩ := by
  simp only [references, List.mem_flatMap]
  grind

theorem MessageDecl.forall_references {d : MessageDecl} {P : Reference → Prop} :
    (∀ r ∈ d.references, P r) ↔ ∀ f ∈ d.fields, P ⟨d.scope, f.typeName⟩ := by
  simp [references]

theorem Declarations.forall_references {d : Declarations} {P : Reference → Prop} :
    (∀ r ∈ d.references, P r) ↔ (∀ x ∈ d.messages, ∀ r ∈ x.references, P r) ∧
      ∀ s ∈ d.services, ∀ r ∈ s.references, P r := by
  simp only [references, List.mem_append, List.mem_flatMap]
  grind

theorem labelled_injective (label : Option Label) : Function.Injective (labelled label) := by
  intro t u h
  rcases label with _ | _ | _ | _ <;> cases h <;> rfl

variable {names names' : Names}

/-- One message is made of a declaration with two tables only if its references are kept. -/
theorem MessageOf.kept {d : MessageDecl} {spec : Message} (h : MessageOf names d spec)
    (h' : MessageOf names' d spec) : ∀ r ∈ d.references, r.Kept names names' := by
  have hfields : List.Forall₂ (fun e f => Reference.Kept names names' ⟨d.scope, e.typeName⟩ ∧
      FieldOf names d.scope e f) d.fields spec.fields := by
    refine h.fields.mp (fun e f hf hf' => ⟨?_, hf⟩) h'.fields
    obtain ⟨t, ht, rfl⟩ := hf
    obtain ⟨t', ht', heq⟩ := hf'
    unfold Reference.Kept
    rw [ht, ht', labelled_injective e.label (Field.mk.inj heq).2]
  exact MessageDecl.forall_references.2 ((List.forall₂_and_left ..).1 hfields).1

theorem ServiceOf.kept {d : ServiceDecl} {s : Service} (h : ServiceOf names d s)
    (h' : ServiceOf names' d s) : ∀ r ∈ d.references, r.Kept names names' := by
  have hmethods : List.Forall₂ (fun e x => (Reference.Kept names names' ⟨[], e.request⟩ ∧
      Reference.Kept names names' ⟨[], e.response⟩) ∧ MethodOf names e x) d.methods s.methods :=
    h.methods.mp (fun e x hx hx' => ⟨⟨hx'.request.trans hx.request.symm,
      hx'.response.trans hx.response.symm⟩, hx⟩) h'.methods
  exact ServiceDecl.forall_references.2 ((List.forall₂_and_left ..).1 hmethods).1

end Definitions

namespace Model

open Definitions

variable {m : Model}

/-- Declarations without a package make the same model in a package exactly if that keeps their
references. -/
theorem ofDeclarations_package_iff {d : Declarations} {names : Names} (h : ofDeclarations d = .ok m)
    (hnames : Names.ofDeclarations d = .ok names) (p : String) :
    ofDeclarations { d with package := some p } = .ok { m with package := some p } ↔
      ∀ r ∈ d.references, r.Kept names ⟨some p, names.declared⟩ := by
  have hnames' : Names.ofDeclarations { d with package := some p } =
      .ok ⟨some p, names.declared⟩ := by
    obtain ⟨declared, hdeclared, hret⟩ := bind_eq_ok_iff.1 hnames
    cases hret
    exact bind_eq_ok_iff.2 ⟨declared, hdeclared, rfl⟩
  constructor
  · intro h'
    obtain ⟨_, hd, hmade⟩ := madeOf_of_ofDeclarations h
    obtain ⟨_, hd', hmade'⟩ := madeOf_of_ofDeclarations h'
    cases hnames.symm.trans hd
    cases hnames'.symm.trans hd'
    have hxs := hmade.messages.mp (fun x spec hx hx' => And.intro (hx.kept hx') hx) hmade'.messages
    have hss := hmade.services.mp (fun s spec hs hs' => And.intro (hs.kept hs') hs) hmade'.services
    exact Declarations.forall_references.2
      ⟨((List.forall₂_and_left ..).1 hxs).1, ((List.forall₂_and_left ..).1 hss).1⟩
  · intro hkept
    obtain ⟨hxs, hss⟩ := Declarations.forall_references.1 hkept
    obtain ⟨_, hd, h⟩ := bind_eq_ok_iff.1 h
    cases hnames.symm.trans hd
    obtain ⟨messages, hmessages, h⟩ := bind_eq_ok_iff.1 h
    obtain ⟨enums, henums, h⟩ := bind_eq_ok_iff.1 h
    obtain ⟨services, hservices, h⟩ := bind_eq_ok_iff.1 h
    obtain ⟨_, hcontained, hret⟩ := bind_eq_ok_iff.1 h
    cases hret
    have hmessages' : d.messages.mapM (messageOf ⟨some p, names.declared⟩) = .ok messages := by
      refine mapM_of_forall₂ (((List.forall₂_and_left ..).2
        ⟨hxs, forall₂_of_mapM hmessages⟩).imp fun x spec hx => ?_)
      rw [← hx.2, messageOf, messageOf, fieldsOf_congr (MessageDecl.forall_references.1 hx.1)]
    have hservices' : servicesOf ⟨some p, names.declared⟩ [] [] d.services = .ok services := by
      have hdeclared : (Names.mk (some p) names.declared).declared = names.declared := rfl
      rw [servicesOf_congr hdeclared fun s hs => ServiceDecl.forall_references.1 (hss s hs)]
      exact hservices
    -- What contains what does not depend on the package.
    have hacyclic := checkContainment_eq_ok_iff.1 hcontained
    have hcontained' : checkContainment ⟨some p, messages, enums, services⟩ = .ok () :=
      checkContainment_eq_ok_iff.2 hacyclic
    refine bind_eq_ok_iff.2 ⟨_, hnames', bind_eq_ok_iff.2 ⟨messages, hmessages', ?_⟩⟩
    refine bind_eq_ok_iff.2 ⟨enums, henums, bind_eq_ok_iff.2 ⟨services, hservices', ?_⟩⟩
    exact bind_eq_ok_iff.2 ⟨_, hcontained', rfl⟩

end Model

/-! ### References and packages -/

namespace Definitions

/-- A reference without dots in front. -/
def Reference.bare (r : Reference) : String := String.ofList (r.name.toList.dropWhile (· = '.'))

theorem Reference.toList_bare (r : Reference) :
    r.bare.toList = r.name.toList.dropWhile (· = '.') := String.toList_ofList

/-- A name in a package is looked for without the name of the package. -/
theorem localName_package (p : String) (hp : p ≠ "") (declared : List (String × Declared))
    (r : Reference) :
    (∃ rest, r.bare = p ++ "." ++ rest ∧ Names.localName ⟨some p, declared⟩ r.name = rest) ∨
      (∀ rest, r.bare ≠ p ++ "." ++ rest) ∧
        Names.localName ⟨some p, declared⟩ r.name = r.bare := by
  unfold Names.localName
  dsimp only
  rw [← r.toList_bare]
  have hne : (!p.isEmpty) = true := by simpa using hp
  by_cases hlead : (p.toList ++ ['.']).isPrefixOf r.bare.toList = true
  · rw [if_pos (by rw [hne, hlead]; rfl)]
    obtain ⟨rest, hrest⟩ := List.isPrefixOf_iff_prefix.1 hlead
    refine .inl ⟨String.ofList rest, ?_, by rw [← hrest, List.drop_left]⟩
    rw [← String.toList_inj, ← hrest]
    simp
  · rw [if_neg (by simp [hlead])]
    refine .inr ⟨fun rest heq => hlead ?_, String.ofList_toList⟩
    rw [heq, List.isPrefixOf_iff_prefix]
    exact ⟨rest.toList, by simp⟩

theorem not_mem_scalarSpelling {reference : String} {s : Scalar}
    (h : scalarSpellings.lookup reference = some s) : '.' ∉ reference.toList := by
  have hdots : ∀ e ∈ scalarSpellings, '.' ∉ e.1.toList := by decide +kernel
  exact hdots _ (Entries.mem_of_lookup h)

/-- A package keeps a reference if it does not begin with the name of the package, or if it is found
to be the same without it. -/
theorem kept_package_iff {names : Names} (hnone : names.package = none) {p : String} (hp : p ≠ "")
    {r : Reference} :
    r.Kept names ⟨some p, names.declared⟩ ↔ ∀ rest, r.bare = p ++ "." ++ rest →
      names.find? r.scope rest = names.find? r.scope (p ++ "." ++ rest) := by
  have hlocal : names.localName r.name = r.bare := by
    unfold Names.localName
    rw [hnone]
    rfl
  have hfind : ∀ name, Names.find? ⟨some p, names.declared⟩ r.scope name =
      names.find? r.scope name := fun _ => rfl
  unfold Reference.Kept Names.target?
  cases hscalar : scalarSpellings.lookup r.name with
  | some s =>
    -- The spellings of scalars have no dots.
    refine iff_of_true rfl fun rest hrest => absurd ?_ (not_mem_scalarSpelling hscalar)
    have hdot : '.' ∈ r.bare.toList := by
      rw [hrest]
      simp
    rw [r.toList_bare] at hdot
    exact (List.dropWhile_suffix _).subset hdot
  | none =>
    dsimp only
    rw [hlocal, hfind, (Option.map_injective Declared.ty_injective).eq_iff]
    rcases localName_package p hp names.declared r with ⟨rest, hbare, heq⟩ | ⟨hfree, heq⟩
    · rw [heq, hbare]
      refine ⟨fun h rest' hrest' => ?_, fun h => h rest rfl⟩
      have hrest : rest = rest' := by
        rw [← String.toList_inj]
        simpa [← String.toList_inj] using hrest'
      rw [← hrest, h]
    · rw [heq]
      exact iff_of_true rfl fun rest hrest => absurd hrest (hfree rest)

end Definitions

namespace Model

open Definitions

variable {m : Model}

/-- A package statement in front of a text leaves the model as it is, but for the package, exactly
if each reference that begins with the name of the package is found to be the same without it. -/
theorem ofText_package_iff {text : String} (h : ofText text = .ok m) (hnone : m.package = none)
    {p : String} (hp : IsDotted p.toList) :
    ∃ d names, Declarations.ofText text = .ok d ∧ Names.ofDeclarations d = .ok names ∧
      (ofText ("package " ++ p ++ ";" ++ text) = .ok { m with package := some p } ↔
        ∀ r ∈ d.references, ∀ rest, r.bare = p ++ "." ++ rest →
          names.find? r.scope rest = names.find? r.scope (p ++ "." ++ rest)) := by
  obtain ⟨d, hd, hm⟩ := bind_eq_ok_iff.1 h
  obtain ⟨names, hnames, -⟩ := bind_eq_ok_iff.1 hm
  refine ⟨d, names, hd, hnames, ?_⟩
  have hpackage : d.package = none := by rw [← package_of_ofDeclarations hm, hnone]
  have hne : p ≠ "" := by
    rintro rfl
    obtain ⟨c, rest, hnil, -⟩ := hp.exists_start
    cases hnil
  obtain ⟨d', hd', hmoved⟩ := ofText_packaged hd hpackage hp
  have hmade : ofText ("package " ++ p ++ ";" ++ text) = .ok { m with package := some p } ↔
      ofDeclarations { d with package := some p } = .ok { m with package := some p } := by
    unfold ofText
    rw [hd', ok_bind]
    exact ⟨ofDeclarations_of_moved hmoved.symm, ofDeclarations_of_moved hmoved⟩
  have hnames' : names.package = none := by
    obtain ⟨_, -, hret⟩ := bind_eq_ok_iff.1 hnames
    cases hret
    exact hpackage
  rw [hmade, ofDeclarations_package_iff hm hnames]
  exact forall₂_congr fun r _ => kept_package_iff hnames' hne

/-- A message within one that a package may be named after. -/
def nestedText : String :=
  "message demo \x7b message X \x7b u8 a = 1; \x7d \x7d message B \x7b demo.X x = 1; \x7d"

/-- The model of `nestedText`. -/
def nested : Model where
  package := none
  messages := [⟨"demo", []⟩, ⟨"demoX", [⟨"a", .scalar (.unsigned .w8)⟩]⟩,
    ⟨"B", [⟨"x", .message "demoX"⟩]⟩]
  enums := []
  services := []

theorem ofText_nestedText : ofText nestedText = .ok nested := by
  rw [ofText, Declarations.ofText, tokenize, nestedText, String.toList_ofList]
  exact eq_ok_of_toOption (by decide +kernel)

theorem package_nested_other :
    ofText ("package " ++ "other" ++ ";" ++ nestedText) =
      .ok { nested with package := some "other" } := by
  have hother : IsDotted "other".toList :=
    .word ⟨'o', "ther".toList, rfl, by decide, List.all_eq_true.1 (by decide)⟩
  obtain ⟨d, names, hd, -, hiff⟩ := ofText_package_iff ofText_nestedText rfl hother
  have hreferences : (Declarations.ofText nestedText).toOption.map Declarations.references =
      some [⟨["demo", "X"], "u8"⟩, ⟨["B"], "demo.X"⟩] := by
    rw [Declarations.ofText, tokenize, nestedText, String.toList_ofList]
    decide +kernel
  rw [hd] at hreferences
  have hall : ∀ r ∈ [(⟨["demo", "X"], "u8"⟩ : Reference), ⟨["B"], "demo.X"⟩],
      ¬"other.".toList <+: r.bare.toList := by decide +kernel
  refine hiff.2 fun r hr rest hrest => absurd ?_ (hall r (Option.some.inj hreferences ▸ hr))
  rw [hrest]
  exact ⟨rest.toList, by simp⟩

/-- Behind a package statement a reference into a message with the name of the package is refused,
or stands for another message that happens to have the rest of its name. -/
theorem package_nested_demo : ofText nestedText = .ok nested ∧
    (∃ e, ofText ("package " ++ "demo" ++ ";" ++ nestedText) = .error e ∧
      e.kind = .unknownReference) ∧
    ofText (nestedText ++ "message X \x7b u16 z = 1; \x7d") =
      .ok { nested with
        messages := nested.messages ++ [⟨"X", [⟨"z", .scalar (.unsigned .w16)⟩]⟩] } ∧
    ofText ("package " ++ "demo" ++ ";" ++ (nestedText ++ "message X \x7b u16 z = 1; \x7d")) =
      .ok {
        package := some "demo"
        messages := [⟨"demo", []⟩, ⟨"demoX", [⟨"a", .scalar (.unsigned .w8)⟩]⟩,
          ⟨"B", [⟨"x", .message "X"⟩]⟩, ⟨"X", [⟨"z", .scalar (.unsigned .w16)⟩]⟩]
        enums := []
        services := [] } := by
  have hrefused : ∃ e, ofText ("package " ++ "demo" ++ ";" ++ nestedText) = .error e ∧
      decide (e.kind = .unknownReference) = true := by
    rw [ofText, Declarations.ofText, tokenize, nestedText, String.toList_append,
      String.toList_append, String.toList_append, String.toList_ofList, String.toList_ofList,
      String.toList_ofList, String.toList_ofList]
    exact exists_error_of_test (by decide +kernel)
  refine ⟨ofText_nestedText, hrefused.imp fun e he => ⟨he.1, of_decide_eq_true he.2⟩, ?_, ?_⟩
  · rw [ofText, Declarations.ofText, tokenize, nestedText, String.toList_append,
      String.toList_ofList, String.toList_ofList]
    exact eq_ok_of_toOption (by decide +kernel)
  · rw [ofText, Declarations.ofText, tokenize, nestedText, String.toList_append,
      String.toList_append, String.toList_append, String.toList_append, String.toList_ofList,
      String.toList_ofList, String.toList_ofList, String.toList_ofList, String.toList_ofList]
    exact eq_ok_of_toOption (by decide +kernel)

end Model

end FeltRelay.Schema
