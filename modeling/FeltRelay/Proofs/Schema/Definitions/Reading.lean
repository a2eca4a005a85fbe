import FeltRelay.Schema.Definitions.Grammar

/-!
# Readings of tokens

The grammar of definitions as relations between tokens, what they declare and what is skipped among
them. Where a construct is refused that has a reading of its kind, the relations do not repeat the
refusal.
-/

namespace FeltRelay.Schema.Definitions

/-! ### What is skipped -/

/-- How a token changes the number of open brackets. -/
def Token.turn (t : Token) : Int :=
  if t.text = "[" ∨ t.text = "\x7b" ∨ t.text = "(" then 1
  else if t.text = "]" ∨ t.text = "\x7d" ∨ t.text = ")" then -1
  else 0

/-- The rest of a statement, up to the first semicolon where no more brackets were opened than
closed. -/
inductive Skips : Int → List Token → Prop
  | stop {depth : Int} {t : Token} (hend : t.text = ";") (hdepth : depth ≤ 0) : Skips depth [t]
  | pass {depth : Int} {t : Token} {us : List Token} (hgo : ¬(t.text = ";" ∧ depth ≤ 0))
      (rest : Skips (depth + t.turn) us) : Skips depth (t :: us)

theorem Skips.length_pos {depth : Int} {us : List Token} (h : Skips depth us) : 0 < us.length := by
  cases h <;> exact Nat.succ_pos _

/-- The rest of the options of a field, with some square brackets open. -/
inductive ClosesSquare : Nat → List Token → Prop
  | done : ClosesSquare 0 []
  | opened {depth : Nat} {t : Token} {us : List Token} (h : t.text = "[")
      (rest : ClosesSquare (depth + 2) us) : ClosesSquare (depth + 1) (t :: us)
  | closed {depth : Nat} {t : Token} {us : List Token} (h : t.text = "]")
      (rest : ClosesSquare depth us) : ClosesSquare (depth + 1) (t :: us)
  | pass {depth : Nat} {t : Token} {us : List Token} (hopen : t.text ≠ "[") (hclose : t.text ≠ "]")
      (rest : ClosesSquare (depth + 1) us) : ClosesSquare (depth + 1) (t :: us)

theorem ClosesSquare.exists_end {depth : Nat} {us : List Token} (h : ClosesSquare (depth + 1) us) :
    ∃ vs closing, us = vs ++ [closing] ∧ closing.text = "]" := by
  generalize hn : depth + 1 = n at h
  induction h generalizing depth with
  | done => cases hn
  | @opened m t us ht rest ih =>
    obtain ⟨vs, closing, rfl, hclose⟩ := ih rfl
    exact ⟨t :: vs, closing, rfl, hclose⟩
  | @closed m t us ht rest ih =>
    cases m with
    | zero =>
      cases rest
      exact ⟨[], t, rfl, ht⟩
    | succ m =>
      obtain ⟨vs, closing, rfl, hclose⟩ := ih rfl
      exact ⟨t :: vs, closing, rfl, hclose⟩
  | @pass m t us hopen hclose rest ih =>
    obtain ⟨vs, closing, rfl, hclose⟩ := ih rfl
    exact ⟨t :: vs, closing, rfl, hclose⟩

/-- A skipped statement, or what is skipped between the brackets around the options of a field. The
scope is the one that it stands in, if that is the top level or the body of a message. -/
structure Skipped where
  scope : Option (List String)
  tokens : List Token

inductive IsOptions : List Token → List Skipped → Prop
  | absent : IsOptions [] []
  | present {opening closing : Token} {us : List Token} (hopen : opening.text = "[")
      (hus : ClosesSquare 1 (us ++ [closing])) (hclose : closing.text = "]") :
      IsOptions (opening :: (us ++ [closing])) [⟨none, us⟩]

/-! ### Fields and values -/

/-- The number of a field or a value, with the options that may follow it. -/
inductive IsNumbered : List Token → Int → List Skipped → Prop
  | mk {equals number semicolon : Token} {us : List Token} {skips : List Skipped}
      (hequals : equals.text = "=") (hnumber : number.kind = .number)
      (hoptions : IsOptions us skips) (hend : semicolon.text = ";") :
      IsNumbered (equals :: number :: (us ++ [semicolon])) number.value skips

/-- The type of a field, perhaps with a label in front. -/
inductive IsHead : List Token → Option Label → Token → Prop
  | plain {t : Token} (hname : t.kind = .name) (hlabel : Label.ofWord? t.text = none) :
      IsHead [t] none t
  | labelled {t type : Token} {label : Label} (hlabel : Label.ofWord? t.text = some label)
      (hname : type.kind = .name) : IsHead [t, type] (some label) type

inductive IsField : List Token → FieldDecl → List Skipped → Prop
  | mk {us vs : List Token} {label : Option Label} {type name : Token} {number : Int}
      {skips : List Skipped} (hhead : IsHead us label type) (hname : name.kind = .name)
      (hnumber : IsNumbered vs number skips) :
      IsField (us ++ name :: vs) ⟨name.text, label, type.text, number, name.position⟩ skips

/-- The values of an enumeration, up to its closing brace. -/
inductive IsValues : List Token → List (String × Int) → List Skipped → Prop
  | close {t : Token} (hclose : t.text = "\x7d") : IsValues [t] [] []
  | skip {t : Token} {us vs : List Token} {values : List (String × Int)} {skips : List Skipped}
      (hword : t.text = "option" ∨ t.text = "reserved") (hskip : Skips 0 us)
      (rest : IsValues vs values skips) :
      IsValues (t :: (us ++ vs)) values (⟨none, t :: us⟩ :: skips)
  | empty {t : Token} {vs : List Token} {values : List (String × Int)} {skips : List Skipped}
      (hempty : t.text = ";") (rest : IsValues vs values skips) : IsValues (t :: vs) values skips
  | value {t : Token} {number : Int} {us vs : List Token} {values : List (String × Int)}
      {skips skips' : List Skipped} (hname : t.kind = .name) (hnumber : IsNumbered us number skips)
      (rest : IsValues vs values skips') :
      IsValues (t :: (us ++ vs)) ((t.text, number) :: values) (skips ++ skips')

/-- An enumeration without its keyword. -/
inductive IsEnum (scope : List String) : List Token → EnumDecl → List Skipped → Prop
  | mk {name opening : Token} {us : List Token} {values : List (String × Int)}
      {skips : List Skipped} (hname : name.kind = .name) (hopen : opening.text = "\x7b")
      (hvalues : IsValues us values skips) :
      IsEnum scope (name :: opening :: us) ⟨scope, name.text, values⟩ skips

/-! ### Messages -/

/-- The words that begin something else than a field in the body of a message. -/
def bodyWords : List String :=
  ["message", "enum", "option", "reserved", "extensions", "oneof", "map"]

/-- A message nested in a body, before the rest of it. -/
def Body.nest (body : Body) (scope : List String) (inner : Body) : Body :=
  { body with
    messages := ⟨scope, inner.fields⟩ :: inner.messages ++ body.messages
    enums := inner.enums ++ body.enums }

/-- The body of a message, up to its closing brace. -/
inductive IsBody : List String → List Token → Body → List Skipped → Prop
  | close {scope : List String} {t : Token} (hclose : t.text = "\x7d") : IsBody scope [t] {} []
  | message {scope : List String} {t name opening : Token} {us vs : List Token} {inner body : Body}
      {skips skips' : List Skipped} (hword : t.text = "message") (hname : name.kind = .name)
      (hopen : opening.text = "\x7b") (hinner : IsBody (scope ++ [name.text]) us inner skips)
      (rest : IsBody scope vs body skips') :
      IsBody scope (t :: name :: opening :: (us ++ vs)) (body.nest (scope ++ [name.text]) inner)
        (skips ++ skips')
  | enum {scope : List String} {t : Token} {us vs : List Token} {e : EnumDecl} {body : Body}
      {skips skips' : List Skipped} (hword : t.text = "enum") (henum : IsEnum scope us e skips)
      (rest : IsBody scope vs body skips') :
      IsBody scope (t :: (us ++ vs)) { body with enums := e :: body.enums } (skips ++ skips')
  | skip {scope : List String} {t : Token} {us vs : List Token} {body : Body}
      {skips : List Skipped}
      (hword : t.text = "option" ∨ t.text = "reserved" ∨ t.text = "extensions")
      (hskip : Skips 0 us) (rest : IsBody scope vs body skips) :
      IsBody scope (t :: (us ++ vs)) body (⟨some scope, t :: us⟩ :: skips)
  | empty {scope : List String} {t : Token} {vs : List Token} {body : Body}
      {skips : List Skipped} (hempty : t.text = ";") (rest : IsBody scope vs body skips) :
      IsBody scope (t :: vs) body skips
  | field {scope : List String} {t : Token} {us vs : List Token} {f : FieldDecl} {body : Body}
      {skips skips' : List Skipped} (hword : t.text ∉ bodyWords)
      (hfield : IsField (t :: us) f skips) (rest : IsBody scope vs body skips') :
      IsBody scope (t :: (us ++ vs)) { body with fields := f :: body.fields } (skips ++ skips')

/-! ### Services -/

/-- A message type between parentheses. -/
inductive IsMethodType : List Token → String → Prop
  | mk {opening t closing : Token} (hopen : opening.text = "(") (hname : t.kind = .name)
      (hclose : closing.text = ")") : IsMethodType [opening, t, closing] t.text

/-- The statements between the braces after a method, up to the closing one. -/
inductive IsStatements : List Token → List Skipped → Prop
  | close {t : Token} (hclose : t.text = "\x7d") : IsStatements [t] []
  | skip {us vs : List Token} {skips : List Skipped} (hskip : Skips 0 us)
      (rest : IsStatements vs skips) : IsStatements (us ++ vs) (⟨none, us⟩ :: skips)

inductive IsMethodEnd : List Token → List Skipped → Prop
  | semicolon {t : Token} (hend : t.text = ";") : IsMethodEnd [t] []
  | braces {t : Token} {us : List Token} {skips : List Skipped} (hopen : t.text = "\x7b")
      (hstatements : IsStatements us skips) : IsMethodEnd (t :: us) skips

/-- A method without its keyword. -/
inductive IsMethod : List Token → MethodDecl → List Skipped → Prop
  | mk {name returns : Token} {us vs ws : List Token} {request response : String}
      {skips : List Skipped} (hname : name.kind = .name) (hrequest : IsMethodType us request)
      (hreturns : returns.text = "returns") (hresponse : IsMethodType vs response)
      (hend : IsMethodEnd ws skips) :
      IsMethod (name :: (us ++ returns :: (vs ++ ws))) ⟨name.text, request, response⟩ skips

/-- The methods of a service, up to its closing brace. -/
inductive IsMethods : List Token → List MethodDecl → List Skipped → Prop
  | close {t : Token} (hclose : t.text = "\x7d") : IsMethods [t] [] []
  | skip {t : Token} {us vs : List Token} {methods : List MethodDecl} {skips : List Skipped}
      (hword : t.text = "option") (hskip : Skips 0 us) (rest : IsMethods vs methods skips) :
      IsMethods (t :: (us ++ vs)) methods (⟨none, t :: us⟩ :: skips)
  | empty {t : Token} {vs : List Token} {methods : List MethodDecl} {skips : List Skipped}
      (hempty : t.text = ";") (rest : IsMethods vs methods skips) :
      IsMethods (t :: vs) methods skips
  | method {t : Token} {us vs : List Token} {m : MethodDecl} {methods : List MethodDecl}
      {skips skips' : List Skipped} (hword : t.text = "rpc") (hmethod : IsMethod us m skips)
      (rest : IsMethods vs methods skips') :
      IsMethods (t :: (us ++ vs)) (m :: methods) (skips ++ skips')

/-- A service without its keyword. -/
inductive IsService : List Token → ServiceDecl → List Skipped → Prop
  | mk {name opening : Token} {us : List Token} {methods : List MethodDecl} {skips : List Skipped}
      (hname : name.kind = .name) (hopen : opening.text = "\x7b")
      (hmethods : IsMethods us methods skips) :
      IsService (name :: opening :: us) ⟨name.text, methods⟩ skips

/-! ### Files -/

/-- A message at top level, behind other declarations. -/
def Declarations.withMessage (d : Declarations) (name : String) (body : Body) : Declarations :=
  { d with
    messages := d.messages ++ ⟨[name], body.fields⟩ :: body.messages
    enums := d.enums ++ body.enums }

/-- The tokens at top level, behind others that declare something, and all that is declared then. -/
inductive IsFile : Declarations → List Token → Declarations → List Skipped → Prop
  | nil {d : Declarations} : IsFile d [] d []
  | version {acc d : Declarations} {t equals name semicolon : Token} {vs : List Token}
      {skips : List Skipped} (hword : t.text = "syntax") (hequals : equals.text = "=")
      (hname : name.kind = .string) (hend : semicolon.text = ";") (rest : IsFile acc vs d skips) :
      IsFile acc (t :: equals :: name :: semicolon :: vs) d skips
  | package {acc d : Declarations} {t name semicolon : Token} {vs : List Token}
      {skips : List Skipped} (hword : t.text = "package") (hname : name.kind = .name)
      (hend : semicolon.text = ";")
      (rest : IsFile
        { acc with package := some (String.ofList (name.text.toList.dropWhile (· = '.'))) }
        vs d skips) :
      IsFile acc (t :: name :: semicolon :: vs) d skips
  | skip {acc d : Declarations} {t : Token} {us vs : List Token} {skips : List Skipped}
      (hword : t.text = "import" ∨ t.text = "option") (hskip : Skips 0 us)
      (rest : IsFile acc vs d skips) :
      IsFile acc (t :: (us ++ vs)) d (⟨some [], t :: us⟩ :: skips)
  | message {acc d : Declarations} {t name opening : Token} {us vs : List Token} {body : Body}
      {skips skips' : List Skipped} (hword : t.text = "message") (hname : name.kind = .name)
      (hopen : opening.text = "\x7b") (hbody : IsBody [name.text] us body skips)
      (rest : IsFile (acc.withMessage name.text body) vs d skips') :
      IsFile acc (t :: name :: opening :: (us ++ vs)) d (skips ++ skips')
  | enum {acc d : Declarations} {t : Token} {us vs : List Token} {e : EnumDecl}
      {skips skips' : List Skipped} (hword : t.text = "enum") (henum : IsEnum [] us e skips)
      (rest : IsFile { acc with enums := acc.enums ++ [e] } vs d skips') :
      IsFile acc (t :: (us ++ vs)) d (skips ++ skips')
  | service {acc d : Declarations} {t : Token} {us vs : List Token} {s : ServiceDecl}
      {skips skips' : List Skipped} (hword : t.text = "service") (hservice : IsService us s skips)
      (rest : IsFile { acc with services := acc.services ++ [s] } vs d skips') :
      IsFile acc (t :: (us ++ vs)) d (skips ++ skips')
  | empty {acc d : Declarations} {t : Token} {vs : List Token} {skips : List Skipped}
      (hempty : t.text = ";") (rest : IsFile acc vs d skips) : IsFile acc (t :: vs) d skips

end FeltRelay.Schema.Definitions
