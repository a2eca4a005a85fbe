import FeltRelay.Proofs.Schema.Definitions.Taken
import Mathlib.Data.List.Forall2

/-!
# Tokens at other places

What tokens declare does not depend on where they stand, but for the places that fields remember. So
tokens that are accepted are accepted behind a package statement too (`ofTokens_packaged`).
-/

namespace FeltRelay.Schema.Definitions

/-- A token at another place. -/
def Token.Moved (t t' : Token) : Prop := ∃ p, t' = { t with position := p }

/-- The same tokens at other places. -/
def Cursor.Moved (c c' : Cursor) : Prop := List.Forall₂ Token.Moved c.rest c'.rest

variable {α β : Type}

/-- What a part of the grammar accepts, another one accepts at other places, with a result that is
related. -/
def Follows (r r' : Reader α) (R : α → α → Prop) : Prop :=
  ∀ c c' a c₁, c.Moved c' → r.run c = .ok (a, c₁) →
    ∃ a' c₁', r'.run c' = .ok (a', c₁') ∧ R a a' ∧ c₁.Moved c₁'

namespace Follows

variable {P : α → α → Prop} {R : β → β → Prop} {x x' : Reader α} {f f' : α → Reader β}

theorem pure {b b' : β} (h : R b b') : Follows (Pure.pure b) (Pure.pure b') R := by
  intro c c' a c₁ hc hrun
  cases hrun
  exact ⟨b', c', rfl, h, hc⟩

theorem throw (failure : Failure) (r' : Reader β) : Follows (throw failure) r' R := by
  intro c c' b c₁ hc hrun
  cases hrun

theorem step (hx : Follows x x' P) (hf : ∀ a a', P a a' → Follows (f a) (f' a') R) :
    Follows (x >>= f) (x' >>= f') R := by
  intro c c' b c₂ hc hrun
  obtain ⟨a, c₁, ha, hb⟩ := run_bind_eq_ok_iff.1 hrun
  obtain ⟨a', c₁', ha', hp, hc₁⟩ := hx c c' a c₁ hc ha
  obtain ⟨b', c₂', hb', hr, hc₂⟩ := hf a a' hp c₁ c₁' b c₂ hc₁ hb
  exact ⟨b', c₂', run_bind_eq_ok_iff.2 ⟨a', c₁', ha', hb'⟩, hr, hc₂⟩

theorem bind (hx : Follows x x' (· = ·)) (hf : ∀ a, Follows (f a) (f' a) R) :
    Follows (x >>= f) (x' >>= f') R :=
  hx.step fun a _ heq => heq ▸ hf a

theorem ite {c : Prop} [Decidable c] {y y' z z' : Reader β} (hy : c → Follows y y' R)
    (hz : ¬c → Follows z z' R) : Follows (if c then y else z) (if c then y' else z') R := by
  split
  · exact hy ‹_›
  · exact hz ‹_›

theorem check {c : Prop} [Decidable c] {failure failure' : Failure} {k k' : PUnit → Reader β}
    (h : Follows (k ⟨⟩) (k' ⟨⟩) R) :
    Follows (if c then MonadExcept.throw failure >>= k else k ⟨⟩)
      (if c then MonadExcept.throw failure' >>= k' else k' ⟨⟩) R := by
  refine .ite (fun _ => ?_) fun _ => h
  intro c c' b c₁ hc hrun
  cases hrun

theorem next : Follows Definitions.next Definitions.next Token.Moved := by
  intro c c' t c₁ hc hrun
  obtain ⟨rest, last⟩ := c
  obtain ⟨rest', last'⟩ := c'
  cases hc with
  | nil => cases hrun
  | cons ht hrest =>
    cases hrun
    exact ⟨_, _, rfl, ht, hrest⟩

theorem remaining : Follows Definitions.remaining Definitions.remaining (· = ·) := by
  intro c c' n c₁ hc hrun
  cases hrun
  exact ⟨_, _, rfl, List.Forall₂.length_eq hc, hc⟩

theorem peek? : Follows Definitions.peek? Definitions.peek? (Option.Rel Token.Moved) := by
  intro c c' t c₁ hc hrun
  obtain ⟨rest, last⟩ := c
  obtain ⟨rest', last'⟩ := c'
  cases hrun
  refine ⟨_, _, rfl, ?_, hc⟩
  cases hc with
  | nil => exact .none
  | cons ht _ => exact .some ht

theorem accept (text : String) :
    Follows (Definitions.accept text) (Definitions.accept text) (· = ·) := by
  intro c c' found c₁ hc hrun
  obtain ⟨rest, last⟩ := c
  obtain ⟨rest', last'⟩ := c'
  cases hc with
  | nil =>
    cases hrun
    exact ⟨_, _, rfl, rfl, .nil⟩
  | @cons t t' rest rest' ht hrest =>
    obtain ⟨p, rfl⟩ := ht
    rw [run_accept_cons] at hrun ⊢
    split at hrun
    · rename_i htext
      cases hrun
      rw [if_pos htext]
      exact ⟨_, _, rfl, rfl, hrest⟩
    · rename_i htext
      cases hrun
      rw [if_neg htext]
      exact ⟨_, _, rfl, rfl, .cons ⟨p, rfl⟩ hrest⟩

theorem word (text : String) : Follows (word text) (word text) (· = ·) := by
  refine next.step ?_
  rintro t _ ⟨p, rfl⟩
  exact .ite (fun _ => .throw _ _) fun _ => .pure rfl

theorem ofKind (kind : TokenKind) : Follows (ofKind kind) (ofKind kind) Token.Moved := by
  refine next.step ?_
  rintro t _ ⟨p, rfl⟩
  exact .check (.pure ⟨p, rfl⟩)

/-! ### What is skipped -/

theorem skipFrom (fuel : Nat) (depth : Int) :
    Follows (skipFrom fuel depth) (skipFrom fuel depth) (· = ·) := by
  induction fuel generalizing depth with
  | zero => exact .pure rfl
  | succ fuel ih =>
    refine next.step ?_
    rintro t _ ⟨p, rfl⟩
    exact .ite (fun _ => ih _) fun _ => .ite (fun _ => ih _) fun _ =>
      .ite (fun _ => .pure rfl) fun _ => ih _

theorem skipStatement : Follows skipStatement skipStatement (· = ·) :=
  remaining.bind fun _ => skipFrom _ _

theorem skipOptionsFrom (fuel depth : Nat) :
    Follows (skipOptionsFrom fuel depth) (skipOptionsFrom fuel depth) (· = ·) := by
  induction fuel generalizing depth with
  | zero => exact .pure rfl
  | succ fuel ih =>
    cases depth with
    | zero => exact .pure rfl
    | succ depth =>
      refine next.step ?_
      rintro t _ ⟨p, rfl⟩
      exact .ite (fun _ => ih _) fun _ => .ite (fun _ => ih _) fun _ => ih _

theorem skipOptions : Follows skipOptions skipOptions (· = ·) :=
  (accept _).bind fun _ => .ite (fun _ => remaining.bind fun _ => skipOptionsFrom _ _)
    fun _ => .pure rfl

theorem skipStatements (fuel : Nat) :
    Follows (skipStatements fuel) (skipStatements fuel) (· = ·) := by
  induction fuel with
  | zero => exact .pure rfl
  | succ fuel ih =>
    exact (accept _).bind fun _ => .ite (fun _ => .pure rfl) fun _ => skipStatement.bind fun _ => ih

end Follows

/-! ### Declarations -/

/-- A field whose name stands at another place. -/
def FieldDecl.Moved (f f' : FieldDecl) : Prop := ∃ p, f' = { f with position := p }

structure MessageDecl.Moved (x x' : MessageDecl) : Prop where
  scope : x'.scope = x.scope
  fields : List.Forall₂ FieldDecl.Moved x.fields x'.fields

structure Body.Moved (b b' : Body) : Prop where
  fields : List.Forall₂ FieldDecl.Moved b.fields b'.fields
  messages : List.Forall₂ MessageDecl.Moved b.messages b'.messages
  enums : b'.enums = b.enums

namespace Follows

variable {R : β → β → Prop}

/-- What follows a number may use the number, but not where it stands. -/
theorem numbered {g g' : Token → Reader β}
    (hg : ∀ number p, Follows (g number) (g' { number with position := p }) R) :
    Follows (do
      Definitions.word "="
      let number ← Definitions.ofKind .number
      Definitions.skipOptions
      Definitions.word ";"
      g number) (do
      Definitions.word "="
      let number ← Definitions.ofKind .number
      Definitions.skipOptions
      Definitions.word ";"
      g' number) R := by
  refine (word _).bind fun _ => (ofKind _).step ?_
  rintro number _ ⟨p, rfl⟩
  exact skipOptions.bind fun _ => (word _).bind fun _ => hg number p

theorem field (owner : String) (first : Token) (p : Position) :
    Follows (field owner first) (field owner { first with position := p }) FieldDecl.Moved := by
  have htail : ∀ label (type : Token) p, Follows (fieldBehind owner label type)
      (fieldBehind owner label { type with position := p }) FieldDecl.Moved := by
    intro label type p
    refine .ite (fun _ => ?_) fun _ => ?_
    · intro c c' f c₁ hc hrun
      cases hrun
    · refine (ofKind _).step ?_
      rintro name _ ⟨q, rfl⟩
      exact numbered fun number p => .pure ⟨q, rfl⟩
  rw [field_eq, field_eq]
  refine .ite (fun _ => (ofKind _).step ?_) fun _ => htail _ first p
  rintro type _ ⟨q, rfl⟩
  exact htail _ type q

theorem enumValues (owner : String) (fuel : Nat) :
    Follows (enumValues owner fuel) (enumValues owner fuel) (· = ·) := by
  induction fuel with
  | zero => exact .pure rfl
  | succ fuel ih =>
    refine (accept _).bind fun _ => .ite (fun _ => .pure rfl) fun _ => next.step ?_
    rintro t _ ⟨p, rfl⟩
    refine .ite (fun _ => skipStatement.bind fun _ => ih) fun _ => .ite (fun _ => ih) fun _ =>
      .ite (fun _ => .throw _ _) fun _ => ?_
    exact numbered fun number p => ih.bind fun _ => .pure rfl

theorem enum (scope : List String) : Follows (enum scope) (enum scope) (· = ·) := by
  refine (ofKind _).step ?_
  rintro name _ ⟨p, rfl⟩
  refine (word _).bind fun _ => remaining.bind fun _ => (enumValues _ _).bind fun _ => .pure rfl

theorem messageName : Follows messageName messageName (· = ·) := by
  refine (ofKind _).step ?_
  rintro name _ ⟨p, rfl⟩
  exact .check ((word _).bind fun _ => .pure rfl)

theorem messageBody (fuel : Nat) (scope : List String) :
    Follows (messageBody fuel scope) (messageBody fuel scope) Body.Moved := by
  induction fuel generalizing scope with
  | zero => exact .pure ⟨.nil, .nil, rfl⟩
  | succ fuel ih =>
    refine (accept _).bind fun _ => .ite (fun _ => .pure ⟨.nil, .nil, rfl⟩) fun _ => next.step ?_
    rintro t _ ⟨p, rfl⟩
    refine .ite (fun _ => ?_) fun _ => .ite (fun _ => ?_) fun _ =>
      .ite (fun _ => skipStatement.bind fun _ => ih _) fun _ => .ite (fun _ => ih _) fun _ =>
      .ite (fun _ => ?_) fun _ => .ite (fun _ => ?_) fun _ => .ite (fun _ => ?_) fun _ =>
      .throw _ _
    · refine messageName.bind fun name => (ih _).step fun inner inner' hinner =>
        (ih _).step fun body body' hbody => .pure ⟨hbody.fields, ?_, ?_⟩
      · exact .cons ⟨rfl, hinner.fields⟩ (List.rel_append hinner.messages hbody.messages)
      · exact congrArg₂ (· ++ ·) hinner.enums hbody.enums
    · refine (enum _).bind fun e => (ih _).step fun body body' hbody =>
        .pure ⟨hbody.fields, hbody.messages, congrArg (e :: ·) hbody.enums⟩
    · exact (ofKind _).step fun _ _ _ => .throw _ _
    · refine (word _).bind fun _ => (ofKind _).step fun _ _ _ => (word _).bind fun _ => ?_
      refine (ofKind _).step fun _ _ _ => (word _).bind fun _ => ?_
      exact (ofKind _).step fun _ _ _ => .throw _ _
    · exact (field _ t p).step fun f f' hf => (ih _).step fun body body' hbody =>
        .pure ⟨.cons hf hbody.fields, hbody.messages, hbody.enums⟩

theorem methodType (service method : String) :
    Follows (methodType service method) (methodType service method) (· = ·) := by
  refine (word _).bind fun _ => (ofKind _).step ?_
  rintro t _ ⟨p, rfl⟩
  exact .check ((word _).bind fun _ => .pure rfl)

theorem method (service : String) : Follows (method service) (method service) (· = ·) := by
  refine (ofKind _).step ?_
  rintro name _ ⟨p, rfl⟩
  refine (methodType _ _).bind fun _ => (word _).bind fun _ => (methodType _ _).bind fun _ =>
    (accept _).bind fun _ => .ite (fun _ => ?_) fun _ => (word _).bind fun _ => .pure rfl
  exact remaining.bind fun _ => (skipStatements _).bind fun _ => .pure rfl

theorem methods (service : String) (fuel : Nat) :
    Follows (methods service fuel) (methods service fuel) (· = ·) := by
  induction fuel with
  | zero => exact .pure rfl
  | succ fuel ih =>
    refine (accept _).bind fun _ => .ite (fun _ => .pure rfl) fun _ => next.step ?_
    rintro t _ ⟨p, rfl⟩
    exact .ite (fun _ => skipStatement.bind fun _ => ih) fun _ => .ite (fun _ => ih) fun _ =>
      .ite (fun _ => .throw _ _) fun _ => (method _).bind fun _ => ih.bind fun _ => .pure rfl

theorem service : Follows service service (· = ·) := by
  refine (ofKind _).step ?_
  rintro name _ ⟨p, rfl⟩
  exact (word _).bind fun _ => remaining.bind fun _ => (methods _ _).bind fun _ => .pure rfl

end Follows

/-! ### Files -/

/-- Declarations at other places, in a package if they were in none. -/
structure Declarations.Packaged (package : String) (d d' : Declarations) : Prop where
  package : d.package = none → d'.package = some package
  messages : List.Forall₂ MessageDecl.Moved d.messages d'.messages
  enums : d'.enums = d.enums
  services : d'.services = d.services

/-- What a part of the grammar accepts to the last token, another one accepts at other places. -/
def FollowsAll (r r' : Reader α) (R : α → α → Prop) : Prop :=
  ∀ c c' a c₁, c.Moved c' → r.run c = .ok (a, c₁) → c₁.rest = [] →
    ∃ a' c₁', r'.run c' = .ok (a', c₁') ∧ R a a'

namespace FollowsAll

variable {P : α → α → Prop} {R : β → β → Prop}

theorem pure {b b' : β} (h : R b b') : FollowsAll (Pure.pure b) (Pure.pure b') R := by
  intro c c' a c₁ _ hrun _
  cases hrun
  exact ⟨b', c', rfl, h⟩

theorem throw (failure : Failure) (r' : Reader β) : FollowsAll (throw failure) r' R := by
  intro c c' b c₁ _ hrun
  cases hrun

theorem step {x x' : Reader α} {f f' : α → Reader β} (hx : Follows x x' P)
    (hf : ∀ a a', P a a' → FollowsAll (f a) (f' a') R) : FollowsAll (x >>= f) (x' >>= f') R := by
  intro c c' b c₂ hc hrun hend
  obtain ⟨a, c₁, ha, hb⟩ := run_bind_eq_ok_iff.1 hrun
  obtain ⟨a', c₁', ha', hp, hc₁⟩ := hx c c' a c₁ hc ha
  obtain ⟨b', c₂', hb', hr⟩ := hf a a' hp c₁ c₁' b c₂ hc₁ hb hend
  exact ⟨b', c₂', run_bind_eq_ok_iff.2 ⟨a', c₁', ha', hb'⟩, hr⟩

theorem bind {x x' : Reader α} {f f' : α → Reader β} (hx : Follows x x' (· = ·))
    (hf : ∀ a, FollowsAll (f a) (f' a) R) : FollowsAll (x >>= f) (x' >>= f') R :=
  .step hx fun a _ heq => heq ▸ hf a

theorem ite {c : Prop} [Decidable c] {y y' z z' : Reader β} (hy : c → FollowsAll y y' R)
    (hz : ¬c → FollowsAll z z' R) : FollowsAll (if c then y else z) (if c then y' else z') R := by
  split
  · exact hy ‹_›
  · exact hz ‹_›

end FollowsAll

theorem run_topLevel_nil (fuel : Nat) (acc : Declarations) (last : Position) :
    (topLevel fuel acc).run ⟨[], last⟩ = .ok (acc, ⟨[], last⟩) := by
  cases fuel <;> rfl

/-- More fuel does no harm. -/
theorem followsAll_topLevel {package : String} {fuel fuel' : Nat} (hfuel : fuel ≤ fuel')
    {acc acc' : Declarations} (h : acc.Packaged package acc') :
    FollowsAll (topLevel fuel acc) (topLevel fuel' acc') (Declarations.Packaged package) := by
  induction fuel generalizing fuel' acc acc' with
  | zero =>
    intro c c' d c₁ hc hrun hend
    cases hrun
    obtain ⟨rest', last'⟩ := c'
    rw [Cursor.Moved, hend, List.forall₂_nil_left_iff] at hc
    subst hc
    exact ⟨acc', _, run_topLevel_nil fuel' acc' last', h⟩
  | succ fuel ih =>
    obtain ⟨fuel', rfl⟩ := Nat.exists_eq_add_one_of_ne_zero (Nat.ne_zero_of_lt hfuel)
    have hrest := @ih fuel' (Nat.le_of_succ_le_succ hfuel)
    refine .step Follows.peek? fun first first' hfirst => ?_
    cases hfirst with
    | none => exact .pure h
    | some _ =>
      refine .step Follows.next ?_
      rintro t _ ⟨p, rfl⟩
      refine .ite (fun _ => ?_) fun _ => .ite (fun _ => ?_) fun _ => .ite (fun _ => ?_) fun _ =>
        .ite (fun _ => ?_) fun _ => .ite (fun _ => ?_) fun _ => .ite (fun _ => ?_) fun _ =>
        .ite (fun _ => hrest h) fun _ => .throw _ _
      · exact .bind (.word _) fun _ => .step (.ofKind _) fun _ _ _ => .bind (.word _) fun _ =>
          hrest h
      · refine .step (.ofKind _) ?_
        rintro name _ ⟨q, rfl⟩
        exact .bind (.word _) fun _ => hrest ⟨nofun, h.messages, h.enums, h.services⟩
      · exact .bind .skipStatement fun _ => hrest h
      · refine .bind .messageName fun name => .bind .remaining fun _ =>
          .step (.messageBody _ _) fun body body' hbody => hrest ⟨h.package, ?_, ?_, h.services⟩
        · exact List.rel_append h.messages (.cons ⟨rfl, hbody.fields⟩ hbody.messages)
        · exact congrArg₂ (· ++ ·) h.enums hbody.enums
      · exact .bind (.enum _) fun e =>
          hrest ⟨h.package, h.messages, congrArg (· ++ [e]) h.enums, h.services⟩
      · exact .bind .service fun s =>
          hrest ⟨h.package, h.messages, h.enums, congrArg (· ++ [s]) h.services⟩

/-- A package statement in front. -/
theorem run_topLevel_package (fuel : Nat) (acc : Declarations) {keyword name semicolon : Token}
    (hkeyword : keyword.text = "package") (hname : name.kind = .name)
    (hsemicolon : semicolon.text = ";") (ts : List Token) (last : Position) :
    (topLevel (fuel + 1) acc).run ⟨keyword :: name :: semicolon :: ts, last⟩ =
      (topLevel fuel { acc with
        package := some (String.ofList (name.text.toList.dropWhile (· = '.'))) }).run
          ⟨ts, last⟩ := by
  have hpeek : peek?.run ⟨keyword :: name :: semicolon :: ts, last⟩ =
      .ok (some keyword, ⟨keyword :: name :: semicolon :: ts, last⟩) := rfl
  have hnext : ∀ (t : Token) ts, next.run ⟨t :: ts, last⟩ = .ok (t, ⟨ts, last⟩) := fun _ _ => rfl
  have hkind : (ofKind .name).run ⟨name :: semicolon :: ts, last⟩ =
      .ok (name, ⟨semicolon :: ts, last⟩) := by
    rw [ofKind, StateT.run_bind, hnext, ok_bind]
    simp [hname]
  have hword : (word ";").run ⟨semicolon :: ts, last⟩ = .ok ((), ⟨ts, last⟩) := by
    rw [word, StateT.run_bind, hnext, ok_bind]
    simp [hsemicolon]
  rw [topLevel, StateT.run_bind, hpeek, ok_bind]
  dsimp only
  rw [if_neg (by simp), StateT.run_bind, hnext, ok_bind]
  dsimp only
  rw [if_neg (by simp [hkeyword]), if_pos hkeyword, StateT.run_bind, hkind, ok_bind]
  dsimp only
  rw [StateT.run_bind, hword, ok_bind]

/-- The same tokens behind a package statement declare the same, in that package. -/
theorem ofTokens_packaged {ts : List Token} {d : Declarations}
    (h : Declarations.ofTokens ts = .ok d) {keyword name semicolon : Token} {ts' : List Token}
    (hkeyword : keyword.text = "package") (hname : name.kind = .name)
    (hsemicolon : semicolon.text = ";") (hts : List.Forall₂ Token.Moved ts ts') :
    ∃ d', Declarations.ofTokens (keyword :: name :: semicolon :: ts') = .ok d' ∧
      d.Packaged (String.ofList (name.text.toList.dropWhile (· = '.'))) d' := by
  obtain ⟨⟨d, c₁⟩, hrun, hret⟩ := map_eq_ok_iff.1 h
  cases hret
  obtain ⟨hend, -⟩ := takesAll_topLevel (Nat.lt_succ_self _) _ _ _ hrun (Nat.le_refl _)
  have hfuel : ts.length + 1 ≤ ts'.length + 3 := by
    rw [hts.length_eq]
    omega
  have hacc : ({} : Declarations).Packaged
      (String.ofList (name.text.toList.dropWhile (· = '.')))
      { package := some (String.ofList (name.text.toList.dropWhile (· = '.'))) } :=
    ⟨fun _ => rfl, .nil, rfl, rfl⟩
  obtain ⟨d', c₁', hrun', hd'⟩ :=
    followsAll_topLevel hfuel hacc ⟨ts, _⟩ ⟨ts', _⟩ d c₁ hts hrun hend
  exact ⟨d', map_eq_ok_iff.2 ⟨(d', c₁'),
    (run_topLevel_package _ _ hkeyword hname hsemicolon ts' _).trans hrun', rfl⟩, hd'⟩

end FeltRelay.Schema.Definitions
