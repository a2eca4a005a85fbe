import FeltRelay.Proofs.Result
import FeltRelay.Schema.Definitions.Grammar
import Mathlib.Data.List.Basic

/-!
# Where declared names come from

No reading puts tokens back, so the names that are declared are names of the text, fields at their
places, and an enumeration has no more values than the text has characters
(`writtenIn_of_ofTokens`, `length_values_le`).
-/

namespace FeltRelay.Schema.Definitions

variable {α β : Type} {ts : List Token}

/-! ### Steps of the grammar -/

theorem run_accept_cons (text : String) (t : Token) (rest : List Token) (last : Position) :
    (accept text).run ⟨t :: rest, last⟩ =
      .ok (if t.text = text then (true, ⟨rest, last⟩) else (false, ⟨t :: rest, last⟩)) := by
  by_cases ht : t.text = text <;> simp [accept, StateT.run_bind, StateT.run_get, ht]

/-- What is read of a field behind its type. -/
def fieldBehind (owner : String) (label : Option Label) (type : Token) : Reader FieldDecl := do
  if type.text = "float" ∨ type.text = "double" then
    let name := ((← peek?).map (·.text)).getD "?"
    throw (.unsupportedField owner name type.text)
  let name ← ofKind .name
  word "="
  let number ← ofKind .number
  skipOptions
  word ";"
  return ⟨name.text, label, type.text, number.value, name.position⟩

theorem field_eq (owner : String) (first : Token) :
    field owner first =
      if (Label.ofWord? first.text).isSome then
        ofKind .name >>= fieldBehind owner (Label.ofWord? first.text)
      else fieldBehind owner (Label.ofWord? first.text) first := rfl

/-- A failure that is reported at a place of the text, if at all at one of some tokens or at the place
that is named if they run out. -/
def BlamedOn (ts : List Token) (last : Position) (f : Failure) : Prop :=
  f.kind = .parse →
    ∃ p, (p = last ∨ ∃ t ∈ ts, t.position = p) ∧ f.place = .position p.line p.column

theorem blamedOn_of_mem {t : Token} (ht : t ∈ ts) (text : String) (last : Position) :
    BlamedOn ts last (.parseError text t.position.line t.position.column) :=
  fun _ => ⟨t.position, .inr ⟨t, ht, rfl⟩, rfl⟩

theorem blamedOn_unsupportedField (owner name construct : String) (last : Position) :
    BlamedOn ts last (.unsupportedField owner name construct) :=
  fun h => nomatch h

/-- A part of the grammar that begins at an end of some tokens stops at an end of them and gives a
result of a kind, or refuses the text at one of them. -/
structure Within (ts : List Token) (r : Reader α) (P : α → Prop) : Prop where
  ok : ∀ s a s', r.run s = .ok (a, s') → s.rest <:+ ts → s'.rest <:+ ts ∧ s'.last = s.last ∧ P a
  error : ∀ s f, r.run s = .error f → s.rest <:+ ts → BlamedOn ts s.last f

namespace Within

variable {P Q : α → Prop} {R : β → Prop}

theorem pure {a : α} (h : P a) : Within ts (Pure.pure a : Reader α) P := by
  refine ⟨fun s b s' hrun hs => ?_, fun s f hrun => ?_⟩
  · cases hrun
    exact ⟨hs, rfl, h⟩
  · cases hrun

theorem bind {x : Reader α} {f : α → Reader β} (hx : Within ts x P)
    (hf : ∀ a, P a → Within ts (f a) R) : Within ts (x >>= f) R := by
  refine ⟨fun s b s' hrun hs => ?_, fun s g hrun hs => ?_⟩
  · obtain ⟨a, s₁, ha, hb⟩ := run_bind_eq_ok_iff.1 hrun
    obtain ⟨hs₁, hlast, hp⟩ := hx.ok _ _ _ ha hs
    obtain ⟨hs', hlast', hr⟩ := (hf a hp).ok _ _ _ hb hs₁
    exact ⟨hs', hlast'.trans hlast, hr⟩
  · rcases run_bind_eq_error_iff.1 hrun with hx' | ⟨a, s₁, ha, hb⟩
    · exact hx.error _ _ hx' hs
    · obtain ⟨hs₁, hlast, hp⟩ := hx.ok _ _ _ ha hs
      rw [← hlast]
      exact (hf a hp).error _ _ hb hs₁

theorem throw {f : Failure} (h : ∀ last, BlamedOn ts last f) :
    Within ts (throw f : Reader α) P := by
  refine ⟨fun s a s' hrun => ?_, fun s g hrun _ => ?_⟩
  · cases hrun
  · cases hrun
    exact h s.last

theorem throw_bind {f : Failure} (h : ∀ last, BlamedOn ts last f) (k : β → Reader α) :
    Within ts (MonadExcept.throw f >>= k) P :=
  (throw h (P := fun _ => False)).bind fun _ hfalse => hfalse.elim

/-- A check before what follows. -/
theorem check {c : Prop} [Decidable c] {f : Failure} {k : PUnit → Reader α}
    (hf : ∀ last, BlamedOn ts last f) (h : ¬c → Within ts (k ⟨⟩) P) :
    Within ts (if c then MonadExcept.throw f >>= k else k ⟨⟩) P := by
  split
  · exact throw_bind hf k
  · exact h ‹_›

theorem ite {c : Prop} [Decidable c] {x y : Reader α} (hx : c → Within ts x P)
    (hy : ¬c → Within ts y P) : Within ts (if c then x else y) P := by
  split
  · exact hx ‹_›
  · exact hy ‹_›

theorem imp {x : Reader α} (h : Within ts x P) (hpq : ∀ a, P a → Q a) : Within ts x Q := by
  refine ⟨fun s a s' hrun hs => ?_, h.error⟩
  obtain ⟨hs', hlast, hp⟩ := h.ok s a s' hrun hs
  exact ⟨hs', hlast, hpq a hp⟩

end Within

/-! ### Tokens -/

/-- Any result. -/
def anything : α → Prop := fun _ => True

theorem within_peek? : Within ts peek? anything := by
  refine ⟨fun s a s' hrun hs => ?_, fun s f hrun => ?_⟩
  · cases hrun
    exact ⟨hs, rfl, trivial⟩
  · cases hrun

theorem within_remaining : Within ts remaining (· ≤ ts.length) := by
  refine ⟨fun s a s' hrun hs => ?_, fun s f hrun => ?_⟩
  · cases hrun
    exact ⟨hs, rfl, hs.length_le⟩
  · cases hrun

theorem within_next : Within ts next (· ∈ ts) := by
  refine ⟨fun s a s' hrun hs => ?_, fun s f hrun hs => ?_⟩ <;> obtain ⟨rest, last⟩ := s
  · cases rest with
    | nil => cases hrun
    | cons t rest =>
      cases hrun
      exact ⟨(List.suffix_cons ..).trans hs, rfl, hs.subset (List.mem_cons_self ..)⟩
  · cases rest with
    | nil =>
      cases hrun
      exact fun _ => ⟨last, .inl rfl, rfl⟩
    | cons t rest => cases hrun

/-- A name among some tokens. -/
def Named (ts : List Token) (name : String) : Prop := ∃ t ∈ ts, t.kind = .name ∧ t.text = name

theorem within_word (text : String) : Within ts (word text) anything := by
  refine within_next.bind fun t ht => .ite (fun _ => ?_) fun _ => .pure trivial
  exact .throw (blamedOn_of_mem ht _)

theorem within_ofKind (kind : TokenKind) :
    Within ts (ofKind kind) (fun t => t ∈ ts ∧ t.kind = kind) := by
  refine within_next.bind fun t ht => .check (blamedOn_of_mem ht _) fun hkind => ?_
  exact .pure ⟨ht, not_not.1 hkind⟩

theorem within_accept (text : String) : Within ts (accept text) anything := by
  refine ⟨fun s a s' hrun hs => ?_, fun s f hrun hs => ?_⟩ <;> obtain ⟨rest, last⟩ := s
  · cases rest with
    | nil =>
      cases hrun
      exact ⟨hs, rfl, trivial⟩
    | cons t rest =>
      rw [run_accept_cons] at hrun
      split at hrun
      · cases hrun
        exact ⟨(List.suffix_cons ..).trans hs, rfl, trivial⟩
      · cases hrun
        exact ⟨hs, rfl, trivial⟩
  · cases rest with
    | nil => cases hrun
    | cons t rest =>
      rw [run_accept_cons] at hrun
      cases hrun

/-! ### What is skipped -/

theorem within_skipFrom (fuel : Nat) (depth : Int) : Within ts (skipFrom fuel depth) anything := by
  induction fuel generalizing depth with
  | zero => exact .pure trivial
  | succ fuel ih =>
    refine within_next.bind fun t _ => .ite (fun _ => ih _) fun _ => ?_
    exact .ite (fun _ => ih _) fun _ => .ite (fun _ => .pure trivial) fun _ => ih _

theorem within_skipStatement : Within ts skipStatement anything :=
  within_remaining.bind fun k _ => within_skipFrom (k + 1) 0

theorem within_skipOptionsFrom (fuel depth : Nat) :
    Within ts (skipOptionsFrom fuel depth) anything := by
  induction fuel generalizing depth with
  | zero => exact .pure trivial
  | succ fuel ih =>
    cases depth with
    | zero => exact .pure trivial
    | succ depth =>
      refine within_next.bind fun t _ => .ite (fun _ => ih _) fun _ => ?_
      exact .ite (fun _ => ih _) fun _ => ih _

theorem within_skipOptions : Within ts skipOptions anything := by
  refine (within_accept _).bind fun found _ => .ite (fun _ => ?_) fun _ => .pure trivial
  exact within_remaining.bind fun k _ => within_skipOptionsFrom _ _

theorem within_skipStatements (fuel : Nat) : Within ts (skipStatements fuel) anything := by
  induction fuel with
  | zero => exact .pure trivial
  | succ fuel ih =>
    refine (within_accept _).bind fun found _ => .ite (fun _ => .pure trivial) fun _ => ?_
    exact within_skipStatement.bind fun _ _ => ih

/-! ### Declarations -/

/-- A field whose name is one of some tokens, at its place. -/
def FieldDecl.StandsIn (ts : List Token) (f : FieldDecl) : Prop :=
  ∃ t ∈ ts, t.kind = .name ∧ t.text = f.name ∧ t.position = f.position

theorem within_field (owner : String) (first : Token) :
    Within ts (field owner first) (FieldDecl.StandsIn ts) := by
  have htail : ∀ label type,
      Within ts (fieldBehind owner label type) (FieldDecl.StandsIn ts) := by
    intro label type
    refine .ite (fun _ => within_peek?.bind fun t _ => ?_) fun _ => ?_
    · exact .throw_bind (blamedOn_unsupportedField _ _ _) _
    · refine (within_ofKind _).bind fun name hname => (within_word _).bind fun _ _ => ?_
      refine (within_ofKind _).bind fun number _ => within_skipOptions.bind fun _ _ => ?_
      exact (within_word _).bind fun _ _ => .pure ⟨name, hname.1, hname.2, rfl, rfl⟩
  rw [field_eq]
  exact .ite (fun _ => (within_ofKind _).bind fun type _ => htail _ type) fun _ => htail _ first

/-- Each value takes a step and has a name of its own token. -/
theorem within_enumValues (owner : String) (fuel : Nat) :
    Within ts (enumValues owner fuel) fun vs =>
      vs.length ≤ fuel ∧ ∀ v ∈ vs, Named ts v.1 := by
  induction fuel with
  | zero => exact .pure ⟨Nat.le_refl 0, by simp⟩
  | succ fuel ih =>
    have hskip : Within ts (enumValues owner fuel) fun vs =>
        vs.length ≤ fuel + 1 ∧ ∀ v ∈ vs, Named ts v.1 :=
      ih.imp fun _ h => ⟨Nat.le_succ_of_le h.1, h.2⟩
    refine (within_accept _).bind fun found _ => .ite (fun _ => .pure (by simp)) fun _ => ?_
    refine within_next.bind fun t ht => .ite (fun _ => within_skipStatement.bind fun _ _ => hskip) ?_
    refine fun _ => .ite (fun _ => hskip) fun _ =>
      .ite (fun _ => .throw (blamedOn_of_mem ht _)) fun hkind => ?_
    refine (within_word _).bind fun _ _ => (within_ofKind _).bind fun number _ => ?_
    refine within_skipOptions.bind fun _ _ => (within_word _).bind fun _ _ => ?_
    refine ih.bind fun values h => .pure ⟨Nat.succ_le_succ h.1, fun v hv => ?_⟩
    rcases List.mem_cons.1 hv with rfl | hv
    · exact ⟨t, ht, not_not.1 hkind, rfl⟩
    · exact h.2 v hv

/-- The values of enumerations have names of some tokens, and are no more than those. -/
def Drawn (ts : List Token) (enums : List EnumDecl) : Prop :=
  ∀ e ∈ enums, e.values.length ≤ ts.length + 1 ∧ ∀ v ∈ e.values, Named ts v.1

theorem within_enum (scope : List String) : Within ts (enum scope) fun e => Drawn ts [e] := by
  refine (within_ofKind _).bind fun name _ => (within_word _).bind fun _ _ => ?_
  refine within_remaining.bind fun k hk => (within_enumValues _ _).bind fun values h => ?_
  refine .pure fun e he => ?_
  rw [List.mem_singleton.1 he]
  exact ⟨Nat.le_trans h.1 (Nat.succ_le_succ hk), h.2⟩

theorem Drawn.append {xs ys : List EnumDecl} (hx : Drawn ts xs) (hy : Drawn ts ys) :
    Drawn ts (xs ++ ys) := by
  intro e he
  exact (List.mem_append.1 he).elim (hx e) (hy e)

theorem within_messageName : Within ts messageName anything := by
  refine (within_ofKind _).bind fun name hname => .check (blamedOn_of_mem hname.1 _) fun _ => ?_
  exact (within_word _).bind fun _ _ => .pure trivial

/-- What a body declares comes from some tokens. -/
structure Body.WrittenIn (ts : List Token) (body : Body) : Prop where
  fields : ∀ f ∈ body.fields, f.StandsIn ts
  messages : ∀ x ∈ body.messages, ∀ f ∈ x.fields, f.StandsIn ts
  enums : Drawn ts body.enums

theorem within_messageBody (fuel : Nat) (scope : List String) :
    Within ts (messageBody fuel scope) (Body.WrittenIn ts) := by
  have hnone : Body.WrittenIn ts {} := ⟨by simp, by simp, fun _ h => absurd h List.not_mem_nil⟩
  induction fuel generalizing scope with
  | zero => exact .pure hnone
  | succ fuel ih =>
    refine (within_accept _).bind fun found _ => .ite (fun _ => .pure hnone) fun _ => ?_
    refine within_next.bind fun t ht => .ite (fun _ => ?_) fun _ => .ite (fun _ => ?_) fun _ =>
      .ite (fun _ => ?_) fun _ => .ite (fun _ => ih scope) fun _ => .ite (fun _ => ?_) fun _ =>
      .ite (fun _ => ?_) fun _ => .ite (fun _ => ?_) fun _ => .throw (blamedOn_of_mem ht _)
    · refine within_messageName.bind fun name _ => (ih _).bind fun nested hnested => ?_
      refine (ih _).bind fun body hbody => .pure ⟨hbody.fields, fun x hx => ?_, ?_⟩
      · rw [List.cons_append, List.mem_cons, List.mem_append] at hx
        rcases hx with rfl | hx | hx
        · exact hnested.fields
        · exact hnested.messages x hx
        · exact hbody.messages x hx
      · exact hnested.enums.append hbody.enums
    · refine (within_enum _).bind fun e he => (ih _).bind fun body hbody => .pure ?_
      exact ⟨hbody.fields, hbody.messages, he.append hbody.enums⟩
    · exact within_skipStatement.bind fun _ _ => ih scope
    · exact (within_ofKind _).bind fun name _ => .throw (blamedOn_unsupportedField _ _ _)
    · refine (within_word _).bind fun _ _ => (within_ofKind _).bind fun key _ => ?_
      refine (within_word _).bind fun _ _ => (within_ofKind _).bind fun value _ => ?_
      refine (within_word _).bind fun _ _ => (within_ofKind _).bind fun name _ => ?_
      exact .throw (blamedOn_unsupportedField _ _ _)
    · refine (within_field _ _).bind fun f hf => (ih _).bind fun body hbody => .pure ?_
      refine ⟨fun g hg => ?_, hbody.messages, hbody.enums⟩
      rcases List.mem_cons.1 hg with rfl | hg
      · exact hf
      · exact hbody.fields g hg

theorem within_methodType (service method : String) :
    Within ts (methodType service method) anything := by
  refine (within_word _).bind fun _ _ => (within_ofKind _).bind fun t _ => ?_
  refine .check (blamedOn_unsupportedField _ _ _) fun _ => ?_
  exact (within_word _).bind fun _ _ => .pure trivial

theorem within_method (service : String) : Within ts (method service) fun x => Named ts x.name := by
  refine (within_ofKind _).bind fun name hname => (within_methodType _ _).bind fun request _ => ?_
  refine (within_word _).bind fun _ _ => (within_methodType _ _).bind fun response _ => ?_
  have hnamed : Named ts name.text := ⟨name, hname.1, hname.2, rfl⟩
  refine (within_accept _).bind fun found _ => .ite (fun _ => ?_) fun _ => ?_
  · refine within_remaining.bind fun k _ => (within_skipStatements _).bind fun _ _ => ?_
    exact .pure hnamed
  · exact (within_word _).bind fun _ _ => .pure hnamed

theorem within_methods (service : String) (fuel : Nat) :
    Within ts (methods service fuel) fun xs => ∀ x ∈ xs, Named ts x.name := by
  induction fuel with
  | zero => exact .pure (by simp)
  | succ fuel ih =>
    refine (within_accept _).bind fun found _ => .ite (fun _ => .pure (by simp)) fun _ => ?_
    refine within_next.bind fun t ht => .ite (fun _ => within_skipStatement.bind fun _ _ => ih) ?_
    refine fun _ => .ite (fun _ => ih) fun _ =>
      .ite (fun _ => .throw (blamedOn_of_mem ht _)) fun _ => ?_
    refine (within_method _).bind fun m hm => ih.bind fun ms hms => .pure fun x hx => ?_
    rcases List.mem_cons.1 hx with rfl | hx
    · exact hm
    · exact hms x hx

theorem within_service : Within ts service fun s => ∀ x ∈ s.methods, Named ts x.name := by
  refine (within_ofKind _).bind fun name _ => (within_word _).bind fun _ _ => ?_
  refine within_remaining.bind fun k _ => (within_methods _ _).bind fun ms hms => ?_
  exact .pure hms

/-- The declared names that come from some tokens. -/
structure WrittenIn (ts : List Token) (d : Declarations) : Prop where
  fields : ∀ x ∈ d.messages, ∀ f ∈ x.fields, f.StandsIn ts
  enums : Drawn ts d.enums
  methods : ∀ s ∈ d.services, ∀ x ∈ s.methods, Named ts x.name
  package : ∀ p ∈ d.package, ∃ name, Named ts name ∧
    p = String.ofList (name.toList.dropWhile (· = '.'))

theorem within_topLevel (fuel : Nat) {acc : Declarations} (h : WrittenIn ts acc) :
    Within ts (topLevel fuel acc) (WrittenIn ts) := by
  induction fuel generalizing acc with
  | zero => exact .pure h
  | succ fuel ih =>
    refine within_peek?.bind fun head _ => .ite (fun _ => .pure h) fun _ => ?_
    refine within_next.bind fun t ht => .ite (fun _ => ?_) fun _ => .ite (fun _ => ?_) fun _ =>
      .ite (fun _ => ?_) fun _ => .ite (fun _ => ?_) fun _ => .ite (fun _ => ?_) fun _ =>
      .ite (fun _ => ?_) fun _ => .ite (fun _ => ih h) fun _ => .throw (blamedOn_of_mem ht _)
    · refine (within_word _).bind fun _ _ => (within_ofKind _).bind fun _ _ => ?_
      exact (within_word _).bind fun _ _ => ih h
    · refine (within_ofKind _).bind fun name hname => (within_word _).bind fun _ _ => ih ?_
      refine ⟨h.fields, h.enums, h.methods, fun p hp => ?_⟩
      cases hp
      exact ⟨name.text, ⟨name, hname.1, hname.2, rfl⟩, rfl⟩
    · exact within_skipStatement.bind fun _ _ => ih h
    · refine within_messageName.bind fun name _ => within_remaining.bind fun k _ => ?_
      refine (within_messageBody _ _).bind fun body hbody => ih ?_
      refine ⟨fun x hx => ?_, h.enums.append hbody.enums, h.methods, h.package⟩
      rw [List.mem_append, List.mem_cons] at hx
      rcases hx with hx | rfl | hx
      · exact h.fields x hx
      · exact hbody.fields
      · exact hbody.messages x hx
    · exact (within_enum _).bind fun e he => ih ⟨h.fields, h.enums.append he, h.methods, h.package⟩
    · refine within_service.bind fun s hs => ih ⟨h.fields, h.enums, fun s' hs' => ?_, h.package⟩
      rcases List.mem_append.1 hs' with hs' | hs'
      · exact h.methods s' hs'
      · rw [List.mem_singleton.1 hs']
        exact hs

theorem within_file (ts : List Token) :
    Within ts (topLevel (ts.length + 1) {}) (WrittenIn ts) :=
  within_topLevel _ ⟨fun _ h => absurd h List.not_mem_nil, fun _ h => absurd h List.not_mem_nil,
    fun _ h => absurd h List.not_mem_nil, fun _ h => nomatch h⟩

/-- What tokens declare has names of these tokens. -/
theorem writtenIn_of_ofTokens {d : Declarations} (h : Declarations.ofTokens ts = .ok d) :
    WrittenIn ts d := by
  obtain ⟨⟨d', s'⟩, hrun, hret⟩ := map_eq_ok_iff.1 h
  cases hret
  exact ((within_file ts).ok _ _ _ hrun (List.suffix_refl ts)).2.2

/-- Tokens are refused at one of them, if at a place. -/
theorem exists_of_ofTokens_error {f : Failure} (h : Declarations.ofTokens ts = .error f)
    (hkind : f.kind = .parse) :
    ∃ t ∈ ts, f.place = .position t.position.line t.position.column := by
  have hrun := map_eq_error_iff.1 h
  obtain ⟨p, hp, hplace⟩ := (within_file ts).error _ _ hrun (List.suffix_refl ts) hkind
  rcases hp with rfl | ⟨t, ht, rfl⟩
  · cases hlast : ts.getLast? with
    | none =>
      -- Without tokens nothing is refused.
      rw [List.getLast?_eq_none_iff.1 hlast] at h
      cases h
    | some t =>
      rw [hlast] at hplace
      exact ⟨t, List.mem_of_getLast? hlast, hplace⟩
  · exact ⟨t, ht, hplace⟩

/-! ### Texts -/

/-- A text has no more tokens than characters. -/
theorem length_tokensFrom_le {fuel : Nat} {p : Position} {s : List Char} {tokens : List Token}
    (h : tokensFrom fuel p s = .ok tokens) : tokens.length ≤ fuel := by
  induction fuel generalizing p s tokens with
  | zero =>
    cases s with
    | nil =>
      cases h
      exact Nat.le_refl 0
    | cons c s =>
      cases h
      exact Nat.le_refl 0
  | succ fuel ih =>
    cases s with
    | nil =>
      cases h
      exact Nat.zero_le _
    | cons c s =>
      rw [tokensFrom] at h
      split at h
      · cases h
      · dsimp only at h
        split at h
        · rename_i hrest _
          cases h
          exact Nat.succ_le_succ (ih hrest)
        · exact Nat.le_succ_of_le (ih h)

/-- An enumeration has no more values than the text has characters, and one. -/
theorem length_values_le {text : String} {d : Declarations} (h : Declarations.ofText text = .ok d)
    {e : EnumDecl} (he : e ∈ d.enums) : e.values.length ≤ text.length + 1 := by
  obtain ⟨tokens, htokens, h⟩ := bind_eq_ok_iff.1 h
  have hlen : tokens.length ≤ text.length := length_tokensFrom_le htokens
  have hvalues := ((writtenIn_of_ofTokens h).enums e he).1
  omega

end FeltRelay.Schema.Definitions
