import FeltRelay.Proofs.Schema.Definitions.Grammar
import FeltRelay.Proofs.Schema.Definitions.Tree

/-!
# What the grammar makes of words

Tokens that are written as the words of a tree are taken by the part of the grammar that is meant
for it, whatever stands behind them, and declare what the tree says.
-/

namespace FeltRelay.Schema.Definitions

variable {α β : Type} {rest : List Token}

/-- Before other tokens, a part of the grammar takes those that are written as certain words, and
gives what `P` says. -/
def Gives (rest : List Token) (r : Reader α) (ws : List Word) (P : α → Prop) : Prop :=
  ∀ us : List Token, us.map Token.bare = ws → ∀ last,
    ∃ a, r.run ⟨us ++ rest, last⟩ = .ok (a, ⟨rest, last⟩) ∧ P a

namespace Gives

variable {P : α → Prop} {Q : β → Prop} {us ws : List Word} {w : Word}

theorem pure {b : β} (h : Q b) : Gives rest (Pure.pure b : Reader β) [] Q := by
  intro us hus last
  rw [List.map_eq_nil_iff.1 hus]
  exact ⟨b, rfl, h⟩

theorem bind {x : Reader α} {f : α → Reader β} (hx : ∀ {rest}, Gives rest x us P)
    (hf : ∀ a, P a → Gives rest (f a) ws Q) : Gives rest (x >>= f) (us ++ ws) Q := by
  intro ts hts last
  obtain ⟨ts₁, ts₂, rfl, h₁, h₂⟩ := List.map_eq_append_iff.1 hts
  obtain ⟨a, ha, hp⟩ := hx ts₁ h₁ last
  obtain ⟨b, hb, hq⟩ := hf a hp ts₂ h₂ last
  refine ⟨b, ?_, hq⟩
  rw [List.append_assoc]
  exact run_bind_eq_ok_iff.2 ⟨a, _, ha, hb⟩

theorem map {x : Reader α} {f : α → β} (hx : Gives rest x ws P) (hf : ∀ a, P a → Q (f a)) :
    Gives rest (x >>= fun a => Pure.pure (f a)) ws Q := by
  intro us hus last
  obtain ⟨a, ha, hp⟩ := hx us hus last
  exact ⟨f a, run_bind_eq_ok_iff.2 ⟨a, _, ha, rfl⟩, hf a hp⟩

theorem imp {Q' : β → Prop} {y : Reader β} (h : Gives rest y ws Q) (hq : ∀ b, Q b → Q' b) :
    Gives rest y ws Q' := by
  intro us hus last
  obtain ⟨b, hb, hqb⟩ := h us hus last
  exact ⟨b, hb, hq b hqb⟩

theorem ite_pos {c : Prop} [Decidable c] {y z : Reader β} (hc : c) (h : Gives rest y ws Q) :
    Gives rest (if c then y else z) ws Q := by
  rwa [if_pos hc]

theorem ite_neg {c : Prop} [Decidable c] {y z : Reader β} (hc : ¬c) (h : Gives rest z ws Q) :
    Gives rest (if c then y else z) ws Q := by
  rwa [if_neg hc]

/-- What is read behind the first token. -/
theorem cons {r : Reader β}
    (h : ∀ t : Token, t.kind = w.1 → t.text = w.2 → ∀ us : List Token, us.map Token.bare = ws →
      ∀ last, ∃ b, r.run ⟨t :: (us ++ rest), last⟩ = .ok (b, ⟨rest, last⟩) ∧ Q b) :
    Gives rest r (w :: ws) Q := by
  intro us hus last
  obtain ⟨t, us, rfl, rfl, rfl⟩ := List.map_eq_cons_iff.1 hus
  exact h t rfl rfl us rfl last

theorem next {g : Token → Reader β}
    (h : ∀ t : Token, t.kind = w.1 → t.text = w.2 → Gives rest (g t) ws Q) :
    Gives rest (Definitions.next >>= g) (w :: ws) Q :=
  cons fun t hkind htext us hus last => h t hkind htext us hus last

/-- There is a first token. -/
theorem head {b : β} {g : Token → Reader β}
    (h : ∀ t : Token, t.text = w.2 → Gives rest (g t) ws Q) :
    Gives rest (peek? >>= fun first =>
      if first.isNone then Pure.pure b else Definitions.next >>= g) (w :: ws) Q := by
  refine cons fun t _ htext us hus last => ?_
  obtain ⟨b, hb, hq⟩ := h t htext us hus last
  exact ⟨b, run_bind_eq_ok_iff.2 ⟨_, _, rfl, run_bind_eq_ok_iff.2 ⟨t, _, rfl, hb⟩⟩, hq⟩

theorem ofWord {text : String} (hw : w.2 = text) :
    Gives rest (Definitions.word text) [w] fun _ => True :=
  next fun _ _ htext => ite_neg (not_not.2 (htext.trans hw)) (pure trivial)

theorem word {text : String} {g : Unit → Reader β} (hw : w.2 = text)
    (h : Gives rest (g ()) ws Q) : Gives rest (Definitions.word text >>= g) (w :: ws) Q :=
  bind (ofWord hw) fun _ _ => h

theorem ofToken {kind : TokenKind} (hw : w.1 = kind) :
    Gives rest (Definitions.ofKind kind) [w] fun t => t.text = w.2 :=
  next fun _ hkind htext => ite_neg (not_not.2 (hkind.trans hw)) (pure htext)

theorem ofKind {kind : TokenKind} {g : Token → Reader β} (hw : w.1 = kind)
    (h : ∀ t : Token, t.text = w.2 → Gives rest (g t) ws Q) :
    Gives rest (Definitions.ofKind kind >>= g) (w :: ws) Q :=
  bind (ofToken hw) h

theorem accept_pos {text : String} {y z : Reader β} (hw : w.2 = text) (h : Gives rest y ws Q) :
    Gives rest (Definitions.accept text >>= fun found => if found then y else z) (w :: ws) Q := by
  refine cons fun t _ htext us hus last => ?_
  obtain ⟨b, hb, hq⟩ := h us hus last
  have hread := run_accept_cons text t (us ++ rest) last
  rw [if_pos (htext.trans hw)] at hread
  exact ⟨b, run_bind_eq_ok_iff.2 ⟨true, _, hread, hb⟩, hq⟩

theorem accept_neg {text : String} {y z : Reader β} (hw : w.2 ≠ text)
    (h : Gives rest z (w :: ws) Q) :
    Gives rest (Definitions.accept text >>= fun found => if found then y else z) (w :: ws) Q := by
  intro ts hts last
  obtain ⟨b, hb, hq⟩ := h ts hts last
  obtain ⟨t, us, rfl, ht, -⟩ := List.map_eq_cons_iff.1 hts
  have hread := run_accept_cons text t (us ++ rest) last
  rw [if_neg (by rintro rfl; exact hw (by rw [← ht]; rfl))] at hread
  exact ⟨b, run_bind_eq_ok_iff.2 ⟨false, _, hread, hb⟩, hq⟩

theorem remaining {g : Nat → Reader β} (h : ∀ n, ws.length ≤ n → Gives rest (g n) ws Q) :
    Gives rest (Definitions.remaining >>= g) ws Q := by
  intro us hus last
  have hlength : ws.length ≤ (us ++ rest).length := by
    rw [← hus, List.length_map, List.length_append]
    omega
  obtain ⟨b, hb, hq⟩ := h _ hlength us hus last
  exact ⟨b, run_bind_eq_ok_iff.2 ⟨_, _, rfl, hb⟩, hq⟩

/-- No options are skipped before another token. -/
theorem skipOptions {g : Unit → Reader β} (hw : w.2 ≠ "[") (h : Gives rest (g ()) (w :: ws) Q) :
    Gives rest (Definitions.skipOptions >>= g) (w :: ws) Q := by
  intro ts hts last
  obtain ⟨b, hb, hq⟩ := h ts hts last
  obtain ⟨t, us, rfl, ht, -⟩ := List.map_eq_cons_iff.1 hts
  have hread := run_accept_cons "[" t (us ++ rest) last
  rw [if_neg (by rintro htext; exact hw (by rw [← ht]; exact htext))] at hread
  have hskip : Definitions.skipOptions.run ⟨t :: (us ++ rest), last⟩ =
      .ok ((), ⟨t :: (us ++ rest), last⟩) := run_bind_eq_ok_iff.2 ⟨false, _, hread, rfl⟩
  exact ⟨b, run_bind_eq_ok_iff.2 ⟨(), _, hskip, hb⟩, hq⟩

end Gives

/-! ### Skipped statements -/

theorem gives_skipFrom_of_nested {free : Bool} {us : List Word} (h : Nested free us) {depth : Int}
    (hdepth : 0 ≤ depth) (hfree : free = true → 0 < depth) {ws : List Word} {P : Unit → Prop}
    (hws : ∀ fuel, ws.length < fuel → Gives rest (skipFrom fuel depth) ws P) {fuel : Nat}
    (hfuel : (us ++ ws).length < fuel) : Gives rest (skipFrom fuel depth) (us ++ ws) P := by
  induction h generalizing depth ws fuel with
  | nil => exact hws fuel hfuel
  | @plain free w us hw hend rest ih =>
    obtain ⟨fuel, rfl⟩ := Nat.exists_eq_add_one_of_ne_zero (Nat.ne_zero_of_lt hfuel)
    simp only [List.mem_cons, List.not_mem_nil, or_false, not_or] at hw
    refine .next fun t _ htext => .ite_neg ?_ (.ite_neg ?_ (.ite_neg ?_ ?_))
    · rw [htext]
      tauto
    · rw [htext]
      tauto
    · rintro ⟨hsemicolon, hle⟩
      have := hfree (hend (htext ▸ hsemicolon))
      omega
    · exact ih hdepth hfree hws (by simp at hfuel ⊢; omega)
  | @group free opening closing us vs hpair hus hvs ihus ihvs =>
    obtain ⟨fuel, rfl⟩ := Nat.exists_eq_add_one_of_ne_zero (Nat.ne_zero_of_lt hfuel)
    simp only [List.mem_cons, List.not_mem_nil, or_false, Prod.mk.injEq] at hpair
    have hopen : opening.2 = "[" ∨ opening.2 = "\x7b" ∨ opening.2 = "(" := by tauto
    have hclose : closing.2 = "]" ∨ closing.2 = "\x7d" ∨ closing.2 = ")" := by tauto
    have hsame : closing.2 ≠ "[" ∧ closing.2 ≠ "\x7b" ∧ closing.2 ≠ "(" := by
      rcases hclose with h | h | h <;> rw [h] <;> decide
    -- The inside is skipped one bracket deeper, up to the closing one.
    have hinside : ∀ fuel, (closing :: (vs ++ ws)).length < fuel →
        Gives rest (skipFrom fuel (depth + 1)) (closing :: (vs ++ ws)) P := by
      intro fuel hfuel
      obtain ⟨fuel, rfl⟩ := Nat.exists_eq_add_one_of_ne_zero (Nat.ne_zero_of_lt hfuel)
      refine .next fun t _ htext => .ite_neg ?_ (.ite_pos ?_ ?_)
      · rw [htext]
        tauto
      · rwa [htext]
      · rw [Int.add_sub_cancel]
        exact ihvs hdepth hfree hws (by simp at hfuel ⊢; omega)
    rw [List.cons_append, List.append_assoc, List.cons_append]
    refine .next fun t _ htext => .ite_pos (by rwa [htext]) ?_
    exact ihus (by omega) (fun _ => by omega) hinside (by simp at hfuel ⊢; omega)

theorem gives_skipStatement {content : List Word} (h : Nested false content) :
    Gives rest skipStatement (content ++ [.mark ";"]) fun _ => True := by
  refine .remaining fun n hn => ?_
  refine gives_skipFrom_of_nested h (Int.le_refl 0) (fun h => nomatch h) (fun fuel hfuel => ?_)
    (Nat.lt_succ_of_le hn)
  obtain ⟨fuel, rfl⟩ := Nat.exists_eq_add_one_of_ne_zero (Nat.ne_zero_of_lt hfuel)
  refine .next fun t _ htext => .ite_neg ?_ (.ite_neg ?_ (.ite_pos ?_ (.pure trivial)))
  · rw [htext]
    decide
  · rw [htext]
    decide
  · exact ⟨htext, Int.le_refl 0⟩

/-! ### Fields and values -/

theorem IsReference.head {s : List Char} (h : IsReference s) :
    ∃ c ∈ s.head?, isNameStart c = true ∨ c = '.' := by
  rcases h with h | ⟨rest, rfl, -⟩
  · obtain ⟨c, rest, rfl, hc, -⟩ := h.exists_start
    exact ⟨c, rfl, .inl hc⟩
  · exact ⟨'.', rfl, .inr rfl⟩

theorem IsReference.ne_mark {s : String} (h : IsReference s.toList) : s ≠ ";" ∧ s ≠ "\x7d" := by
  obtain ⟨c, hc, hstart⟩ := h.head
  constructor
  · rintro rfl
    cases hc
    exact absurd hstart (by decide)
  · rintro rfl
    cases hc
    exact absurd hstart (by decide)

theorem Label.ofWord?_word (l : Label) : Label.ofWord? l.word = some l := by
  cases l <;> rfl

theorem Label.ofWord?_eq_none {s : String} (h : s ∉ reservedTypes none) :
    Label.ofWord? s = none := by
  unfold Label.ofWord?
  split
  · exact absurd (by decide) h
  · exact absurd (by decide) h
  · exact absurd (by decide) h
  · rfl

theorem gives_fieldBehind (owner : String) (label : Option Label) {type : Token}
    (htype : type.text ∉ reservedTypes label) (name : String) (number : Int) :
    Gives rest (fieldBehind owner label type)
      [.name name, .mark "=", .number number, .mark ";"]
      fun d => d.tree = ⟨label, type.text, name, number⟩ := by
  have hfree : ¬(type.text = "float" ∨ type.text = "double") := by
    have hreserved : "float" ∈ reservedTypes label ∧ "double" ∈ reservedTypes label := by
      cases label <;> simp [reservedTypes]
    rintro (h | h)
    · exact htype (h ▸ hreserved.1)
    · exact htype (h ▸ hreserved.2)
  refine .ite_neg hfree (.ofKind rfl fun n hn => .word rfl (.ofKind rfl fun i hi => ?_))
  refine .skipOptions (by decide) (.word rfl (.pure ?_))
  rw [FieldDecl.tree, hn, value_of_integer hi]
  rfl

/-- The first token of a field does not begin anything else in the body of a message. -/
theorem gives_field {f : FieldTree} (h : f.Plain) (owner : String) : ∃ w ws, f.words = w :: ws ∧
    (w.1 = .name ∧ w.2 ∉ bodyWords ∧ w.2 ≠ ";" ∧ w.2 ≠ "\x7d") ∧
    ∀ t : Token, t.text = w.2 → ∀ {rest}, Gives rest (field owner t) ws fun d => d.tree = f := by
  obtain ⟨label, typeName, name, number⟩ := f
  cases label with
  | none =>
    have hbody : typeName ∉ bodyWords := fun hmem => h.free (List.mem_append_left _ hmem)
    refine ⟨_, _, rfl, ⟨rfl, hbody, h.type.ne_mark⟩, fun t ht _ => ?_⟩
    have hlabel : Label.ofWord? t.text = none := by
      rw [ht]
      exact Label.ofWord?_eq_none h.free
    rw [field_eq, hlabel]
    refine .ite_neg (by decide) ((gives_fieldBehind owner none ?_ name number).imp ?_)
    · rw [ht]
      exact h.free
    · intro d hd
      rw [hd, ht]
      rfl
  | some l =>
    have hlabel : l.word ∉ bodyWords ∧ l.word ≠ ";" ∧ l.word ≠ "\x7d" := by
      cases l <;> decide
    refine ⟨_, _, rfl, ⟨rfl, hlabel⟩, fun t ht _ => ?_⟩
    have hword : Label.ofWord? t.text = some l := by
      rw [ht]
      exact l.ofWord?_word
    rw [field_eq, hword]
    refine .ite_pos rfl (.ofKind rfl fun type htype => ?_)
    refine (gives_fieldBehind owner (some l) ?_ name number).imp ?_
    · rw [htype]
      exact h.free
    · intro d hd
      rw [hd, htype]
      rfl

theorem gives_enumValues {values : List ValueTree} (h : ∀ v ∈ values, v.Plain) (owner : String)
    {fuel : Nat} (hfuel : (values.flatMap (·.words)).length < fuel) :
    Gives rest (enumValues owner fuel) (values.flatMap (·.words) ++ [.mark "\x7d"])
      (· = values.filterMap (·.value?)) := by
  induction values generalizing fuel with
  | nil =>
    obtain ⟨fuel, rfl⟩ := Nat.exists_eq_add_one_of_ne_zero (Nat.ne_zero_of_lt hfuel)
    exact .accept_pos rfl (.pure rfl)
  | cons v values ih =>
    obtain ⟨fuel, rfl⟩ := Nat.exists_eq_add_one_of_ne_zero (Nat.ne_zero_of_lt hfuel)
    have hv := h v (List.mem_cons_self ..)
    have hrest := fun fuel => @ih (fun u hu => h u (List.mem_cons_of_mem _ hu)) fuel
    rw [List.flatMap_cons, List.append_assoc]
    rw [List.flatMap_cons, List.length_append] at hfuel
    cases v with
    | value name number =>
      obtain ⟨hname, hfree⟩ := hv
      simp only [List.mem_cons, List.not_mem_nil, or_false] at hfree
      obtain ⟨hsemicolon, hclose⟩ := IsReference.ne_mark (.inl (.word hname))
      refine .accept_neg hclose (.next fun t hkind htext => ?_)
      refine .ite_neg (by rwa [htext]) (.ite_neg (by rwa [htext]) (.ite_neg (not_not.2 hkind) ?_))
      refine .word rfl (.ofKind rfl fun i hi => .skipOptions (by decide) (.word rfl ?_))
      refine (hrest fuel ?_).map fun others hothers => ?_
      · simp [ValueTree.words] at hfuel ⊢
        omega
      · rw [hothers, htext, value_of_integer hi]
        rfl
    | skip s =>
      have hkeyword : s.keyword ≠ "\x7d" ∧ (s.keyword = "option" ∨ s.keyword = "reserved") := by
        have hmem := hv.keyword
        simp only [List.mem_cons, List.not_mem_nil, or_false] at hmem
        refine ⟨?_, hmem⟩
        rcases hmem with h | h <;> rw [h] <;> decide
      refine .accept_neg hkeyword.1 (.next fun t _ htext => ?_)
      rw [htext]
      refine .ite_pos hkeyword.2 (.bind (gives_skipStatement hv.nested) fun _ _ => ?_)
      refine hrest fuel ?_
      simp [ValueTree.words, Statement.words] at hfuel ⊢
      omega

theorem gives_enum {e : EnumTree} (h : e.Plain) (scope : List String) :
    Gives rest (enum scope) (.name e.name :: .mark "\x7b" ::
      (e.values.flatMap (·.words) ++ [.mark "\x7d"])) (· = e.declared scope) := by
  refine .ofKind rfl fun t ht => .word rfl (.remaining fun n hn => ?_)
  refine (gives_enumValues h.values _ ?_).map fun values hvalues => ?_
  · rw [List.length_append] at hn
    exact Nat.lt_succ_of_le (Nat.le_of_add_right_le hn)
  · rw [ht, hvalues]
    rfl

/-! ### Messages -/

theorem IsWord.not_mem_dot {s : List Char} (h : IsWord s) : '.' ∉ s := by
  obtain ⟨c, rest, rfl, hc, hrest⟩ := h
  have hdot : isNameStart '.' = false ∧ isNamePart '.' = false := by decide
  rw [List.mem_cons]
  rintro (rfl | hmem)
  · rw [hdot.1] at hc
    cases hc
  · have := hrest '.' hmem
    rw [hdot.2] at this
    cases this

theorem gives_messageName {name : String} (h : IsWord name.toList) :
    Gives rest messageName [.name name, .mark "\x7b"] (· = name) := by
  refine .ofKind rfl fun t ht => .ite_neg ?_ (.word rfl (.pure ht))
  rw [ht, List.contains_iff_mem]
  exact h.not_mem_dot

/-- What a body declares, as its tree says. -/
structure Body.Follows (scope : List String) (b : BodyTree) (body : Body) : Prop where
  fields : body.fields.map (·.tree) = b.fields
  messages : body.messages.map (·.outline) = b.messages scope
  enums : body.enums = b.enums scope

theorem gives_messageBody {b : BodyTree} (h : b.Plain) (scope : List String) {fuel : Nat}
    (hfuel : b.words.length ≤ fuel) :
    Gives rest (messageBody fuel scope) b.words (Body.Follows scope b) := by
  induction b generalizing scope fuel rest with
  | done =>
    obtain ⟨fuel, rfl⟩ := Nat.exists_eq_add_one_of_ne_zero (Nat.ne_zero_of_lt hfuel)
    exact .accept_pos rfl (.pure ⟨rfl, rfl, rfl⟩)
  | field f rest ih =>
    obtain ⟨w, ws, hwords, ⟨hname, hword, hsemicolon, hclose⟩, hfield⟩ :=
      gives_field h.1 (dotted scope)
    rw [BodyTree.words, hwords, List.cons_append] at hfuel ⊢
    obtain ⟨fuel, rfl⟩ := Nat.exists_eq_add_one_of_ne_zero (Nat.ne_zero_of_lt hfuel)
    simp only [bodyWords, List.mem_cons, List.not_mem_nil, or_false, not_or] at hword
    refine .accept_neg hclose (.next fun t hkind htext => ?_)
    rw [htext]
    refine .ite_neg (by tauto) (.ite_neg (by tauto) (.ite_neg (by tauto) (.ite_neg hsemicolon
      (.ite_neg (by tauto) (.ite_neg (by tauto) (.ite_pos (hkind.trans hname) ?_))))))
    refine .bind (hfield t htext) fun d hd => (ih h.2 scope ?_).map fun body hbody => ?_
    · simp at hfuel
      omega
    · exact ⟨by rw [List.map_cons, hd, hbody.fields]; rfl, hbody.messages, hbody.enums⟩
  | enum e rest ih =>
    rw [BodyTree.words, EnumTree.words, List.cons_append] at hfuel ⊢
    obtain ⟨fuel, rfl⟩ := Nat.exists_eq_add_one_of_ne_zero (Nat.ne_zero_of_lt hfuel)
    refine .accept_neg (by decide) (.next fun t _ htext => ?_)
    rw [htext]
    refine .ite_neg (by decide) (.ite_pos rfl ?_)
    refine .bind (gives_enum h.1 scope) fun d hd => (ih h.2 scope ?_).map fun body hbody => ?_
    · simp at hfuel
      omega
    · exact ⟨hbody.fields, hbody.messages, by rw [hd, hbody.enums]; rfl⟩
  | message name inner rest ihinner ihrest =>
    rw [BodyTree.words] at hfuel ⊢
    obtain ⟨fuel, rfl⟩ := Nat.exists_eq_add_one_of_ne_zero (Nat.ne_zero_of_lt hfuel)
    refine .accept_neg (by decide) (.next fun t _ htext => .ite_pos htext ?_)
    refine .bind (gives_messageName h.1) fun n hn => ?_
    rw [hn]
    refine .bind (ihinner h.2.1 _ ?_) fun nested hnested =>
      (ihrest h.2.2 scope ?_).map fun body hbody => ?_
    · simp at hfuel
      omega
    · simp at hfuel
      omega
    · refine ⟨hbody.fields, ?_, ?_⟩
      · rw [List.map_append, List.map_cons, MessageDecl.outline, hnested.fields, hnested.messages,
          hbody.messages]
        rfl
      · rw [hnested.enums, hbody.enums]
        rfl
  | skip s rest ih =>
    have hkeyword := h.1.keyword
    simp only [List.mem_cons, List.not_mem_nil, or_false] at hkeyword
    have hother : s.keyword ≠ "\x7d" ∧ s.keyword ≠ "message" ∧ s.keyword ≠ "enum" := by
      rcases hkeyword with h | h | h <;> rw [h] <;> decide
    rw [BodyTree.words, Statement.words, List.cons_append] at hfuel ⊢
    obtain ⟨fuel, rfl⟩ := Nat.exists_eq_add_one_of_ne_zero (Nat.ne_zero_of_lt hfuel)
    refine .accept_neg hother.1 (.next fun t _ htext => ?_)
    rw [htext]
    refine .ite_neg hother.2.1 (.ite_neg hother.2.2 (.ite_pos hkeyword ?_))
    refine .bind (gives_skipStatement h.1.nested) fun _ _ =>
      (ih h.2 scope ?_).imp fun body hbody => ?_
    · simp at hfuel
      omega
    · exact ⟨hbody.fields, hbody.messages, hbody.enums⟩

/-! ### Services -/

theorem gives_methodType {type : String} (h : type ≠ "stream") (service method : String) :
    Gives rest (methodType service method) [.mark "(", .name type, .mark ")"] (· = type) := by
  refine .word rfl (.ofKind rfl fun t ht => .ite_neg ?_ (.word rfl (.pure ht)))
  rwa [ht]

theorem gives_skipStatements {statements : List Statement}
    (h : ∀ s ∈ statements, s.Plain ["option"]) {fuel : Nat}
    (hfuel : (statements.flatMap (·.words)).length < fuel) :
    Gives rest (skipStatements fuel) (statements.flatMap (·.words) ++ [.mark "\x7d"])
      fun _ => True := by
  induction statements generalizing fuel with
  | nil =>
    obtain ⟨fuel, rfl⟩ := Nat.exists_eq_add_one_of_ne_zero (Nat.ne_zero_of_lt hfuel)
    exact .accept_pos rfl (.pure trivial)
  | cons s statements ih =>
    obtain ⟨fuel, rfl⟩ := Nat.exists_eq_add_one_of_ne_zero (Nat.ne_zero_of_lt hfuel)
    have hs := h s (List.mem_cons_self ..)
    have hkeyword := List.mem_singleton.1 hs.keyword
    have hnested : Nested false (.name s.keyword :: s.content) := by
      rw [hkeyword]
      exact .plain (by decide) (by decide) hs.nested
    rw [List.flatMap_cons, List.append_assoc]
    rw [List.flatMap_cons, List.length_append] at hfuel
    have hopen : s.keyword ≠ "\x7d" := by rw [hkeyword]; decide
    refine .accept_neg hopen (.bind (gives_skipStatement hnested) fun _ _ => ?_)
    refine ih (fun u hu => h u (List.mem_cons_of_mem _ hu)) ?_
    simp [Statement.words] at hfuel ⊢
    omega

theorem gives_method {m : MethodDecl} {ending : MethodEnd}
    (h : (MethodTree.method m ending).Plain) (service : String) :
    Gives rest (method service) (.name m.name :: ([.mark "(", .name m.request, .mark ")"] ++
      .name "returns" :: ([.mark "(", .name m.response, .mark ")"] ++ ending.words))) (· = m) := by
  obtain ⟨-, ⟨-, hrequest⟩, ⟨-, hresponse⟩, hending⟩ := h
  refine .ofKind rfl fun name hname => ?_
  refine .bind (gives_methodType hrequest _ _) fun request hrequest => .word rfl ?_
  refine .bind (gives_methodType hresponse _ _) fun response hresponse => ?_
  have hresult : (⟨name.text, request, response⟩ : MethodDecl) = m := by
    rw [hname, hrequest, hresponse]
    rfl
  cases ending with
  | semicolon => exact .accept_neg (by decide) (.word rfl (.pure hresult))
  | braces statements =>
    refine .accept_pos rfl (.remaining fun n hn => ?_)
    refine (gives_skipStatements hending ?_).map fun _ _ => hresult
    rw [List.length_append] at hn
    exact Nat.lt_succ_of_le (Nat.le_of_add_right_le hn)

theorem gives_methods {trees : List MethodTree} (h : ∀ m ∈ trees, m.Plain) (service : String)
    {fuel : Nat} (hfuel : (trees.flatMap (·.words)).length < fuel) :
    Gives rest (methods service fuel) (trees.flatMap (·.words) ++ [.mark "\x7d"])
      (· = trees.filterMap (·.method?)) := by
  induction trees generalizing fuel with
  | nil =>
    obtain ⟨fuel, rfl⟩ := Nat.exists_eq_add_one_of_ne_zero (Nat.ne_zero_of_lt hfuel)
    exact .accept_pos rfl (.pure rfl)
  | cons m trees ih =>
    obtain ⟨fuel, rfl⟩ := Nat.exists_eq_add_one_of_ne_zero (Nat.ne_zero_of_lt hfuel)
    have hm := h m (List.mem_cons_self ..)
    have hrest := fun fuel => @ih (fun u hu => h u (List.mem_cons_of_mem _ hu)) fuel
    rw [List.flatMap_cons, List.append_assoc]
    rw [List.flatMap_cons, List.length_append] at hfuel
    cases m with
    | method m ending =>
      refine .accept_neg (by decide) (.next fun t _ htext => ?_)
      rw [htext]
      refine .ite_neg (by decide) (.ite_neg (by decide) (.ite_neg (by decide) ?_))
      refine .bind (gives_method hm service) fun x hx =>
        (hrest fuel ?_).map fun others hothers => ?_
      · simp [MethodTree.words] at hfuel ⊢
        omega
      · rw [hx, hothers]
        rfl
    | skip s =>
      have hkeyword := List.mem_singleton.1 hm.keyword
      refine .accept_neg (by rw [hkeyword]; decide) (.next fun t _ htext => ?_)
      refine .ite_pos (htext.trans hkeyword) (.bind (gives_skipStatement hm.nested) fun _ _ => ?_)
      refine hrest fuel ?_
      simp [MethodTree.words, Statement.words] at hfuel ⊢
      omega

theorem gives_service {s : ServiceTree} (h : s.Plain) :
    Gives rest service (.name s.name :: .mark "\x7b" ::
      (s.methods.flatMap (·.words) ++ [.mark "\x7d"])) (· = s.declared) := by
  refine .ofKind rfl fun t ht => .word rfl (.remaining fun n hn => ?_)
  refine (gives_methods h.methods _ ?_).map fun methods hmethods => ?_
  · rw [List.length_append] at hn
    exact Nat.lt_succ_of_le (Nat.le_of_add_right_le hn)
  · rw [ht, hmethods]
    rfl

/-! ### Files -/

/-- One outline behind another one. -/
def Outline.append (o p : Outline) : Outline where
  package := p.package.or o.package
  messages := o.messages ++ p.messages
  enums := o.enums ++ p.enums
  services := o.services ++ p.services

theorem Outline.append_assoc (o p q : Outline) :
    (o.append p).append q = o.append (p.append q) := by
  simp [Outline.append, Option.or_assoc]

def Entry.outline (e : Entry) : Outline := ⟨e.package?, e.messages, e.enums, e.service?.toList⟩

theorem outline_cons (e : Entry) (entries : List Entry) :
    outline (e :: entries) = e.outline.append (outline entries) := by
  have hfilter : ∀ {α : Type} (f : Entry → Option α),
      (e :: entries).filterMap f = (f e).toList ++ entries.filterMap f := by
    intro α f
    cases h : f e <;> simp [h]
  simp only [outline, Entry.outline, Outline.append, hfilter, List.flatMap_cons,
    List.getLast?_append]
  cases e.package? <;> rfl

/-- An entry adds its outline to what has been declared before it. -/
theorem gives_entry {e : Entry} (h : e.Plain) {fuel : Nat} {acc : Declarations} {ws : List Word}
    {P : Declarations → Prop}
    (hws : ∀ next : Declarations, next.outline = acc.outline.append e.outline →
      Gives rest (topLevel fuel next) ws P) :
    Gives rest (topLevel (fuel + 1) acc) (e.words ++ ws) P := by
  have hsame : e.outline = ⟨none, [], [], []⟩ → acc.outline = acc.outline.append e.outline := by
    intro hnone
    simp [hnone, Outline.append]
  cases e with
  | version value =>
    refine .head fun t htext => ?_
    rw [htext]
    exact .ite_pos rfl (.word rfl (.ofKind rfl fun _ _ => .word rfl (hws acc (hsame rfl))))
  | package name =>
    refine .head fun t htext => ?_
    rw [htext]
    refine .ite_neg (by decide) (.ite_pos rfl (.ofKind rfl fun n hn => .word rfl (hws _ ?_)))
    have hname : String.ofList (n.text.toList.dropWhile (· = '.')) = name := by
      rw [hn]
      exact (congrArg String.ofList h.dropWhile_dot).trans String.ofList_toList
    rw [hname]
    simp [Declarations.outline, Outline.append, Entry.outline, Entry.package?, Entry.messages,
      Entry.enums, Entry.service?]
  | message name body =>
    rw [Entry.words, List.cons_append, List.cons_append, List.cons_append]
    refine .head fun t htext => ?_
    rw [htext]
    refine .ite_neg (by decide) (.ite_neg (by decide) (.ite_neg (by decide) (.ite_pos rfl ?_)))
    refine .bind (gives_messageName h.1) fun n hn => .remaining fun k hk => ?_
    rw [hn]
    have hlength : (body.words ++ ws).length = body.words.length + ws.length := List.length_append
    have hfuel : body.words.length ≤ k + 1 := by
      have : (body.words ++ ws).length ≤ k := hk
      omega
    refine .bind (gives_messageBody h.2 [name] hfuel) fun b hb => hws _ ?_
    simp [Declarations.outline, MessageDecl.outline, Outline.append, Entry.outline,
      Entry.package?, Entry.messages, Entry.enums, Entry.service?, ← hb.fields, ← hb.messages,
      hb.enums]
  | enum e =>
    refine .head fun t htext => ?_
    rw [htext]
    refine .ite_neg (by decide) (.ite_neg (by decide) (.ite_neg (by decide) (.ite_neg (by decide)
      (.ite_pos rfl ?_))))
    refine .bind (gives_enum h []) fun d hd => hws _ ?_
    simp [Declarations.outline, Outline.append, Entry.outline, Entry.package?, Entry.messages,
      Entry.enums, Entry.service?, hd]
  | service s =>
    refine .head fun t htext => ?_
    rw [htext]
    refine .ite_neg (by decide) (.ite_neg (by decide) (.ite_neg (by decide) (.ite_neg (by decide)
      (.ite_neg (by decide) (.ite_pos rfl ?_)))))
    refine .bind (gives_service h) fun d hd => hws _ ?_
    simp [Declarations.outline, Outline.append, Entry.outline, Entry.package?, Entry.messages,
      Entry.enums, Entry.service?, hd]
  | skip s =>
    have hkeyword := h.keyword
    simp only [List.mem_cons, List.not_mem_nil, or_false] at hkeyword
    have hother : s.keyword ≠ "syntax" ∧ s.keyword ≠ "package" := by
      rcases hkeyword with h | h <;> rw [h] <;> decide
    refine .head fun t htext => ?_
    rw [htext]
    refine .ite_neg hother.1 (.ite_neg hother.2 (.ite_pos hkeyword ?_))
    exact .bind (gives_skipStatement h.nested) fun _ _ => hws acc (hsame rfl)

theorem Entry.length_words_pos (e : Entry) : 0 < e.words.length := by
  cases e <;> exact Nat.succ_pos _

theorem gives_topLevel {entries : List Entry} (h : ∀ e ∈ entries, e.Plain) {fuel : Nat}
    (hfuel : (entries.flatMap (·.words)).length < fuel) (acc : Declarations) :
    Gives [] (topLevel fuel acc) (entries.flatMap (·.words))
      fun d => d.outline = acc.outline.append (outline entries) := by
  induction entries generalizing fuel acc with
  | nil =>
    obtain ⟨fuel, rfl⟩ := Nat.exists_eq_add_one_of_ne_zero (Nat.ne_zero_of_lt hfuel)
    intro us hus last
    rw [List.map_eq_nil_iff.1 hus]
    exact ⟨acc, rfl, by simp [Outline.append, outline]⟩
  | cons e entries ih =>
    obtain ⟨fuel, rfl⟩ := Nat.exists_eq_add_one_of_ne_zero (Nat.ne_zero_of_lt hfuel)
    have hpos := e.length_words_pos
    rw [List.flatMap_cons, List.length_append] at hfuel
    refine gives_entry (h e (List.mem_cons_self ..)) fun next hnext => ?_
    rw [outline_cons, ← Outline.append_assoc, ← hnext]
    exact ih (fun u hu => h u (List.mem_cons_of_mem _ hu)) (by omega) next

/-- The body of a message with another message and an enumeration in it. -/
def deepBody : BodyTree :=
  .skip ⟨"reserved", [.mark "(", .mark ";", .mark ")"]⟩ <|
  .message "Inner" (.field ⟨some .repeated, "u32", "a", 1⟩ .done) <|
  .enum ⟨"Kind", [.value "KIND_A" 0]⟩ <|
  .field ⟨none, "Inner", "first", 2⟩ .done

def deep : List Entry :=
  [.skip ⟨"import", [(.string, "\"a.b\"")]⟩, .package "deep", .message "Outer" deepBody,
    .service ⟨"Oracle", [.method ⟨"Ask", "Outer", ".Outer"⟩ (.braces [⟨"option", []⟩])]⟩]

theorem plain_deepBody : deepBody.Plain := by
  have hsemicolon : Nested true [.mark ";"] := .plain (by decide) (fun _ => rfl) .nil
  have hreserved : Nested false [.mark "(", .mark ";", .mark ")"] :=
    .group (by decide) hsemicolon .nil
  have hmarks : ∀ w ∈ [Word.mark "(", Word.mark ";", Word.mark ")"], Spelled w := by
    simp only [List.forall_mem_cons]
    exact ⟨spelled_mark (by decide), spelled_mark (by decide), spelled_mark (by decide), by simp⟩
  have ha : FieldTree.Plain ⟨some .repeated, "u32", "a", 1⟩ :=
    ⟨.inl (.word (by decide)), by decide, by decide⟩
  have hkind : EnumTree.Plain ⟨"Kind", [.value "KIND_A" 0]⟩ := by
    refine ⟨by decide, ?_⟩
    rw [List.forall_mem_singleton]
    exact ⟨by decide, by decide⟩
  have hfirst : FieldTree.Plain ⟨none, "Inner", "first", 2⟩ :=
    ⟨.inl (.word (by decide)), by decide, by decide⟩
  exact ⟨⟨by decide, hreserved, hmarks⟩, by decide, ⟨ha, trivial⟩, hkind, hfirst, trivial⟩

theorem plain_deep : ∀ e ∈ deep, e.Plain := by
  have himport : Statement.Plain ["import", "option"] ⟨"import", [(.string, "\"a.b\"")]⟩ := by
    refine ⟨by decide, .plain (by decide) (by decide) .nil, ?_⟩
    rw [List.forall_mem_singleton]
    exact ⟨'"', "a.b".toList, .inl rfl, isQuoted_of_all (by decide), rfl⟩
  have hoption : ∀ s ∈ [(⟨"option", []⟩ : Statement)], s.Plain ["option"] := by
    rw [List.forall_mem_singleton]
    exact ⟨by decide, .nil, by simp⟩
  have hservice : ServiceTree.Plain
      ⟨"Oracle", [.method ⟨"Ask", "Outer", ".Outer"⟩ (.braces [⟨"option", []⟩])]⟩ := by
    refine ⟨by decide, ?_⟩
    rw [List.forall_mem_singleton]
    exact ⟨by decide, ⟨.inl (.word (by decide)), by decide⟩,
      ⟨.inr ⟨_, rfl, .word (by decide)⟩, by decide⟩, hoption⟩
  simp only [deep, List.forall_mem_cons]
  exact ⟨himport, .word (by decide), ⟨by decide, plain_deepBody⟩, hservice, by simp⟩

def deepText : String :=
  String.ofList ('/' :: '/' :: ("nested".toList ++ '\n' :: spaced (deep.flatMap (·.words))))

theorem toList_deepText : deepText.toList =
    '/' :: '/' :: ("nested".toList ++ '\n' :: spaced (deep.flatMap (·.words))) :=
  String.toList_ofList

theorem layout_deepText : Layout (deep.flatMap (·.words)) deepText.toList := by
  have hline : '\n' ∉ "nested".toList := by decide
  have h := Layout.line hline (layout_spaced (deep.flatMap (·.words)))
  rw [toList_deepText]
  exact h

end FeltRelay.Schema.Definitions
