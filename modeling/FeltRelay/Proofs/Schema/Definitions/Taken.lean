import FeltRelay.Proofs.Schema.Definitions.Grammar
import FeltRelay.Proofs.Schema.Definitions.Reading

/-!
# What parts of the grammar take

Each part of the grammar takes tokens that have a reading, so what tokens declare has one
(`exists_isFile_of_ofTokens`).
-/

namespace FeltRelay.Schema.Definitions

variable {α β : Type} {n : Nat}

/-- What a part of the grammar takes of at most `n` tokens is as `Q` says. -/
def Takes (n : Nat) (r : Reader α) (Q : List Token → α → Prop) : Prop :=
  ∀ c a c', r.run c = .ok (a, c') → c.rest.length ≤ n → ∃ us, c.rest = us ++ c'.rest ∧ Q us a

namespace Takes

variable {P : List Token → α → Prop} {Q : List Token → β → Prop} {x : Reader α}
  {f : α → Reader β}

theorem pure {b : β} (h : Q [] b) : Takes n (Pure.pure b : Reader β) Q := by
  intro c b' c' hrun _
  cases hrun
  exact ⟨[], rfl, h⟩

theorem throw (failure : Failure) : Takes n (throw failure : Reader β) Q := by
  intro c b c' hrun
  cases hrun

/-- What follows has only the tokens behind those that were taken. -/
theorem step (hx : Takes n x P) (hf : ∀ us a, P us a → ∀ m, us.length + m ≤ n →
    Takes m (f a) fun vs b => Q (us ++ vs) b) : Takes n (x >>= f) Q := by
  intro c b c' hrun hn
  obtain ⟨a, c₁, ha, hb⟩ := run_bind_eq_ok_iff.1 hrun
  obtain ⟨us, hus, hp⟩ := hx c a c₁ ha hn
  rw [hus, List.length_append] at hn
  obtain ⟨vs, hvs, hq⟩ := hf us a hp _ hn c₁ b c' hb (Nat.le_refl _)
  exact ⟨us ++ vs, by rw [hus, hvs, List.append_assoc], hq⟩

theorem mono {m : Nat} {y : Reader β} (h : Takes n y Q) (hm : m ≤ n) : Takes m y Q :=
  fun c b c' hrun hc => h c b c' hrun (Nat.le_trans hc hm)

theorem bind (hx : Takes n x P)
    (hf : ∀ us a, P us a → Takes n (f a) fun vs b => Q (us ++ vs) b) : Takes n (x >>= f) Q :=
  hx.step fun us a ha m hm => (hf us a ha).mono (by omega)

theorem ite {c : Prop} [Decidable c] {y z : Reader β} (hy : c → Takes n y Q)
    (hz : ¬c → Takes n z Q) : Takes n (if c then y else z) Q := by
  split
  · exact hy ‹_›
  · exact hz ‹_›

theorem check {c : Prop} [Decidable c] {failure : Failure} {k : PUnit → Reader β}
    (h : ¬c → Takes n (k ⟨⟩) Q) :
    Takes n (if c then MonadExcept.throw failure >>= k else k ⟨⟩) Q := by
  split
  · intro c b c' hrun
    cases hrun
  · exact h ‹_›

theorem imp {Q' : List Token → β → Prop} {y : Reader β} (h : Takes n y Q)
    (hq : ∀ us b, Q us b → Q' us b) : Takes n y Q' := by
  intro c b c' hrun hn
  obtain ⟨us, hus, hb⟩ := h c b c' hrun hn
  exact ⟨us, hus, hq us b hb⟩

/-- Behind a token fewer are left. -/
theorem next {g : Token → Reader β}
    (hg : ∀ m < n, ∀ t, Takes m (g t) fun us b => Q (t :: us) b) :
    Takes n (Definitions.next >>= g) Q := by
  intro c b c' hrun hn
  obtain ⟨t, c₁, ht, hb⟩ := run_bind_eq_ok_iff.1 hrun
  obtain ⟨rest, last⟩ := c
  cases rest with
  | nil => cases ht
  | cons u rest =>
    cases ht
    obtain ⟨us, hus, hq⟩ := hg rest.length (Nat.lt_of_succ_le hn) t _ b c' hb (Nat.le_refl _)
    dsimp only at hus
    exact ⟨t :: us, by rw [hus, List.cons_append], hq⟩

theorem remaining {g : Nat → Reader β} (hg : ∀ m ≤ n, Takes m (g m) Q) :
    Takes n (Definitions.remaining >>= g) Q := by
  intro c b c' hrun hn
  obtain ⟨k, c₁, hk, hb⟩ := run_bind_eq_ok_iff.1 hrun
  cases hk
  exact hg _ hn _ b c' hb (Nat.le_refl _)

theorem accept {text : String} {y z : Reader β}
    (hy : ∀ t, t.text = text → Takes n y fun us b => Q (t :: us) b) (hz : Takes n z Q) :
    Takes n (Definitions.accept text >>= fun found => if found then y else z) Q := by
  intro c b c' hrun hn
  obtain ⟨found, c₁, hfound, hb⟩ := run_bind_eq_ok_iff.1 hrun
  obtain ⟨rest, last⟩ := c
  cases rest with
  | nil =>
    cases hfound
    exact hz _ b c' hb hn
  | cons t rest =>
    rw [run_accept_cons] at hfound
    split at hfound
    · rename_i ht
      cases hfound
      obtain ⟨us, hus, hq⟩ := hy t ht ⟨rest, last⟩ b c' hb (Nat.le_of_succ_le hn)
      dsimp only at hus
      exact ⟨t :: us, by rw [hus, List.cons_append], hq⟩
    · cases hfound
      exact hz _ b c' hb hn

end Takes

theorem takes_word (text : String) :
    Takes n (word text) fun us _ => ∃ t, us = [t] ∧ t.text = text := by
  apply Takes.next
  intro m _ t
  exact .ite (fun _ => .throw _) fun h => .pure ⟨t, rfl, not_not.1 h⟩

theorem takes_ofKind (kind : TokenKind) :
    Takes n (ofKind kind) fun us t => us = [t] ∧ t.kind = kind := by
  apply Takes.next
  intro m _ t
  exact .check fun h => .pure ⟨rfl, not_not.1 h⟩

/-! ### What is skipped, as it is read -/

theorem takes_skipFrom {fuel : Nat} {depth : Int} (hn : n < fuel) :
    Takes n (skipFrom fuel depth) fun us _ => Skips depth us := by
  induction fuel generalizing n depth with
  | zero => exact absurd hn (Nat.not_lt_zero n)
  | succ fuel ih =>
    apply Takes.next
    intro m hm t
    have hfuel : m < fuel := by omega
    refine .ite (fun hopen => ?_) fun hopen => .ite (fun hclose => ?_) fun hclose =>
      .ite (fun hend => .pure (.stop hend.1 hend.2)) fun hgo => ?_
    · have hturn : t.turn = 1 := if_pos hopen
      refine (ih hfuel).imp fun us _ hus => .pass ?_ (hturn ▸ hus)
      rcases hopen with h | h | h <;> simp [h]
    · have hturn : t.turn = -1 := by rw [Token.turn, if_neg hopen, if_pos hclose]
      refine (ih hfuel).imp fun us _ hus => .pass ?_ (by rwa [hturn])
      rcases hclose with h | h | h <;> simp [h]
    · have hturn : t.turn = 0 := by rw [Token.turn, if_neg hopen, if_neg hclose]
      exact (ih hfuel).imp fun us _ hus => .pass hgo (by rwa [hturn, Int.add_zero])

theorem takes_skipStatement : Takes n skipStatement fun us _ => Skips 0 us :=
  Takes.remaining fun m _ => takes_skipFrom (Nat.lt_succ_self m)

theorem takes_skipOptionsFrom {fuel depth : Nat} (hn : n < fuel) :
    Takes n (skipOptionsFrom fuel depth) fun us _ => ClosesSquare depth us := by
  induction fuel generalizing n depth with
  | zero => exact absurd hn (Nat.not_lt_zero n)
  | succ fuel ih =>
    cases depth with
    | zero => exact .pure .done
    | succ depth =>
      apply Takes.next
      intro m hm t
      have hfuel : m < fuel := by omega
      refine .ite (fun hopen => ?_) fun hopen => .ite (fun hclose => ?_) fun hclose => ?_
      · exact (ih hfuel).imp fun us _ hus => .opened hopen hus
      · exact (ih hfuel).imp fun us _ hus => .closed hclose hus
      · exact (ih hfuel).imp fun us _ hus => .pass hopen hclose hus

theorem takes_skipOptions : Takes n skipOptions fun us _ => ∃ skips, IsOptions us skips := by
  refine .accept (fun t ht => ?_) (.pure ⟨[], .absent⟩)
  refine .remaining fun m _ => (takes_skipOptionsFrom (by omega)).imp fun us _ hus => ?_
  obtain ⟨vs, closing, rfl, hclose⟩ := hus.exists_end
  exact ⟨_, .present ht hus hclose⟩

theorem takes_skipStatements {fuel : Nat} (hn : n < fuel) :
    Takes n (skipStatements fuel) fun us _ => ∃ skips, IsStatements us skips := by
  induction fuel generalizing n with
  | zero => exact absurd hn (Nat.not_lt_zero n)
  | succ fuel ih =>
    refine .accept (fun t ht => .pure ⟨[], .close ht⟩) ?_
    refine takes_skipStatement.step fun us _ hus m hm => ?_
    have hpos := hus.length_pos
    refine (ih (by omega)).imp fun vs _ hvs => ?_
    obtain ⟨skips, hskips⟩ := hvs
    exact ⟨_, .skip hus hskips⟩

/-! ### Fields and values, as they are read -/

/-- What follows a number has the tokens of the number in front. -/
theorem takes_numbered {g : Token → Reader β} {Q : List Token → β → Prop}
    (hg : ∀ us number skips, IsNumbered us number.value skips →
      Takes n (g number) fun vs b => Q (us ++ vs) b) :
    Takes n (do
      word "="
      let number ← ofKind .number
      skipOptions
      word ";"
      g number) Q := by
  refine (takes_word _).bind fun _ _ ⟨equals, hus, hequals⟩ => ?_
  refine (takes_ofKind _).bind fun _ number ⟨hvs, hnumber⟩ => ?_
  refine takes_skipOptions.bind fun us _ ⟨skips, hoptions⟩ => ?_
  refine (takes_word _).bind fun _ _ ⟨semicolon, hws, hend⟩ => ?_
  subst hus hvs hws
  refine (hg _ number skips (.mk hequals hnumber hoptions hend)).imp fun vs b hq => ?_
  simpa using hq

theorem takes_field {owner : String} {first : Token} (hfirst : first.kind = .name) :
    Takes n (field owner first) fun us f => ∃ skips, IsField (first :: us) f skips := by
  have htail : ∀ (type : Token) (us : List Token),
      IsHead (first :: us) (Label.ofWord? first.text) type →
      Takes n (fieldBehind owner (Label.ofWord? first.text) type) fun vs f =>
        ∃ skips, IsField (first :: (us ++ vs)) f skips := by
    intro type us hhead
    refine .ite (fun _ => ?_) fun _ => ?_
    · intro c f c' hrun
      cases hrun
    · refine (takes_ofKind _).bind fun _ name ⟨hvs, hname⟩ => ?_
      subst hvs
      refine takes_numbered fun vs number skips hnumber => .pure ⟨skips, ?_⟩
      have hfield := IsField.mk hhead hname hnumber
      simpa using hfield
  rw [field_eq]
  refine .ite (fun hlabel => ?_) fun hlabel => ?_
  · obtain ⟨label, hlabel⟩ := Option.isSome_iff_exists.1 hlabel
    refine (takes_ofKind _).bind fun _ type ⟨hus, htype⟩ => ?_
    subst hus
    have hhead : IsHead [first, type] (Label.ofWord? first.text) type := by
      rw [hlabel]
      exact .labelled hlabel htype
    exact htail type [type] hhead
  · have hnone : Label.ofWord? first.text = none := by simpa using hlabel
    have hhead : IsHead [first] (Label.ofWord? first.text) first := by
      rw [hnone]
      exact .plain hfirst hnone
    exact htail first [] hhead

theorem takes_enumValues {owner : String} {fuel : Nat} (hn : n < fuel) :
    Takes n (enumValues owner fuel) fun us values => ∃ skips, IsValues us values skips := by
  induction fuel generalizing n with
  | zero => exact absurd hn (Nat.not_lt_zero n)
  | succ fuel ih =>
    refine .accept (fun t ht => .pure ⟨[], .close ht⟩) (.next fun m hm t => ?_)
    have hrest := @ih m (by omega)
    refine .ite (fun hword => ?_) fun _ => .ite (fun hempty => ?_) fun _ =>
      .ite (fun _ => .throw _) fun hkind => ?_
    · refine takes_skipStatement.bind fun us _ hus => hrest.imp fun vs values hvs => ?_
      obtain ⟨skips, hskips⟩ := hvs
      exact ⟨_, .skip hword hus hskips⟩
    · refine hrest.imp fun vs values hvs => ?_
      obtain ⟨skips, hskips⟩ := hvs
      exact ⟨_, .empty hempty hskips⟩
    · refine takes_numbered fun us number skips hnumber => hrest.bind fun vs values hvs => ?_
      obtain ⟨skips', hskips'⟩ := hvs
      have hvalue := IsValues.value (not_not.1 hkind) hnumber hskips'
      exact .pure ⟨_, by simpa using hvalue⟩

theorem takes_enum (scope : List String) :
    Takes n (enum scope) fun us e => ∃ skips, IsEnum scope us e skips := by
  refine (takes_ofKind _).bind fun _ name ⟨hus, hname⟩ => ?_
  refine (takes_word _).bind fun _ _ ⟨opening, hvs, hopen⟩ => ?_
  refine .remaining fun m _ => (takes_enumValues (Nat.lt_succ_self m)).bind fun us values hus' => ?_
  subst hus hvs
  obtain ⟨skips, hvalues⟩ := hus'
  refine .pure ⟨skips, ?_⟩
  simpa using IsEnum.mk hname hopen hvalues

/-! ### Messages, as they are read -/

theorem takes_messageName : Takes n messageName fun us name =>
    ∃ t opening, us = [t, opening] ∧ t.kind = .name ∧ name = t.text ∧ opening.text = "\x7b" := by
  refine (takes_ofKind _).bind fun _ t ⟨hus, hname⟩ => .check fun _ => ?_
  refine (takes_word _).bind fun _ _ ⟨opening, hvs, hopen⟩ => .pure ?_
  subst hus hvs
  exact ⟨t, opening, rfl, hname, rfl, hopen⟩

theorem takes_messageBody {fuel : Nat} {scope : List String} (hn : n < fuel) :
    Takes n (messageBody fuel scope) fun us body => ∃ skips, IsBody scope us body skips := by
  induction fuel generalizing n scope with
  | zero => exact absurd hn (Nat.not_lt_zero n)
  | succ fuel ih =>
    refine .accept (fun t ht => .pure ⟨[], .close ht⟩) (.next fun m hm t => ?_)
    have hrest := fun scope => @ih m scope (by omega)
    refine .ite (fun hword => ?_) fun hmessage => .ite (fun hword => ?_) fun henum =>
      .ite (fun hword => ?_) fun hskip => .ite (fun hempty => ?_) fun _ =>
      .ite (fun _ => ?_) fun honeof => .ite (fun _ => ?_) fun hmap =>
      .ite (fun hname => ?_) fun _ => .throw _
    · refine takes_messageName.bind fun _ name ⟨t', opening, hus, hname, heq, hopen⟩ => ?_
      refine (hrest _).bind fun us inner hinner => (hrest _).bind fun vs body hbody => ?_
      subst hus heq
      obtain ⟨skips, hinner⟩ := hinner
      obtain ⟨skips', hbody⟩ := hbody
      have hmessage := IsBody.message hword hname hopen hinner hbody
      exact .pure ⟨_, by simpa [Body.nest] using hmessage⟩
    · refine (takes_enum _).bind fun us e he => (hrest _).bind fun vs body hbody => ?_
      obtain ⟨skips, he⟩ := he
      obtain ⟨skips', hbody⟩ := hbody
      have henum := IsBody.enum hword he hbody
      exact .pure ⟨_, by simpa using henum⟩
    · refine takes_skipStatement.bind fun us _ hus => (hrest _).imp fun vs body hbody => ?_
      obtain ⟨skips, hbody⟩ := hbody
      exact ⟨_, .skip hword hus hbody⟩
    · refine (hrest _).imp fun vs body hbody => ?_
      obtain ⟨skips, hbody⟩ := hbody
      exact ⟨_, .empty hempty hbody⟩
    · exact (takes_ofKind _).bind fun _ name _ => .throw _
    · refine (takes_word _).bind fun _ _ _ => (takes_ofKind _).bind fun _ key _ => ?_
      refine (takes_word _).bind fun _ _ _ => (takes_ofKind _).bind fun _ value _ => ?_
      exact (takes_word _).bind fun _ _ _ => (takes_ofKind _).bind fun _ name _ => .throw _
    · have hfree : t.text ∉ bodyWords := by
        simp only [bodyWords, List.mem_cons, List.not_mem_nil, or_false]
        tauto
      refine (takes_field hname).bind fun us f hf => (hrest _).bind fun vs body hbody => ?_
      obtain ⟨skips, hf⟩ := hf
      obtain ⟨skips', hbody⟩ := hbody
      have hfield := IsBody.field hfree hf hbody
      exact .pure ⟨_, by simpa using hfield⟩

/-! ### Services, as they are read -/

theorem takes_methodType (service method : String) :
    Takes n (methodType service method) IsMethodType := by
  refine (takes_word _).bind fun _ _ ⟨opening, hus, hopen⟩ => ?_
  refine (takes_ofKind _).bind fun _ t ⟨hvs, hname⟩ => .check fun _ => ?_
  refine (takes_word _).bind fun _ _ ⟨closing, hws, hclose⟩ => .pure ?_
  subst hus hvs hws
  exact .mk hopen hname hclose

theorem takes_method (service : String) :
    Takes n (method service) fun us m => ∃ skips, IsMethod us m skips := by
  refine (takes_ofKind _).bind fun _ name ⟨hname', hname⟩ => ?_
  refine (takes_methodType _ _).bind fun us request hrequest => ?_
  refine (takes_word _).bind fun _ _ ⟨returns, hreturns', hreturns⟩ => ?_
  refine (takes_methodType _ _).bind fun vs response hresponse => ?_
  subst hname' hreturns'
  have hend : ∀ ws skips, IsMethodEnd ws skips → ∃ skips,
      IsMethod (name :: (us ++ returns :: (vs ++ ws))) ⟨name.text, request, response⟩ skips :=
    fun ws skips h => ⟨skips, .mk hname hrequest hreturns hresponse h⟩
  refine .accept (fun t ht => ?_) ?_
  · refine .remaining fun m _ => (takes_skipStatements (Nat.lt_succ_self m)).bind fun ws _ hws => ?_
    obtain ⟨skips, hws⟩ := hws
    refine .pure ?_
    simpa using hend _ _ (.braces ht hws)
  · refine (takes_word _).bind fun _ _ ⟨t, ht', ht⟩ => .pure ?_
    subst ht'
    simpa using hend _ _ (.semicolon ht)

theorem takes_methods {service : String} {fuel : Nat} (hn : n < fuel) :
    Takes n (methods service fuel) fun us ms => ∃ skips, IsMethods us ms skips := by
  induction fuel generalizing n with
  | zero => exact absurd hn (Nat.not_lt_zero n)
  | succ fuel ih =>
    refine .accept (fun t ht => .pure ⟨[], .close ht⟩) (.next fun m hm t => ?_)
    have hrest := @ih m (by omega)
    refine .ite (fun hword => ?_) fun _ => .ite (fun hempty => ?_) fun _ =>
      .ite (fun _ => .throw _) fun hword => ?_
    · refine takes_skipStatement.bind fun us _ hus => hrest.imp fun vs ms hvs => ?_
      obtain ⟨skips, hvs⟩ := hvs
      exact ⟨_, .skip hword hus hvs⟩
    · refine hrest.imp fun vs ms hvs => ?_
      obtain ⟨skips, hvs⟩ := hvs
      exact ⟨_, .empty hempty hvs⟩
    · refine (takes_method _).bind fun us x hx => hrest.bind fun vs ms hvs => ?_
      obtain ⟨skips, hx⟩ := hx
      obtain ⟨skips', hvs⟩ := hvs
      have hmethod := IsMethods.method (not_not.1 hword) hx hvs
      exact .pure ⟨_, by simpa using hmethod⟩

theorem takes_service : Takes n service fun us s => ∃ skips, IsService us s skips := by
  refine (takes_ofKind _).bind fun _ name ⟨hus, hname⟩ => ?_
  refine (takes_word _).bind fun _ _ ⟨opening, hvs, hopen⟩ => ?_
  refine .remaining fun m _ => (takes_methods (Nat.lt_succ_self m)).bind fun us ms hms => .pure ?_
  subst hus hvs
  obtain ⟨skips, hms⟩ := hms
  have hservice := IsService.mk hname hopen hms
  exact ⟨skips, by simpa using hservice⟩

/-! ### Files, as they are read -/

/-- A part of the grammar takes all of at most `n` tokens, and they are as `Q` says. -/
def TakesAll (n : Nat) (r : Reader α) (Q : List Token → α → Prop) : Prop :=
  ∀ c a c', r.run c = .ok (a, c') → c.rest.length ≤ n → c'.rest = [] ∧ Q c.rest a

namespace TakesAll

variable {P : List Token → α → Prop} {Q : List Token → β → Prop}

theorem bind {x : Reader α} {f : α → Reader β} (hx : Takes n x P)
    (hf : ∀ us a, P us a → ∀ m ≤ n, TakesAll m (f a) fun vs b => Q (us ++ vs) b) :
    TakesAll n (x >>= f) Q := by
  intro c b c' hrun hn
  obtain ⟨a, c₁, ha, hb⟩ := run_bind_eq_ok_iff.1 hrun
  obtain ⟨us, hus, hp⟩ := hx c a c₁ ha hn
  rw [hus, List.length_append] at hn
  rw [hus]
  exact hf us a hp _ (by omega) c₁ b c' hb (Nat.le_refl _)

theorem imp {Q' : List Token → β → Prop} {y : Reader β} (h : TakesAll n y Q)
    (hq : ∀ us b, Q us b → Q' us b) : TakesAll n y Q' :=
  fun c b c' hrun hn => (h c b c' hrun hn).imp_right (hq _ b)

theorem ite {c : Prop} [Decidable c] {y z : Reader β} (hy : c → TakesAll n y Q)
    (hz : ¬c → TakesAll n z Q) : TakesAll n (if c then y else z) Q := by
  split
  · exact hy ‹_›
  · exact hz ‹_›

theorem throw (failure : Failure) : TakesAll n (throw failure : Reader β) Q := by
  intro c b c' hrun
  cases hrun

theorem remaining {g : Nat → Reader β} (hg : ∀ m ≤ n, TakesAll m (g m) Q) :
    TakesAll n (Definitions.remaining >>= g) Q := by
  intro c b c' hrun hn
  obtain ⟨k, c₁, hk, hb⟩ := run_bind_eq_ok_iff.1 hrun
  cases hk
  exact hg _ hn _ b c' hb (Nat.le_refl _)

/-- Either no tokens are left, or there is a first one. -/
theorem head {b : β} {g : Token → Reader β} (hnil : Q [] b)
    (hg : ∀ m < n, ∀ t, TakesAll m (g t) fun us b => Q (t :: us) b) :
    TakesAll n (peek? >>= fun first =>
      if first.isNone then pure b else Definitions.next >>= g) Q := by
  intro c b' c' hrun hn
  obtain ⟨first, c₁, hfirst, hb⟩ := run_bind_eq_ok_iff.1 hrun
  cases hfirst
  obtain ⟨rest, last⟩ := c
  cases rest with
  | nil =>
    cases hb
    exact ⟨rfl, hnil⟩
  | cons t rest =>
    obtain ⟨t', c₁, ht, hb⟩ := run_bind_eq_ok_iff.1 hb
    cases ht
    exact hg rest.length (Nat.lt_of_succ_le hn) t _ b' c' hb (Nat.le_refl _)

end TakesAll

theorem takesAll_topLevel {fuel : Nat} {acc : Declarations} (hn : n < fuel) :
    TakesAll n (topLevel fuel acc) fun ts d => ∃ skips, IsFile acc ts d skips := by
  induction fuel generalizing n acc with
  | zero => exact absurd hn (Nat.not_lt_zero n)
  | succ fuel ih =>
    refine .head ⟨[], .nil⟩ fun m hm t => ?_
    have hfuel : m < fuel := by omega
    refine .ite (fun hword => ?_) fun _ => .ite (fun hword => ?_) fun _ =>
      .ite (fun hword => ?_) fun _ => .ite (fun hword => ?_) fun _ =>
      .ite (fun hword => ?_) fun _ => .ite (fun hword => ?_) fun _ =>
      .ite (fun hempty => ?_) fun _ => .throw _
    · refine .bind (takes_word _) fun _ _ ⟨equals, h₁, hequals⟩ _ _ => ?_
      refine .bind (takes_ofKind _) fun _ name ⟨h₂, hname⟩ _ _ => ?_
      refine .bind (takes_word _) fun _ _ ⟨semicolon, h₃, hend⟩ _ _ => ?_
      subst h₁ h₂ h₃
      refine (ih (by omega)).imp fun vs d ⟨skips, hfile⟩ => ?_
      exact ⟨skips, .version hword hequals hname hend hfile⟩
    · refine .bind (takes_ofKind _) fun _ name ⟨h₁, hname⟩ _ _ => ?_
      refine .bind (takes_word _) fun _ _ ⟨semicolon, h₂, hend⟩ _ _ => ?_
      subst h₁ h₂
      refine (ih (by omega)).imp fun vs d ⟨skips, hfile⟩ => ?_
      exact ⟨skips, .package hword hname hend hfile⟩
    · refine .bind takes_skipStatement fun us _ hus _ _ => ?_
      refine (ih (by omega)).imp fun vs d ⟨skips, hfile⟩ => ?_
      exact ⟨_, .skip hword hus hfile⟩
    · refine .bind takes_messageName fun _ _ ⟨name, opening, h₁, hname, h₂, hopen⟩ _ _ => ?_
      refine .remaining fun k _ => .bind (takes_messageBody (Nat.lt_succ_self k)) ?_
      intro us body ⟨skips, hbody⟩ _ _
      subst h₁ h₂
      refine (ih (by omega)).imp fun vs d ⟨skips', hfile⟩ => ?_
      have hmessage := IsFile.message hword hname hopen hbody hfile
      exact ⟨_, hmessage⟩
    · refine .bind (takes_enum []) fun us e ⟨skips, he⟩ _ _ => ?_
      refine (ih (by omega)).imp fun vs d ⟨skips', hfile⟩ => ?_
      exact ⟨_, .enum hword he hfile⟩
    · refine .bind takes_service fun us s ⟨skips, hs⟩ _ _ => ?_
      refine (ih (by omega)).imp fun vs d ⟨skips', hfile⟩ => ?_
      exact ⟨_, .service hword hs hfile⟩
    · refine (ih hfuel).imp fun vs d ⟨skips, hfile⟩ => ?_
      exact ⟨skips, .empty hempty hfile⟩

/-- What tokens declare has a reading. -/
theorem exists_isFile_of_ofTokens {ts : List Token} {d : Declarations}
    (h : Declarations.ofTokens ts = .ok d) : ∃ skips, IsFile {} ts d skips := by
  obtain ⟨⟨d', c'⟩, hrun, hret⟩ := map_eq_ok_iff.1 h
  cases hret
  exact (takesAll_topLevel (Nat.lt_succ_self _) _ _ _ hrun (Nat.le_refl _)).2

end FeltRelay.Schema.Definitions
