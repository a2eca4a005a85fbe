import FeltRelay.Proofs.Schema.Text
import FeltRelay.Schema.Layout
import Mathlib.Data.List.ProdSigma

/-!
# The comparison of layouts

Two messages are compatible if and only if some relation between messages holds of them and, with
any two messages, of the types of their fields (`sameMessages_iff`). The comparison assumes of a
pair that it has met before that it matches; the pairs that it has met in the end are such a
relation.
-/

namespace FeltRelay.Schema.Model

variable {m : Model} {R S : String → String → Prop}

/-- Two types have one layout if related messages have. -/
inductive Matches (m : Model) (R : String → String → Prop) : Ty → Ty → Prop
  | scalar (s : Scalar) : Matches m R (.scalar s) (.scalar s)
  | enum {a b : String} {spec spec' : Enumeration} (ha : m.enum? a = some spec)
      (hb : m.enum? b = some spec') (hlen : spec.variants.length = spec'.variants.length) :
      Matches m R (.enum a) (.enum b)
  | message {a b : String} (h : R a b) : Matches m R (.message a) (.message b)
  | optional {t u : Ty} (h : Matches m R t u) : Matches m R (.optional t) (.optional u)
  | array {t u : Ty} (h : Matches m R t u) : Matches m R (.array t) (.array u)

/-- A relation between declared messages that holds of their fields too, position by position. -/
structure IsLayoutRelation (m : Model) (R : String → String → Prop) : Prop where
  declared : ∀ {a b}, R a b → (m.message? a).isSome ∧ (m.message? b).isSome
  fields : ∀ {a b}, R a b → List.Forall₂ (m.Matches R) (m.fieldTypes a) (m.fieldTypes b)

theorem Matches.mono (hRS : ∀ a b, R a b → S a b) {t u : Ty} (h : m.Matches R t u) :
    m.Matches S t u := by
  induction h with
  | scalar s => exact .scalar s
  | enum ha hb hlen => exact .enum ha hb hlen
  | message h => exact .message (hRS _ _ h)
  | optional _ ih => exact .optional ih
  | array _ ih => exact .array ih

theorem Matches.symm {t u : Ty} (h : m.Matches R t u) : m.Matches (fun a b => R b a) u t := by
  induction h with
  | scalar s => exact .scalar s
  | enum ha hb hlen => exact .enum hb ha hlen.symm
  | message h => exact .message h
  | optional _ ih => exact .optional ih
  | array _ ih => exact .array ih

theorem Matches.trans {t u v : Ty} (h : m.Matches R t u) (h' : m.Matches S u v) :
    m.Matches (Relation.Comp R S) t v := by
  induction h generalizing v with
  | scalar s =>
    cases h'
    exact .scalar s
  | enum ha hb hlen =>
    cases h' with
    | enum hb' hc hlen' =>
      rw [hb] at hb'
      cases hb'
      exact .enum ha hc (hlen.trans hlen')
  | message h =>
    cases h' with
    | message h' => exact .message ⟨_, h, h'⟩
  | optional _ ih =>
    cases h' with
    | optional h' => exact .optional (ih h')
  | array _ ih =>
    cases h' with
    | array h' => exact .array (ih h')

/-! ### Relations -/

/-- Messages that are equal. -/
def SameMessage (m : Model) (a b : String) : Prop := a = b ∧ (m.message? a).isSome

theorem matches_self {t : Ty} (h : t.Declared m) : m.Matches m.SameMessage t t := by
  induction t with
  | scalar s => exact .scalar s
  | message name => exact .message ⟨rfl, h⟩
  | enum name =>
    obtain ⟨spec, hspec⟩ := Option.isSome_iff_exists.1 h
    exact .enum hspec hspec rfl
  | optional t ih => exact .optional (ih h)
  | array t ih => exact .array (ih h)

theorem declared_of_mem_fieldTypes (hm : m.Closed) {name : String} {t : Ty}
    (ht : t ∈ m.fieldTypes name) : t.Declared m := by
  rw [fieldTypes] at ht
  split at ht
  · rename_i spec hspec
    obtain ⟨f, hf, rfl⟩ := List.mem_map.1 ht
    exact hm spec (mem_of_message? hspec) f hf
  · cases ht

theorem isLayoutRelation_sameMessage (hm : m.Closed) : m.IsLayoutRelation m.SameMessage := by
  refine ⟨fun h => ?_, fun h => ?_⟩
  · obtain ⟨rfl, h⟩ := h
    exact ⟨h, h⟩
  · obtain ⟨rfl, -⟩ := h
    exact List.forall₂_same.2 fun t ht => matches_self (declared_of_mem_fieldTypes hm ht)

theorem IsLayoutRelation.symm (h : m.IsLayoutRelation R) :
    m.IsLayoutRelation (fun a b => R b a) :=
  ⟨fun hab => (h.declared hab).symm, fun hab => ((h.fields hab).imp fun _ _ ht => ht.symm).flip⟩

theorem Matches.trans_all {ts us vs : List Ty} (h : List.Forall₂ (m.Matches R) ts us)
    (h' : List.Forall₂ (m.Matches S) us vs) :
    List.Forall₂ (m.Matches (Relation.Comp R S)) ts vs := by
  induction h generalizing vs with
  | nil =>
    cases h'
    exact .nil
  | cons htu _ ih =>
    cases h' with
    | cons huv h' => exact .cons (htu.trans huv) (ih h')

theorem IsLayoutRelation.comp (h : m.IsLayoutRelation R) (h' : m.IsLayoutRelation S) :
    m.IsLayoutRelation (Relation.Comp R S) := by
  refine ⟨fun hac => ?_, fun hac => ?_⟩
  · obtain ⟨b, hab, hbc⟩ := hac
    exact ⟨(h.declared hab).1, (h'.declared hbc).2⟩
  · obtain ⟨b, hab, hbc⟩ := hac
    exact Matches.trans_all (h.fields hab) (h'.fields hbc)

/-! ### Related messages are found to match -/

theorem sameTy_of_matches {ofMessages : String → String → Pairs → Bool × Pairs}
    (hmsg : ∀ {a b}, R a b → ∀ seen, (ofMessages a b seen).1 = true) {t u : Ty}
    (h : m.Matches R t u) (seen : Pairs) : (m.sameTy ofMessages t u seen).1 = true := by
  induction h with
  | scalar s => simp [sameTy]
  | enum ha hb hlen => simp [sameTy, ha, hb, hlen]
  | message h => exact hmsg h seen
  | optional _ ih => exact ih
  | array _ ih => exact ih

theorem sameAll_of_matches {same : Ty → Ty → Pairs → Bool × Pairs} {ts us : List Ty}
    (h : List.Forall₂ (fun t u => ∀ seen, (same t u seen).1 = true) ts us) (seen : Pairs) :
    (sameAll same ts us seen).1 = true := by
  induction h generalizing seen with
  | nil => rfl
  | @cons t u ts us htu _ ih =>
    have hhead := htu seen
    rw [sameAll]
    cases hr : same t u seen with
    | mk found seen' =>
      rw [hr] at hhead
      obtain rfl : found = true := hhead
      exact ih seen'

theorem sameMessages_of_related (hR : m.IsLayoutRelation R) (budget : Nat) {a b : String}
    (h : R a b) (seen : Pairs) : (m.sameMessages budget a b seen).1 = true := by
  induction budget generalizing a b seen with
  | zero => rfl
  | succ budget ih =>
    have hfields := hR.fields h
    rw [sameMessages]
    split
    · rfl
    · rw [if_pos hfields.length_eq]
      exact sameAll_of_matches (hfields.imp fun _ _ ht => sameTy_of_matches ih ht) _

/-! ### What is found to match is related -/

/-- Pairs as a relation. -/
def InPairs (seen : Pairs) (a b : String) : Prop := (a, b) ∈ seen

/-- Distinct pairs of declared messages, with a budget for all that are not among them. -/
structure Room (m : Model) (budget : Nat) (seen : Pairs) : Prop where
  nodup : seen.Nodup
  declared : ∀ {a b}, InPairs seen a b → (m.message? a).isSome ∧ (m.message? b).isSome
  enough : m.messages.length * m.messages.length + 1 ≤ budget + seen.length

/-- There are no more pairs than those of declared messages. -/
theorem Room.budget_pos {budget : Nat} {seen : Pairs} (h : m.Room budget seen) : 0 < budget := by
  have hsub : seen ⊆ m.messages.map (·.name) ×ˢ m.messages.map (·.name) := by
    intro p hp
    obtain ⟨ha, hb⟩ := h.declared hp
    exact List.mem_product.2 ⟨isSome_message?_iff.1 ha, isSome_message?_iff.1 hb⟩
  have hle := (List.subperm_of_subset h.nodup hsub).length_le
  rw [List.length_product, List.length_map] at hle
  have := h.enough
  omega

theorem Room.cons {budget : Nat} {seen : Pairs} (h : m.Room (budget + 1) seen) {a b : String}
    (ha : (m.message? a).isSome) (hb : (m.message? b).isSome) (hnew : (a, b) ∉ seen) :
    m.Room budget ((a, b) :: seen) := by
  refine ⟨List.nodup_cons.2 ⟨hnew, h.nodup⟩, fun hmem => ?_, ?_⟩
  · rcases List.mem_cons.1 hmem with heq | hmem
    · cases heq
      exact ⟨ha, hb⟩
    · exact h.declared hmem
  · have := h.enough
    rw [List.length_cons]
    omega

/-- What a part of the comparison did to the pairs: the new ones match, given all of them. -/
structure Grows (m : Model) (budget : Nat) (seen seen' : Pairs) : Prop where
  room : m.Room budget seen'
  grows : ∀ {a b}, InPairs seen a b → InPairs seen' a b
  matched : ∀ {a b}, InPairs seen' a b → InPairs seen a b ∨
    List.Forall₂ (m.Matches (InPairs seen')) (m.fieldTypes a) (m.fieldTypes b)

theorem Grows.refl {budget : Nat} {seen : Pairs} (h : m.Room budget seen) :
    m.Grows budget seen seen := ⟨h, fun h => h, fun h => .inl h⟩

theorem Grows.trans {budget : Nat} {seen₁ seen₂ seen₃ : Pairs} (h : m.Grows budget seen₁ seen₂)
    (h' : m.Grows budget seen₂ seen₃) : m.Grows budget seen₁ seen₃ := by
  refine ⟨h'.room, fun hab => h'.grows (h.grows hab), fun hab => ?_⟩
  rcases h'.matched hab with hab | hfields
  · refine (h.matched hab).imp_right fun hfields => hfields.imp fun _ _ ht => ?_
    exact ht.mono fun _ _ => h'.grows
  · exact .inr hfields

/-- A comparison that finds a match has related what it compared. -/
def Finds (m : Model) (budget : Nat) (same : Pairs → Bool × Pairs)
    (related : (String → String → Prop) → Prop) : Prop :=
  ∀ seen seen', m.Room budget seen → same seen = (true, seen') →
    m.Grows budget seen seen' ∧ related (InPairs seen')

theorem finds_sameTy {budget : Nat} {ofMessages : String → String → Pairs → Bool × Pairs}
    (hmsg : ∀ a b, (m.message? a).isSome → (m.message? b).isSome →
      m.Finds budget (ofMessages a b) fun R => R a b) {t u : Ty} (ht : t.Declared m)
    (hu : u.Declared m) :
    m.Finds budget (m.sameTy ofMessages t u) fun R => m.Matches R t u := by
  intro seen seen' hroom h
  induction t generalizing u with
  | scalar s =>
    cases u with
    | scalar s' =>
      obtain ⟨heq, rfl⟩ := Prod.mk.inj h
      obtain rfl : s = s' := by simpa using heq
      exact ⟨.refl hroom, .scalar s⟩
    | _ => cases h
  | message a =>
    cases u with
    | message b =>
      obtain ⟨hgrows, hab⟩ := hmsg a b ht hu seen seen' hroom h
      exact ⟨hgrows, .message hab⟩
    | _ => cases h
  | enum a =>
    cases u with
    | enum b =>
      obtain ⟨hlen, rfl⟩ := Prod.mk.inj h
      obtain ⟨spec, hspec⟩ := Option.isSome_iff_exists.1 ht
      obtain ⟨spec', hspec'⟩ := Option.isSome_iff_exists.1 hu
      rw [hspec, hspec'] at hlen
      exact ⟨.refl hroom, .enum hspec hspec' (by simpa using hlen)⟩
    | _ => cases h
  | optional t ih =>
    cases u with
    | optional u =>
      have hu' : u.Declared m := hu
      exact (ih ht hu' h).imp_right .optional
    | _ => cases h
  | array t ih =>
    cases u with
    | array u =>
      have hu' : u.Declared m := hu
      exact (ih ht hu' h).imp_right .array
    | _ => cases h

theorem finds_sameAll {budget : Nat} {same : Ty → Ty → Pairs → Bool × Pairs} {ts us : List Ty}
    (hsame : ∀ t ∈ ts, ∀ u ∈ us, m.Finds budget (same t u) fun R => m.Matches R t u) :
    m.Finds budget (sameAll same ts us) fun R => List.Forall₂ (m.Matches R) ts us := by
  intro seen seen' hroom h
  induction ts generalizing us seen with
  | nil =>
    cases us with
    | nil =>
      cases h
      exact ⟨.refl hroom, .nil⟩
    | cons u us => cases h
  | cons t ts ih =>
    cases us with
    | nil => cases h
    | cons u us =>
      rw [sameAll] at h
      split at h
      · rename_i seen₁ hhead
        obtain ⟨hgrows, htu⟩ :=
          hsame t (List.mem_cons_self ..) u (List.mem_cons_self ..) seen seen₁ hroom hhead
        obtain ⟨hgrows', hrest⟩ := ih (fun t ht u hu => hsame t (List.mem_cons_of_mem _ ht) u
          (List.mem_cons_of_mem _ hu)) seen₁ hgrows.room h
        exact ⟨hgrows.trans hgrows', .cons (htu.mono fun _ _ => hgrows'.grows) hrest⟩
      · cases h

theorem finds_sameMessages (hm : m.Closed) (budget : Nat) {a b : String}
    (ha : (m.message? a).isSome) (hb : (m.message? b).isSome) :
    m.Finds budget (m.sameMessages budget a b) fun R => R a b := by
  induction budget generalizing a b with
  | zero => exact fun seen seen' hroom => absurd hroom.budget_pos (Nat.lt_irrefl 0)
  | succ budget ih =>
    intro seen seen' hroom h
    rw [sameMessages] at h
    split at h
    · rename_i hmem
      cases h
      exact ⟨.refl hroom, List.contains_iff_mem.1 hmem⟩
    · rename_i hnew
      have hroom' := hroom.cons ha hb (by simpa using hnew)
      split at h
      · obtain ⟨hgrows, hfields⟩ := finds_sameAll (fun t ht u hu =>
          finds_sameTy (fun a b ha hb => ih ha hb) (declared_of_mem_fieldTypes hm ht)
            (declared_of_mem_fieldTypes hm hu)) _ _ hroom' h
        have hab : InPairs seen' a b := hgrows.grows (List.mem_cons_self ..)
        -- The budget of the inner comparisons is smaller by one than that of this one.
        have hroom'' : m.Room (budget + 1) seen' :=
          ⟨hgrows.room.nodup, hgrows.room.declared, by have := hgrows.room.enough; omega⟩
        refine ⟨⟨hroom'', fun h => hgrows.grows (List.mem_cons_of_mem _ h), fun h => ?_⟩, hab⟩
        rcases hgrows.matched h with hmem | hmatched
        · rcases List.mem_cons.1 hmem with heq | hmem
          · cases heq
            exact .inr hfields
          · exact .inl hmem
        · exact .inr hmatched
      · cases h

/-- Two declared messages are found to match if and only if a relation of layouts holds of them. -/
theorem sameMessages_iff (hm : m.Closed) {a b : String} (ha : (m.message? a).isSome)
    (hb : (m.message? b).isSome) :
    (m.sameMessages (m.messages.length * m.messages.length + 1) a b []).1 = true ↔
      ∃ R, m.IsLayoutRelation R ∧ R a b := by
  constructor
  · intro h
    have hroom : m.Room (m.messages.length * m.messages.length + 1) [] :=
      ⟨List.nodup_nil, fun h => absurd h List.not_mem_nil, Nat.le_add_right ..⟩
    obtain ⟨hgrows, hab⟩ := finds_sameMessages hm _ ha hb [] _ hroom (Prod.ext h rfl)
    refine ⟨_, ⟨hgrows.room.declared, fun h => ?_⟩, hab⟩
    exact (hgrows.matched h).resolve_left List.not_mem_nil
  · rintro ⟨R, hR, hab⟩
    exact sameMessages_of_related hR _ hab []

theorem wireCompatible_eq {a b : String} (ha : (m.message? a).isSome) (hb : (m.message? b).isSome) :
    m.wireCompatible a b =
      .ok (m.sameMessages (m.messages.length * m.messages.length + 1) a b []).1 := by
  obtain ⟨spec, hspec⟩ := Option.isSome_iff_exists.1 ha
  obtain ⟨spec', hspec'⟩ := Option.isSome_iff_exists.1 hb
  have hname : spec.name = a := by simpa using List.find?_some hspec
  have hname' : spec'.name = b := by simpa using List.find?_some hspec'
  rw [wireCompatible, message_of_message? hspec, message_of_message? hspec', ok_bind, ok_bind, hname,
    hname', pure_eq_ok]

theorem wireCompatible_iff (hm : m.Closed) {a b : String} :
    m.wireCompatible a b = .ok true ↔ ∃ R, m.IsLayoutRelation R ∧ R a b := by
  constructor
  · intro h
    obtain ⟨spec, hspec, h'⟩ := bind_eq_ok_iff.1 h
    obtain ⟨spec', hspec', -⟩ := bind_eq_ok_iff.1 h'
    have ha : (m.message? a).isSome := by rw [message_eq_ok hspec]; rfl
    have hb : (m.message? b).isSome := by rw [message_eq_ok hspec']; rfl
    rw [wireCompatible_eq ha hb, Except.ok.injEq] at h
    exact (sameMessages_iff hm ha hb).1 h
  · rintro ⟨R, hR, hab⟩
    obtain ⟨ha, hb⟩ := hR.declared hab
    rw [wireCompatible_eq ha hb, (sameMessages_iff hm ha hb).2 ⟨R, hR, hab⟩]

end FeltRelay.Schema.Model
