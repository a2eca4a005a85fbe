import FeltRelay.Proofs.Entries
import FeltRelay.Proofs.Result
import FeltRelay.Schema.Containment
import Mathlib.Data.List.Chain
import Mathlib.Data.List.Perm.Subperm
import Mathlib.Logic.Relation

/-!
# Messages within themselves

A model is acyclic if no message contains itself through plain message fields. The walk over the
fields accepts exactly the acyclic models (`checkContainment_eq_ok_iff`), whatever the order of the
messages, and names a field on a cycle of any other one (`checkContainment_exact`). In an accepted
model each message has a height above those that it contains (`exists_height`).
-/

namespace FeltRelay.Schema.Model

variable {m : Model}

/-- A message holds another one whole. -/
def Contains (m : Model) (a b : String) : Prop := ∃ field, (field, b) ∈ m.plainFields a

/-- No message contains itself. -/
def Acyclic (m : Model) : Prop := ∀ name, ¬Relation.TransGen m.Contains name name

/-- What a message contains was finished before it; what is finished later stands in front. -/
def Layered (m : Model) : List String → Prop
  | [] => True
  | name :: rest => name ∉ rest ∧ (∀ inner, m.Contains name inner → inner ∈ rest) ∧ m.Layered rest

theorem declared_of_contains {a b : String} (h : m.Contains a b) : (m.message? a).isSome := by
  obtain ⟨field, hf⟩ := h
  unfold plainFields at hf
  split at hf
  · rename_i spec hs
    rw [hs]
    rfl
  · cases hf

theorem mem_names_of_declared {a : String} (h : (m.message? a).isSome) :
    a ∈ m.messages.map (·.name) := by
  obtain ⟨spec, hs⟩ := Option.isSome_iff_exists.1 h
  have hname : spec.name = a := by simpa using List.find?_some hs
  rw [← hname]
  exact List.mem_map_of_mem (List.mem_of_find?_eq_some hs)

theorem Layered.nodup {l : List String} (h : m.Layered l) : l.Nodup := by
  induction l with
  | nil => exact List.nodup_nil
  | cons name rest ih => exact List.nodup_cons.2 ⟨h.1, ih h.2.2⟩

/-- What a finished message contains lies behind it. -/
theorem Layered.idxOf_lt {l : List String} (h : m.Layered l) {a b : String} (ha : a ∈ l)
    (hab : m.Contains a b) : b ∈ l ∧ l.idxOf a < l.idxOf b := by
  induction l with
  | nil => cases ha
  | cons name rest ih =>
    by_cases hn : a = name
    · subst hn
      have hb := h.2.1 b hab
      have hne : a ≠ b := fun he => h.1 (he ▸ hb)
      refine ⟨List.mem_cons_of_mem _ hb, ?_⟩
      rw [List.idxOf_cons_self, List.idxOf_cons_ne _ hne]
      omega
    · have hrest : a ∈ rest := (List.mem_cons.1 ha).resolve_left hn
      obtain ⟨hb, hlt⟩ := ih h.2.2 hrest
      have hne : name ≠ b := fun he => h.1 (he ▸ hb)
      refine ⟨List.mem_cons_of_mem _ hb, ?_⟩
      rw [List.idxOf_cons_ne _ (Ne.symm hn), List.idxOf_cons_ne _ hne]
      omega

/-! ### The walk -/

/-- What a part of the walk below `path` did to the finished messages. -/
structure Extends (m : Model) (path done done' : List String) : Prop where
  layered : m.Layered done'
  grows : ∀ a ∈ done, a ∈ done'
  apart : ∀ a ∈ path, a ∉ done'
  named : ∀ a ∈ done', a ∈ done ∨ (m.message? a).isSome ∨ ∃ b, m.Contains b a

theorem Extends.refl {path done : List String} (hl : m.Layered done) (ha : ∀ a ∈ path, a ∉ done) :
    m.Extends path done done :=
  ⟨hl, fun _ h => h, ha, fun _ h => .inl h⟩

theorem Extends.trans {path done₁ done₂ done₃ : List String} (h : m.Extends path done₁ done₂)
    (h' : m.Extends path done₂ done₃) : m.Extends path done₁ done₃ := by
  refine ⟨h'.layered, fun a ha => h'.grows a (h.grows a ha), h'.apart, fun a ha => ?_⟩
  rcases h'.named a ha with h₂ | h₂
  · exact h.named a h₂
  · exact .inr h₂

/-- A path of messages, each of which is contained in the next one, is no longer than the model. -/
theorem length_path_le {path : List String} (hnd : path.Nodup)
    (hd : ∀ a ∈ path, (m.message? a).isSome) : path.length ≤ m.messages.length := by
  have hsub : path ⊆ m.messages.map (·.name) := fun a ha => mem_names_of_declared (hd a ha)
  have hle := (List.subperm_of_subset hnd hsub).length_le
  rwa [List.length_map] at hle

/-- The state of the walk when it comes to a message: the messages around it contain one another,
and the budget suffices for those that are not on the path. -/
structure Walks (m : Model) (budget : Nat) (path : List String) (name : String) : Prop where
  nodup : path.Nodup
  fresh : name ∉ path
  chain : (name :: path).IsChain fun inner outer => m.Contains outer inner
  room : path.length + budget = m.messages.length + 1

theorem Walks.declared {budget : Nat} {path : List String} {name : String}
    (h : m.Walks budget path name) : ∀ a ∈ path, (m.message? a).isSome := by
  have hchain := h.chain
  clear h
  induction path generalizing name with
  | nil => intro a ha; cases ha
  | cons outer path ih =>
    intro a ha
    have h2 := List.isChain_cons_cons.1 hchain
    rcases List.mem_cons.1 ha with rfl | ha
    · exact declared_of_contains h2.1
    · exact ih h2.2 a ha

/-- The budget is never spent. -/
theorem Walks.budget_pos {budget : Nat} {path : List String} {name : String}
    (h : m.Walks budget path name) : 0 < budget := by
  have := length_path_le h.nodup h.declared
  have := h.room
  omega

theorem Walks.inner {budget : Nat} {path : List String} {name inner : String}
    (h : m.Walks (budget + 1) path name) (hc : m.Contains name inner)
    (hf : inner ∉ name :: path) : m.Walks budget (name :: path) inner := by
  refine ⟨List.nodup_cons.2 ⟨h.fresh, h.nodup⟩, hf, List.isChain_cons_cons.2 ⟨hc, h.chain⟩, ?_⟩
  have := h.room
  simp only [List.length_cons]
  omega

/-- Along a path each message is contained in those behind it. -/
theorem Walks.contained {budget : Nat} {path : List String} {name : String}
    (h : m.Walks budget path name) {a : String} (ha : a ∈ name :: path) :
    Relation.ReflTransGen m.Contains a name := by
  have hchain := h.chain
  clear h
  induction path generalizing name with
  | nil =>
    rw [List.mem_singleton.1 ha]
  | cons outer path ih =>
    have h2 := List.isChain_cons_cons.1 hchain
    rcases List.mem_cons.1 ha with rfl | ha
    · exact .refl
    · exact (ih ha h2.2).tail h2.1

/-- A failure that names a field on a cycle: what the field holds contains the field's message. -/
def OnCycle (m : Model) (f : Failure) : Prop :=
  ∃ owner field inner, f = .unsupportedField owner field "recursive message" ∧
    (field, inner) ∈ m.plainFields owner ∧ Relation.ReflTransGen m.Contains inner owner

/-- What a part of the walk gives: the messages that it was to finish, or a field on a cycle. -/
def Explored (m : Model) (path done : List String) (targets : List String) :
    Except Failure (List String) → Prop
  | .ok done' => m.Extends path done done' ∧ ∀ a ∈ targets, a ∈ done'
  | .error f => m.OnCycle f

theorem Explored.cons {path done done₁ : List String} {a : String} {targets : List String}
    {r : Except Failure (List String)} (h : m.Explored path done [a] (.ok done₁))
    (h' : m.Explored path done₁ targets r) : m.Explored path done (a :: targets) r := by
  cases r with
  | error f => exact h'
  | ok done₂ =>
    refine ⟨h.1.trans h'.1, fun b hb => ?_⟩
    rcases List.mem_cons.1 hb with rfl | hb
    · exact h'.1.grows _ (h.2 _ (List.mem_singleton_self _))
    · exact h'.2 b hb

/-- There is nothing to report in an acyclic model. -/
theorem Explored.exists_ok {path done targets : List String} {r : Except Failure (List String)}
    (h : m.Explored path done targets r) (ha : m.Acyclic) : ∃ done', r = .ok done' := by
  cases r with
  | ok done' => exact ⟨done', rfl⟩
  | error f =>
    obtain ⟨owner, field, inner, -, hmem, hback⟩ := h
    exact absurd (Relation.TransGen.head' ⟨field, hmem⟩ hback) (ha owner)

/-- A message is finished after the messages that it contains. -/
theorem Explored.finish {budget : Nat} {path done : List String} {name : String}
    {r : Except Failure (List String)} (hw : m.Walks budget path name)
    (hn : (m.message? name).isSome ∨ ∃ b, m.Contains b name)
    (h : m.Explored (name :: path) done ((m.plainFields name).map (·.2)) r) :
    m.Explored path done [name] (r >>= fun done => pure (name :: done)) := by
  cases r with
  | error f => exact h
  | ok done₁ =>
    obtain ⟨hext, hall⟩ := h
    have hbelow : ∀ inner, m.Contains name inner → inner ∈ done₁ := by
      rintro inner ⟨field, hmem⟩
      exact hall inner (List.mem_map_of_mem (f := (·.2)) hmem)
    refine ⟨⟨⟨hext.apart name (List.mem_cons_self ..), hbelow, hext.layered⟩,
      fun a h => List.mem_cons_of_mem _ (hext.grows a h), fun a h hin => ?_, fun a h => ?_⟩,
      by simp⟩
    · rcases List.mem_cons.1 hin with rfl | hin
      · exact hw.fresh h
      · exact hext.apart a (List.mem_cons_of_mem _ h) hin
    · rcases List.mem_cons.1 h with rfl | h
      · exact .inr hn
      · exact hext.named a h

/-- The fields of a message, given that each message below is explored. -/
theorem explored_fields {budget : Nat} {path : List String} {name : String}
    (hw : m.Walks (budget + 1) path name)
    (visited : ∀ {done : List String} {inner : String}, m.Walks budget (name :: path) inner →
      m.Contains name inner → m.Layered done → (∀ a ∈ name :: path, a ∉ done) →
      m.Explored (name :: path) done [inner] (m.visit budget (name :: path) done inner))
    (fields : List (String × String)) (hf : ∀ e ∈ fields, e ∈ m.plainFields name)
    {done : List String} (hl : m.Layered done) (ha : ∀ a ∈ name :: path, a ∉ done) :
    m.Explored (name :: path) done (fields.map (·.2))
      (fields.foldlM (fun done (field, inner) =>
        if (name :: path).contains inner then
          .error (.unsupportedField name field "recursive message")
        else m.visit budget (name :: path) done inner) done) := by
  induction fields generalizing done with
  | nil => exact ⟨.refl hl ha, by simp⟩
  | cons e fields ih =>
    obtain ⟨field, inner⟩ := e
    have hmem : (field, inner) ∈ m.plainFields name := hf _ (List.mem_cons_self ..)
    have hrest : ∀ e ∈ fields, e ∈ m.plainFields name := fun e he => hf e (List.mem_cons_of_mem _ he)
    rw [List.foldlM_cons]
    by_cases hin : (name :: path).contains inner = true
    -- What the field holds lies on the path, which leads back to the message.
    · simp only [hin, if_true, error_bind]
      have hcontained := hw.contained (by simpa using hin : inner ∈ name :: path)
      exact ⟨name, field, inner, rfl, hmem, hcontained⟩
    · simp only [hin, if_false, Bool.false_eq_true]
      have hfresh : inner ∉ name :: path := by simpa using hin
      have hv := visited (hw.inner ⟨field, hmem⟩ hfresh) ⟨field, hmem⟩ hl ha
      cases hr : m.visit budget (name :: path) done inner with
      | error f =>
        rw [hr] at hv
        exact hv
      | ok done₁ =>
        rw [hr] at hv
        exact hv.cons (ih hrest hv.1.layered hv.1.apart)

theorem explored_visit (budget : Nat) {path done : List String} {name : String}
    (hw : m.Walks budget path name) (hn : (m.message? name).isSome ∨ ∃ b, m.Contains b name)
    (hl : m.Layered done) (ha : ∀ a ∈ path, a ∉ done) :
    m.Explored path done [name] (m.visit budget path done name) := by
  induction budget generalizing path done name with
  -- A spent budget would mean a path through more messages than there are.
  | zero => exact absurd hw.budget_pos (Nat.lt_irrefl 0)
  | succ budget ih =>
    rw [visit]
    by_cases hd : done.contains name = true
    · rw [if_pos hd]
      exact ⟨.refl hl ha, by simpa using hd⟩
    · rw [if_neg hd]
      have hfresh : name ∉ done := by simpa using hd
      have happ : ∀ a ∈ name :: path, a ∉ done := by
        intro a ha'
        rcases List.mem_cons.1 ha' with rfl | ha'
        · exact hfresh
        · exact ha a ha'
      exact (explored_fields hw (fun h hc => ih h (.inr ⟨_, hc⟩)) (m.plainFields name)
        (fun _ h => h) hl happ).finish hw hn

/-- The whole walk finishes every message, or names a field on a cycle. -/
theorem explored_messages (messages : List Message) (hsub : ∀ s ∈ messages, s ∈ m.messages)
    {done : List String} (hl : m.Layered done) :
    m.Explored [] done (messages.map (·.name))
      (messages.foldlM (fun done spec => m.visit (m.messages.length + 1) [] done spec.name) done)
    := by
  induction messages generalizing done with
  | nil => exact ⟨.refl hl (by simp), by simp⟩
  | cons spec messages ih =>
    have hmem := hsub spec (List.mem_cons_self ..)
    have hdecl : (m.message? spec.name).isSome := by
      rw [message?, List.find?_isSome]
      exact ⟨spec, hmem, by simp⟩
    have hw : m.Walks (m.messages.length + 1) [] spec.name :=
      ⟨List.nodup_nil, by simp, List.isChain_singleton _, by simp⟩
    have hv := explored_visit _ hw (.inl hdecl) hl (by simp)
    rw [List.foldlM_cons]
    cases hr : m.visit (m.messages.length + 1) [] done spec.name with
    | error f =>
      rw [hr] at hv
      exact hv
    | ok done₁ =>
      rw [hr] at hv
      exact hv.cons (ih (fun s hs => hsub s (List.mem_cons_of_mem _ hs)) hv.1.layered)

/-- An accepted model has an order in which each message stands before those that contain it. -/
theorem exists_layered (h : m.checkContainment = .ok ()) :
    ∃ done, m.Layered done ∧ (∀ s ∈ m.messages, s.name ∈ done) ∧
      ∀ a ∈ done, (m.message? a).isSome ∨ ∃ b, m.Contains b a := by
  have hall := explored_messages m.messages (fun _ h => h) (show m.Layered [] from trivial)
  rw [checkContainment] at h
  obtain ⟨done, hdone, -⟩ := bind_eq_ok_iff.1 h
  rw [hdone] at hall
  refine ⟨done, hall.1.layered, fun s hs => hall.2 _ (List.mem_map_of_mem hs), fun a ha => ?_⟩
  exact (hall.1.named a ha).resolve_left (by simp)

/-- The walk accepts exactly the acyclic models. -/
theorem checkContainment_eq_ok_iff : m.checkContainment = .ok () ↔ m.Acyclic := by
  constructor
  · intro h name hcycle
    obtain ⟨done, hl, hall, -⟩ := exists_layered h
    -- Containment leads down the order of finished messages, so no cycle closes.
    have hlt : ∀ {a b}, Relation.TransGen m.Contains a b → a ∈ done →
        b ∈ done ∧ done.idxOf a < done.idxOf b := by
      intro a b hab ha
      induction hab with
      | single hab => exact hl.idxOf_lt ha hab
      | tail _ hbc ih =>
        obtain ⟨hb, hlt⟩ := ih
        obtain ⟨hc, hlt'⟩ := hl.idxOf_lt hb hbc
        exact ⟨hc, by omega⟩
    obtain ⟨inner, hinner, -⟩ := Relation.TransGen.head'_iff.1 hcycle
    obtain ⟨spec, hspec, hname⟩ :=
      List.mem_map.1 (mem_names_of_declared (declared_of_contains hinner))
    have hmem : name ∈ done := hname ▸ hall spec hspec
    exact Nat.lt_irrefl _ (hlt hcycle hmem).2
  · intro h
    have hall := explored_messages m.messages (fun _ h => h) (show m.Layered [] from trivial)
    obtain ⟨done, hdone⟩ := hall.exists_ok h
    rw [checkContainment, hdone]
    rfl

/-- In an accepted model that declares what it refers to, a message is higher than those that it
contains, and no higher than there are messages. -/
theorem exists_height (h : m.checkContainment = .ok ())
    (hclosed : ∀ a b, m.Contains a b → (m.message? b).isSome) :
    ∃ height : String → Nat, (∀ a b, m.Contains a b → height b < height a) ∧
      ∀ a, height a ≤ m.messages.length := by
  obtain ⟨done, hl, hall, hnamed⟩ := exists_layered h
  refine ⟨fun a => done.length - done.idxOf a, fun a b hab => ?_, fun a => ?_⟩
  · obtain ⟨spec, hspec, rfl⟩ := List.mem_map.1 (mem_names_of_declared (declared_of_contains hab))
    obtain ⟨hb, hlt⟩ := hl.idxOf_lt (hall spec hspec) hab
    have hlen := List.idxOf_lt_length_of_mem hb
    dsimp only
    omega
  · have hdecl : ∀ a ∈ done, (m.message? a).isSome := by
      intro a ha
      rcases hnamed a ha with hd | ⟨b, hb⟩
      · exact hd
      · exact hclosed b a hb
    have := length_path_le hl.nodup hdecl
    dsimp only
    omega

/-! ### The graph of plain fields -/

/-- The first message declares a field that holds the second one whole. -/
def Holds (m : Model) (a b : String) : Prop :=
  ∃ spec ∈ m.messages, spec.name = a ∧ ∃ f ∈ spec.fields, f.type = .message b

theorem message?_eq_some_iff (hnames : (m.messages.map (·.name)).Nodup) {a : String}
    {spec : Message} : m.message? a = some spec ↔ spec ∈ m.messages ∧ spec.name = a := by
  constructor
  · intro h
    exact ⟨List.mem_of_find?_eq_some h, by simpa using List.find?_some h⟩
  · rintro ⟨hmem, rfl⟩
    exact Entries.find?_of_nodup hnames hmem

theorem mem_plainFields_iff (hnames : (m.messages.map (·.name)).Nodup) {a field b : String} :
    (field, b) ∈ m.plainFields a ↔ ∃ spec ∈ m.messages, spec.name = a ∧
      ∃ f ∈ spec.fields, f.name = field ∧ f.type = .message b := by
  have hplain : ∀ t : Ty, t.plainMessage? = some b ↔ t = .message b := by
    intro t
    cases t <;> simp [Ty.plainMessage?]
  unfold plainFields
  constructor
  · intro h
    split at h
    · rename_i spec hspec
      obtain ⟨f, hf, hpair⟩ := List.mem_filterMap.1 h
      obtain ⟨n, hn, heq⟩ := Option.map_eq_some_iff.1 hpair
      cases heq
      obtain ⟨hmem, hname⟩ := (message?_eq_some_iff hnames).1 hspec
      exact ⟨spec, hmem, hname, f, hf, rfl, (hplain f.type).1 hn⟩
    · cases h
  · rintro ⟨spec, hmem, hname, f, hf, rfl, ht⟩
    rw [(message?_eq_some_iff hnames).2 ⟨hmem, hname⟩]
    exact List.mem_filterMap.2 ⟨f, hf, by rw [ht]; rfl⟩

theorem contains_eq_holds (hnames : (m.messages.map (·.name)).Nodup) : m.Contains = m.Holds := by
  funext a b
  apply propext
  constructor
  · rintro ⟨field, h⟩
    obtain ⟨spec, hmem, hname, f, hf, -, ht⟩ := (mem_plainFields_iff hnames).1 h
    exact ⟨spec, hmem, hname, f, hf, ht⟩
  · rintro ⟨spec, hmem, hname, f, hf, ht⟩
    exact ⟨f.name, (mem_plainFields_iff hnames).2 ⟨spec, hmem, hname, f, hf, rfl, ht⟩⟩

/-- The order of messages does not matter to what they hold. -/
theorem holds_of_perm {messages : List Message} (h : messages.Perm m.messages) :
    ({ m with messages } : Model).Holds = m.Holds := by
  funext a b
  simp only [Holds, h.mem_iff]

theorem onCycle_of_error {f : Failure} (h : m.checkContainment = .error f) : m.OnCycle f := by
  have hall := explored_messages m.messages (fun _ h => h) (show m.Layered [] from trivial)
  rw [checkContainment] at h
  rcases bind_eq_error_iff.1 h with h | ⟨done, -, h⟩
  · rw [h] at hall
    exact hall
  · cases h

theorem exists_error_iff (hnames : (m.messages.map (·.name)).Nodup) :
    (∃ f, m.checkContainment = .error f) ↔ ∃ name, Relation.TransGen m.Holds name name := by
  have hok : m.checkContainment = .ok () ↔ ¬∃ name, Relation.TransGen m.Holds name name := by
    rw [checkContainment_eq_ok_iff, Acyclic, contains_eq_holds hnames, not_exists]
  rw [← not_iff_not, ← hok]
  cases m.checkContainment with
  | ok u => simp
  | error f => simp

/-- A model is refused if and only if the graph of its plain fields has a cycle. The field that the
refusal names is an edge of one: what it holds leads back to its message. In whatever order the
messages are declared, all are accepted or all are refused. -/
theorem checkContainment_exact (hnames : (m.messages.map (·.name)).Nodup) :
    ((∃ f, m.checkContainment = .error f) ↔ ∃ name, Relation.TransGen m.Holds name name) ∧
    (∀ f, m.checkContainment = .error f → ∃ spec ∈ m.messages, ∃ field ∈ spec.fields, ∃ inner,
      f = .unsupportedField spec.name field.name "recursive message" ∧
        field.type = .message inner ∧ Relation.ReflTransGen m.Holds inner spec.name) ∧
    ∀ messages, messages.Perm m.messages →
      ((∃ f, ({ m with messages } : Model).checkContainment = .error f) ↔
        ∃ f, m.checkContainment = .error f) := by
  refine ⟨exists_error_iff hnames, fun f h => ?_, fun messages hperm => ?_⟩
  · obtain ⟨owner, field, inner, rfl, hmem, hback⟩ := onCycle_of_error h
    obtain ⟨spec, hspec, rfl, g, hg, rfl, ht⟩ := (mem_plainFields_iff hnames).1 hmem
    rw [contains_eq_holds hnames] at hback
    exact ⟨spec, hspec, g, hg, inner, rfl, ht, hback⟩
  · have hnames' : (({ m with messages } : Model).messages.map (·.name)).Nodup :=
      (hperm.map _).nodup_iff.2 hnames
    rw [exists_error_iff hnames', exists_error_iff hnames, holds_of_perm hperm]

/-- Two messages that hold each other, behind one that holds the second and may hold itself. -/
def ringed : Model where
  package := none
  messages := [⟨"Lead", [⟨"next", .optional (.message "Lead")⟩, ⟨"loop", .message "Loop"⟩]⟩,
    ⟨"Top", [⟨"loop", .message "Loop"⟩]⟩,
    ⟨"Loop", [⟨"x", .scalar (.unsigned .w8)⟩, ⟨"top", .message "Top"⟩]⟩]
  enums := []
  services := []

/-- `ringed` is refused on account of the two, and so it is with its messages the other way round. -/
theorem checkContainment_exact_ringed : (ringed.messages.map (·.name)).Nodup ∧
    (∃ f, ringed.checkContainment = .error f ∧ ∃ spec ∈ ringed.messages, ∃ field ∈ spec.fields,
      ∃ inner, f = .unsupportedField spec.name field.name "recursive message" ∧
        field.type = .message inner ∧ Relation.ReflTransGen ringed.Holds inner spec.name) ∧
    ∃ f, ({ ringed with messages := ringed.messages.reverse } : Model).checkContainment =
      .error f := by
  have hnames : (ringed.messages.map (·.name)).Nodup := by decide
  obtain ⟨hiff, hedge, hperm⟩ := checkContainment_exact hnames
  have hout : ringed.Holds "Top" "Loop" := by
    refine ⟨_, List.mem_cons_of_mem _ (List.mem_cons_self ..), rfl, ?_⟩
    exact ⟨_, List.mem_cons_self .., rfl⟩
  have hback : ringed.Holds "Loop" "Top" := by
    refine ⟨_, List.mem_cons_of_mem _ (List.mem_cons_of_mem _ (List.mem_cons_self ..)), rfl, ?_⟩
    exact ⟨_, List.mem_cons_of_mem _ (List.mem_cons_self ..), rfl⟩
  obtain ⟨f, hf⟩ := hiff.2 ⟨"Top", (Relation.TransGen.single hout).tail hback⟩
  exact ⟨hnames, ⟨f, hf, hedge f hf⟩, (hperm _ (List.reverse_perm _)).2 ⟨f, hf⟩⟩

end FeltRelay.Schema.Model
