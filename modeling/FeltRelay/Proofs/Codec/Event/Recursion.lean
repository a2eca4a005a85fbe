import FeltRelay.Proofs.Codec.Event.Continued
import FeltRelay.Proofs.Codec.Event.Relocated
import FeltRelay.Proofs.Codec.Flat.Recursion

/-!
# The recursion of event decoding

The event decoder without a bound on its depth or on the items of an array: what a type asks of other
types, and what an array asks of its later items, is asked of a function that is handed in (`step`).
Every value takes an event, so each call but that for an item has fewer events left, and an item is
no array still to be closed. So the recursion ends, and what it gives is the decoder
(`terminates_perform`).
-/

namespace FeltRelay.Codec.Event

open FeltRelay.Schema

variable {m : Model} {modulus : Int} {height : String → Nat}

/-- What the decoder is at: a value, or an array of which some items have been read. -/
inductive Task where
  | value (t : Ty)
  | items (t : Ty) (read : List Json)

def Task.type : Task → Ty
  | value t => t
  | items t _ => t

/-- The decoder, asking for the values inside a value. -/
def step (m : Model) (modulus : Int) (self : Task → Decoder Json) : Task → Decoder Json
  | .value (.optional t) => do
    expect "push" Container.optional.name
    if ← atPop .optional then
      modify (·.advance 1)
      return .null
    let v ← self (.value t)
    expect "pop" Container.optional.name
    return v
  | .value (.array t) => do
    expect "push" Container.array.name
    self (.items t [])
  | .value (.message name) => do
    let spec ← m.message name
    expect "push" Container.struct.name
    let ms ← decodeFields (fun t => self (.value t)) [] spec.fields
    expect "pop" Container.struct.name
    return .obj ms
  | .value t => decodeTy m modulus (fun name => self (.value (.message name))) t
  | .items t vs => do
    if ← atPop .array then
      modify (·.advance 1)
      return .arr vs
    let v ← self (.value t)
    self (.items t (vs ++ [v]))

/-- The calls that a call may make, and on what is left of the input. -/
inductive Below (m : Model) : Task × Input → Task × Input → Prop
  | present {t : Ty} {s s' : Input} (h : s'.rest.length < s.rest.length) :
    Below m (.value t, s') (.value (.optional t), s)
  | array {t : Ty} {vs : List Json} {s s' : Input} (h : s'.rest.length < s.rest.length) :
    Below m (.items t vs, s') (.value (.array t), s)
  | field {name : String} {spec : Message} {f : Field} {s s' : Input}
    (hspec : m.message? name = some spec) (hf : f ∈ spec.fields)
    (h : s'.rest.length < s.rest.length) : Below m (.value f.type, s') (.value (.message name), s)
  | item {t : Ty} {vs : List Json} {s : Input} : Below m (.value t, s) (.items t vs, s)
  | next {t : Ty} {vs vs' : List Json} {s s' : Input} (h : s'.rest.length < s.rest.length) :
    Below m (.items t vs', s') (.items t vs, s)

/-- What is left of the input, then the height of the message, then the size of the type. A loop over
items stands above every type. -/
def rank (m : Model) (height : String → Nat) : Task × Input → Rank
  | (.value t, s) => .mk s.rest.length (Flat.heightTy height t) (Flat.sizeTy t)
  | (.items _ _, s) => .mk s.rest.length (m.messages.length + 2) 0

theorem rank_lt_of_below (hheight : ∀ a, height a ≤ m.messages.length) {inner c : Task × Input}
    (h : Below m inner c) : rank m height inner < rank m height c := by
  cases h with
  | present h => exact Rank.lt_of_rest h ..
  | array h => exact Rank.lt_of_rest h ..
  | field hspec hf h => exact Rank.lt_of_rest h ..
  | @item t =>
    have := Flat.heightTy_le hheight t
    exact Rank.lt_of_height (Nat.le_refl _) (by omega) ..
  | next h => exact Rank.lt_of_rest h ..

theorem length_le_of_below {inner c : Task × Input} (h : Below m inner c) :
    inner.2.rest.length ≤ c.2.rest.length := by
  cases h with
  | present h => exact Nat.le_of_lt h
  | array h => exact Nat.le_of_lt h
  | field _ _ h => exact Nat.le_of_lt h
  | item => exact Nat.le_refl _
  | next h => exact Nat.le_of_lt h

theorem declared_of_below (hm : m.Closed) {inner c : Task × Input} (hc : c.1.type.Declared m)
    (h : Below m inner c) : inner.1.type.Declared m := by
  cases h with
  | field hspec hf h => exact hm _ (Model.mem_of_message? hspec) _ hf
  | _ => exact hc

/-! ### One step of two decoders -/

variable {k : Nat} {self self' : Task → Decoder Json} {s : Input}

theorem inStep_scalar (ofMessage ofMessage' : String → Decoder Json) (kind : Scalar) (s : Input) :
    InStep (Relocated k) k 1 (decodeTy m modulus ofMessage (.scalar kind))
      (decodeTy m modulus ofMessage' (.scalar kind)) s := by
  rw [decodeTy, decodeTy]
  refine .ite (fun _ => inStep_decodeBytes kind s) fun _ => ?_
  refine .get_bind (.bind_first (inStep_element s) fun e s₁ _ => ?_)
  exact .liftM (checks_ofElement kind s.position e)

theorem inStep_enum (ofMessage ofMessage' : String → Decoder Json) {name : String}
    (hdecl : (m.enum? name).isSome) (s : Input) :
    InStep (Relocated k) k 1 (decodeTy m modulus ofMessage (.enum name))
      (decodeTy m modulus ofMessage' (.enum name)) s := by
  obtain ⟨spec, hspec⟩ := Option.isSome_iff_exists.1 hdecl
  have hok := Model.enum_of_enum? hspec
  rw [decodeTy, decodeTy]
  refine .liftM_bind hok hok ?_
  refine .bind_first (inStep_expect _ _ s) fun _ s₁ _ => .get_bind ?_
  refine .bind_rest (inStep_element s₁) fun i s₂ _ => ?_
  cases spec.variants[i]? with
  | none => exact .throw (relocated_at (.inl (by decide)) s₁.position)
  | some variant => exact .bind_rest (inStep_expect _ _ s₂) fun _ s₃ _ => .pure _

theorem inStep_decodeFields {decode decode' : Ty → Decoder Json} {fields : List Field} {s : Input}
    (h : ∀ f ∈ fields, ∀ s' : Input, s'.rest.length ≤ s.rest.length →
      InStep (Relocated k) k 1 (decode f.type) (decode' f.type) s') (ms : List (String × Json)) :
    InStep (Relocated k) k 0 (decodeFields decode ms fields) (decodeFields decode' ms fields) s := by
  induction fields generalizing ms s with
  | nil => exact .pure ms
  | cons f fields ih =>
    refine .bind_rest (inStep_expect _ _ s) fun _ s₁ h₁ => ?_
    refine .bind_rest (h f (List.mem_cons_self ..) s₁ (by omega)) fun v s₂ h₂ => ?_
    exact ih (fun g hg s' h' => h g (List.mem_cons_of_mem _ hg) s' (by omega)) _

/-- Decoders that ask for the same things keep in step if the answers do, wherever they are. -/
theorem inStep_step {task : Task} (htask : task.type.Declared m)
    (hself : ∀ task' s', Below m (task', s') (task, s) →
      InStep (Relocated k) k 1 (self task') (self' task') s') :
    InStep (Relocated k) k 1 (step m modulus self task) (step m modulus self' task) s := by
  cases task with
  | value t =>
    cases t with
    | scalar kind =>
      exact inStep_scalar (m := m) (fun n => self (.value (.message n)))
        (fun n => self' (.value (.message n))) kind s
    | enum name =>
      exact inStep_enum (fun n => self (.value (.message n)))
        (fun n => self' (.value (.message n))) htask s
    | message name =>
      obtain ⟨spec, hspec⟩ := Option.isSome_iff_exists.1 htask
      have hok := Model.message_of_message? hspec
      rw [step, step]
      refine .liftM_bind hok hok (.bind_first (inStep_expect _ _ s) fun _ s₁ h₁ => ?_)
      refine .bind_rest (inStep_decodeFields (fun f hf s' h' => ?_) []) fun ms s₂ _ => ?_
      · exact hself (.value f.type) s' (.field hspec hf (by omega))
      · exact .bind_rest (inStep_expect _ _ s₂) fun _ s₃ _ => .pure _
    | optional t =>
      rw [step, step]
      refine .bind_first (inStep_expect _ _ s) fun _ s₁ h₁ => ?_
      refine inStep_atPop_bind fun closed e rest hs => .ite (fun _ => ?_) fun _ => ?_
      · exact .bind_rest (inStep_advance hs) fun _ s₂ _ => .pure _
      · refine .bind_rest (hself (.value t) s₁ (.present (by omega))) fun v s₂ _ => ?_
        exact .bind_rest (inStep_expect _ _ s₂) fun _ s₃ _ => .pure _
    | array t =>
      rw [step, step]
      refine .bind_first (inStep_expect _ _ s) fun _ s₁ h₁ => ?_
      exact (hself (.items t []) s₁ (.array (by omega))).mono (Nat.zero_le _)
  | items t vs =>
    rw [step, step]
    refine inStep_atPop_bind fun closed e rest hs => .ite (fun _ => ?_) fun _ => ?_
    · exact .bind_first (inStep_advance hs) fun _ s₁ _ => .pure _
    · refine .bind_rest (hself (.value t) s .item) fun v s₁ h₁ => ?_
      exact hself (.items t (vs ++ [v])) s₁ (.next (by omega))

/-! ### The decoder -/

/-- The decoder with a bound on its depth, at a task. -/
def performWithin (m : Model) (modulus : Int) (depth : Nat) : Task → Decoder Json
  | .value t => decodeTy m modulus (decodeMessage m modulus depth) t
  | .items t vs => do
    let s ← get
    let ws ← decodeItems (decodeTy m modulus (decodeMessage m modulus depth) t) (s.rest.length + 1)
    return .arr (vs ++ ws)

/-- The decoder at a task. For a value this is `read`. -/
def perform (m : Model) (modulus : Int) (task : Task) : Decoder Json := do
  let s ← get
  performWithin m modulus (s.rest.length + 1) task

/-- Fuel that exceeds the number of events makes no difference, if an item takes an event. -/
theorem run_decodeItems_fuel {d : Decoder Json} {fuel fuel' : Nat}
    (h : ∀ s' v s'', s'.rest.length ≤ s.rest.length → d.run s' = .ok (v, s'') →
      s''.rest.length < s'.rest.length)
    (hfuel : s.rest.length < fuel) (hfuel' : s.rest.length < fuel') :
    (decodeItems d fuel).run s = (decodeItems d fuel').run s := by
  induction fuel generalizing fuel' s with
  | zero => exact absurd hfuel (Nat.not_lt_zero _)
  | succ fuel ih =>
    obtain ⟨fuel', rfl⟩ : ∃ k, fuel' = k + 1 := ⟨fuel' - 1, by omega⟩
    rw [decodeItems, decodeItems]
    refine run_bind_congr fun closed s₁ hpop => ?_
    obtain ⟨rfl, -⟩ := of_atPop hpop
    cases closed with
    | true => rfl
    | false =>
      rw [if_neg Bool.false_ne_true, if_neg Bool.false_ne_true]
      refine run_bind_congr fun v s₂ hv => ?_
      have hshort := h s₁ v s₂ (Nat.le_refl _) hv
      have hrest : (decodeItems d fuel).run s₂ = (decodeItems d fuel').run s₂ :=
        ih (fun s' v s'' h' => h s' v s'' (by omega)) (by omega) (by omega)
      rw [StateT.run_bind, StateT.run_bind, hrest]

theorem length_of_decodeTy (hm : m.Closed) {t : Ty} (ht : t.Declared m) {depth : Nat} {s s' : Input}
    (hdepth : s.rest.length < depth) {v : Json}
    (h : (decodeTy m modulus (decodeMessage m modulus depth) t).run s = .ok (v, s')) :
    s'.rest.length < s.rest.length := by
  have hcont : Continues [] 1 (decodeTy m modulus (decodeMessage m modulus depth) t)
      (decodeTy m modulus (decodeMessage m modulus depth) t) s :=
    continues_decodeTy (continuesMessages hm (Nat.le_refl depth)) ht hdepth
  exact (hcont.run_ok h).1

/-- After an item come the others, on what it leaves. -/
theorem run_performWithin_items (hm : m.Closed) {depth : Nat} {t : Ty} (ht : t.Declared m)
    (hdepth : s.rest.length < depth) (vs : List Json) :
    (performWithin m modulus depth (.items t vs)).run s =
      (step m modulus (performWithin m modulus depth) (.items t vs)).run s := by
  have hrun : (performWithin m modulus depth (.items t vs)).run s = ((do
      let ws ← decodeItems (performWithin m modulus depth (.value t)) (s.rest.length + 1)
      return .arr (vs ++ ws)) : Decoder Json).run s := rfl
  rw [hrun, decodeItems, step, bind_assoc]
  refine run_bind_congr fun closed s₁ hpop => ?_
  obtain ⟨rfl, -⟩ := of_atPop hpop
  cases closed with
  | true =>
    rw [if_pos rfl, if_pos rfl, bind_assoc]
    refine run_bind_congr fun _ s₂ _ => ?_
    rw [pure_bind, List.append_nil]
  | false =>
    rw [if_neg Bool.false_ne_true, if_neg Bool.false_ne_true, bind_assoc]
    refine run_bind_congr fun v s₂ hv => ?_
    -- The bound on the items is that of the array; the item leaves fewer events than that.
    have hshort := length_of_decodeTy hm ht hdepth hv
    have hfuel : (decodeItems (performWithin m modulus depth (.value t)) s₁.rest.length).run s₂ =
        (decodeItems (performWithin m modulus depth (.value t)) (s₂.rest.length + 1)).run s₂ := by
      refine run_decodeItems_fuel (fun s' v s'' h' hv' => ?_) hshort (Nat.lt_succ_self _)
      exact length_of_decodeTy hm ht (by omega) hv'
    have hnext : (performWithin m modulus depth (.items t (vs ++ [v]))).run s₂ = ((do
        let ws ← decodeItems (performWithin m modulus depth (.value t)) (s₂.rest.length + 1)
        return .arr (vs ++ [v] ++ ws)) : Decoder Json).run s₂ := rfl
    rw [hnext, bind_assoc, StateT.run_bind, StateT.run_bind, hfuel]
    refine bind_congr fun r => ?_
    rw [pure_bind, List.append_assoc, List.singleton_append]

theorem unrolls_performWithin (hm : m.Closed) :
    Grounded.Unrolls (onCalls (step m modulus)) (fun c => c.1.type.Declared m) (Below m)
      (fun c => c.2.rest.length + 1) fun depth c => (performWithin m modulus depth c.1).run c.2 := by
  rintro depth ⟨task, s⟩ htask hneed
  have hbelow : ∀ inner, Below m inner (task, s) → inner.2.rest.length + 1 ≤ depth :=
    fun inner h => (Nat.succ_le_succ (length_le_of_below h)).trans hneed
  cases task with
  | value t =>
    cases t with
    | message name =>
      have hpos : s.rest.length + 1 ≤ depth := hneed
      obtain ⟨k, rfl⟩ : ∃ k, depth = k + 1 := ⟨depth - 1, by omega⟩
      refine ⟨k, rfl, fun inner h => ?_⟩
      cases h with
      | field hspec hf h => exact h.trans_le (Nat.le_of_succ_le_succ hpos)
    | _ => exact ⟨depth, rfl, hbelow⟩
  | items t vs => exact ⟨depth, run_performWithin_items hm htask hneed vs, hbelow⟩

theorem grounded_step (hm : m.Closed) (hheight : ∀ a, height a ≤ m.messages.length) :
    Grounded (onCalls (step m modulus)) (fun c => c.1.type.Declared m) (Below m) (rank m height)
      fun c => Matched (Relocated 0) 0 1 c.2 where
  valid := declared_of_below hm
  lower := fun _ h => rank_lt_of_below hheight h
  eq := Matched.eq Relocated.eq
  step := by
    rintro self self' ⟨task, s⟩ htask h
    change InStep (Relocated 0) 0 1 (step m modulus (ofCalls self) task)
      (step m modulus (ofCalls self') task) s
    exact inStep_step htask fun task' s' hbelow => h (task', s') hbelow

theorem terminates_perform (hm : m.Closed) (hheight : ∀ a, height a ≤ m.messages.length) :
    Terminates (onCalls (step m modulus)) (fun c => (perform m modulus c.1).run c.2)
      (fun c => c.1.type.Declared m) (rank m height) := by
  have hgrounded : Grounded (onCalls (step m modulus)) _ _ _ _ := grounded_step hm hheight
  exact hgrounded.terminates <| hgrounded.unfolds_of_budget (unrolls_performWithin hm)
    (fun c => c.2.rest.length + 1) fun _ _ => Nat.le_refl _

theorem run_perform (hm : m.Sound) {task : Task} (htask : task.type.Declared m) (s : Input) :
    (perform m modulus task).run s = (step m modulus (perform m modulus) task).run s := by
  obtain ⟨height, -, hheight⟩ := hm.exists_height
  exact (terminates_perform hm.closed hheight).unfolds (task, s) htask

end FeltRelay.Codec.Event
