import FeltRelay.Proofs.Codec.Flat.Depth
import FeltRelay.Proofs.Codec.Flat.Element
import FeltRelay.Proofs.Codec.Flat.Width
import FeltRelay.Proofs.Codec.InStep
import FeltRelay.Proofs.Schema.Text

/-!
# The recursion of flat decoding

The width of a type and the value of a type are found by recursion over types that may refer to
themselves. Here the two recursions are written without a bound on their depth: what a type asks of
other types is asked of a function that is handed in (`widthStep`, `step`). Each such call has less
input left, or as much and a lower message, or is a later item of the same array. So the recursions
end, and what they give is the width and the decoder (`terminates_minWidth`, `terminates_perform`).
-/

namespace FeltRelay.Codec.Flat

open FeltRelay.Schema FeltRelay.Text

variable {m : Model} {modulus : Int} {height : String → Nat}

/-! ### Width -/

/-- The width of a type, that of the fields of a message being asked for. -/
def widthStep (m : Model) (self : Ty → Except Failure Nat) : Ty → Except Failure Nat
  | .scalar s => .ok (if s.isByteString then 3 else 1)
  | .message name => do
    let spec ← m.message name
    let widths ← spec.fields.mapM fun f => self f.type
    return widths.sum
  | _ => .ok 1

/-- A type is that of a field of a message. -/
inductive FieldOf (m : Model) : Ty → Ty → Prop
  | field {name : String} {spec : Message} {f : Field} (hspec : m.message? name = some spec)
    (hf : f ∈ spec.fields) : FieldOf m f.type (.message name)

def sizeTy : Ty → Nat
  | .optional t => sizeTy t + 1
  | .array t => sizeTy t + 1
  | _ => 1

/-- Nothing is read: only the height of the message and the size of the type count. -/
def widthRank (height : String → Nat) (t : Ty) : Rank := .mk 0 (heightTy height t) (sizeTy t)

theorem mapM_congr {α β : Type} {f g : α → Except Failure β} {xs : List α}
    (h : ∀ x ∈ xs, f x = g x) : xs.mapM f = xs.mapM g := by
  induction xs with
  | nil => rfl
  | cons x xs ih =>
    rw [List.mapM_cons, List.mapM_cons, h x (List.mem_cons_self ..),
      ih fun y hy => h y (List.mem_cons_of_mem _ hy)]

theorem grounded_widthStep (hm : m.Closed)
    (hdescends : ∀ a b, m.Contains a b → height b < height a) :
    Grounded (widthStep m) (fun t => t.Declared m) (FieldOf m) (widthRank height)
      fun _ r r' => r = r' where
  valid := by
    intro inner t _ h
    cases h with
    | field hspec hf => exact hm _ (Model.mem_of_message? hspec) _ hf
  lower := by
    intro inner t _ h
    cases h with
    | field hspec hf =>
      exact Rank.lt_of_height (Nat.le_refl 0) (heightTy_lt_of_field hdescends hspec hf) ..
  eq := fun h => h
  step := by
    intro self self' t ht h
    cases t with
    | message name =>
      obtain ⟨spec, hspec⟩ := Option.isSome_iff_exists.1 ht
      rw [widthStep, widthStep, Model.message_of_message? hspec, ok_bind, ok_bind,
        mapM_congr fun f hf => h f.type (.field hspec hf)]
    | _ => rfl

theorem unrolls_widthTy (hdescends : ∀ a b, m.Contains a b → height b < height a) :
    Grounded.Unrolls (widthStep m) (fun t => t.Declared m) (FieldOf m) (heightTy height)
      fun budget => Model.widthTy (m.widthMessage budget) := by
  intro budget t _ hneed
  cases t with
  | message name =>
    have hname : heightTy height (.message name) = height name + 1 := rfl
    obtain ⟨budget, rfl⟩ : ∃ k, budget = k + 1 := ⟨budget - 1, by omega⟩
    refine ⟨budget, rfl, fun inner h => ?_⟩
    cases h with
    | field hspec hf =>
      have := heightTy_lt_of_field hdescends hspec hf
      omega
  | _ => exact ⟨budget, rfl, nofun⟩

theorem terminates_minWidth (hm : m.Closed)
    (hdescends : ∀ a b, m.Contains a b → height b < height a)
    (hheight : ∀ a, height a ≤ m.messages.length) :
    Terminates (widthStep m) m.minWidth (fun t => t.Declared m) (widthRank height) := by
  have hgrounded := grounded_widthStep hm hdescends
  refine hgrounded.terminates (hgrounded.unfolds_of_budget (unrolls_widthTy hdescends)
    (fun _ => m.messages.length + 1) fun t _ => ?_)
  exact heightTy_le hheight t

def widthOf (m : Model) (t : Ty) : Nat := (m.minWidth t).toOption.getD 0

theorem minWidth_of_declared (hm : m.Closed) {t : Ty} (ht : t.Declared m) :
    m.minWidth t = .ok (widthOf m t) := by
  obtain ⟨w, hw⟩ := exists_minWidth hm ht
  rw [widthOf, hw]
  rfl

theorem widthOf_message (hm : m.Sound) {name : String} {spec : Message}
    (hspec : m.message? name = some spec) :
    widthOf m (.message name) = (spec.fields.map fun f => widthOf m f.type).sum := by
  obtain ⟨height, hdescends, hheight⟩ := hm.exists_height
  have hdecl : (Ty.message name).Declared m := by rw [Ty.Declared, hspec]; rfl
  have hfields : spec.fields.mapM (fun f => m.minWidth f.type) =
      .ok (spec.fields.map fun f => widthOf m f.type) := by
    refine mapM_of_forall₂ (List.forall₂_map_right_iff.2 (List.forall₂_same.2 fun f hf => ?_))
    exact minWidth_of_declared hm.closed (hm.closed spec (Model.mem_of_message? hspec) f hf)
  have hunfold := (terminates_minWidth hm.closed hdescends hheight).unfolds _ hdecl
  rw [minWidth_of_declared hm.closed hdecl, widthStep, Model.message_of_message? hspec, ok_bind,
    hfields] at hunfold
  exact Except.ok.inj hunfold

/-! ### Values -/

/-- What the decoder is at: a value, or an array of which some items have been read and so many have
not. -/
inductive Task where
  | value (t : Ty)
  | items (t : Ty) (count : Nat) (read : List Json)

def Task.type : Task → Ty
  | value t => t
  | items t _ _ => t

/-- The decoder, asking for the values inside a value. An array is refused at its length if what
follows is too short for items of some width. -/
def step (m : Model) (modulus : Int) (width : Ty → Except Failure Nat)
    (self : Task → Decoder Json) : Task → Decoder Json
  | .value (.optional t) => do
    let start ← get
    let flag ← takeElement modulus "presence flag"
    if flag = 0 then return .null
    else if flag = 1 then self (.value t)
    else
      throw ⟨.invalidPresence, "presence element must be 0 or 1, got " ++ decimal flag,
        .element start.position, []⟩
  | .value (.array t) => do
    let start ← get
    let n ← takeElement modulus "array length"
    if maxArrayLength < n then
      throw (.elementOutOfRange start.position "array length does not fit u32" [("length", n)])
    let width ← width t
    let s ← get
    if s.rest.length < n * width then
      throw (.truncated s.position ("array of " ++ decimal n ++ " items needs at least " ++
        decimal (n * width) ++ " elements, " ++ decimal s.rest.length ++ " left"))
    self (.items t n [])
  | .value (.message name) => do
    let spec ← m.message name
    let ms ← decodeFields (fun t => self (.value t)) [] spec.fields
    return .obj ms
  | .value t => decodeTy m modulus (fun name => self (.value (.message name))) t
  | .items _ 0 vs => return .arr vs
  | .items t (n + 1) vs => do
    let v ← self (.value t)
    self (.items t n (vs ++ [v]))

/-- The calls that a call may make, and on what is left of the input. -/
inductive Below (m : Model) : Task × Input → Task × Input → Prop
  | present {t : Ty} {s s' : Input} (h : s'.rest.length < s.rest.length) :
    Below m (.value t, s') (.value (.optional t), s)
  | array {t : Ty} {n : Nat} {vs : List Json} {s s' : Input} (h : s'.rest.length < s.rest.length) :
    Below m (.items t n vs, s') (.value (.array t), s)
  | field {name : String} {spec : Message} {f : Field} {s s' : Input}
    (hspec : m.message? name = some spec) (hf : f ∈ spec.fields)
    (h : s'.rest.length ≤ s.rest.length) : Below m (.value f.type, s') (.value (.message name), s)
  | item {t : Ty} {n : Nat} {vs : List Json} {s s' : Input} (h : s'.rest.length ≤ s.rest.length) :
    Below m (.value t, s') (.items t (n + 1) vs, s)
  | next {t : Ty} {n : Nat} {vs vs' : List Json} {s s' : Input}
    (h : s'.rest.length ≤ s.rest.length) : Below m (.items t n vs', s') (.items t (n + 1) vs, s)

/-- What is left of the input, then the height of the message, then the size of the type. A loop over
items stands above every type, and the number of items to come is its size. -/
def rank (m : Model) (height : String → Nat) : Task × Input → Rank
  | (.value t, s) => .mk s.rest.length (heightTy height t) (sizeTy t)
  | (.items _ n _, s) => .mk s.rest.length (m.messages.length + 2) n

theorem rank_lt_of_below (hdescends : ∀ a b, m.Contains a b → height b < height a)
    (hheight : ∀ a, height a ≤ m.messages.length) {inner c : Task × Input} (h : Below m inner c) :
    rank m height inner < rank m height c := by
  cases h with
  | present h => exact Rank.lt_of_rest h ..
  | array h => exact Rank.lt_of_rest h ..
  | field hspec hf h => exact Rank.lt_of_height h (heightTy_lt_of_field hdescends hspec hf) ..
  | @item t _ _ _ _ h =>
    have := heightTy_le hheight t
    exact Rank.lt_of_height h (by omega) ..
  | next h => exact Rank.lt_of_size h _ (Nat.lt_succ_self _)

theorem declared_of_below (hm : m.Closed) {inner c : Task × Input} (hc : c.1.type.Declared m)
    (h : Below m inner c) : inner.1.type.Declared m := by
  cases h with
  | field hspec hf h => exact hm _ (Model.mem_of_message? hspec) _ hf
  | _ => exact hc

/-! ### One step of two decoders -/

/-- How many elements a task takes at the least. -/
def least (m : Model) : Task → Nat
  | .value t => widthOf m t
  | .items t n _ => n * widthOf m t

variable {R : Failure → Failure → Prop}

theorem inStep_takeElement (hR : ∀ f, R f f) (what : String) (s : Input) :
    InStep R 0 1 (takeElement modulus what) (takeElement modulus what) s := by
  exact .same hR fun n s' h => (consumed_of_takeElement h).1.reaches (Nat.le_refl 1)

theorem inStep_decodeBytes (hR : ∀ f, R f f) (kind : Scalar) (s : Input) :
    InStep R 0 3 (decodeBytes modulus kind) (decodeBytes modulus kind) s := by
  refine .same hR fun v s' h => ?_
  obtain ⟨bytes, text, -, -, hread⟩ := consumed_of_decodeBytes h
  refine hread.reaches ?_
  rw [List.length_map, length_packBytes]
  exact Nat.le_add_left ..

theorem inStep_scalar (hR : ∀ f, R f f) (ofMessage ofMessage' : String → Decoder Json) (k : Scalar)
    (s : Input) :
    InStep R 0 (widthOf m (.scalar k)) (decodeTy m modulus ofMessage (.scalar k))
      (decodeTy m modulus ofMessage' (.scalar k)) s := by
  have hwidth : widthOf m (.scalar k) = if k.isByteString then 3 else 1 := rfl
  rw [decodeTy, decodeTy, hwidth]
  by_cases hk : k.isByteString = true
  · rw [if_pos hk, if_pos hk]
    exact inStep_decodeBytes hR k s
  · rw [if_neg hk, if_neg hk]
    refine .get_bind (.bind_first (inStep_takeElement hR _ s) fun e s₁ _ => ?_)
    exact .liftM (.same fun f _ => hR f)

theorem inStep_enum (hR : ∀ f, R f f) (ofMessage ofMessage' : String → Decoder Json) {name : String}
    (hdecl : (m.enum? name).isSome) (s : Input) :
    InStep R 0 1 (decodeTy m modulus ofMessage (.enum name))
      (decodeTy m modulus ofMessage' (.enum name)) s := by
  obtain ⟨spec, hspec⟩ := Option.isSome_iff_exists.1 hdecl
  rw [decodeTy, decodeTy]
  have hok := Model.enum_of_enum? hspec
  refine .liftM_bind hok hok (.get_bind ?_)
  refine .bind_first (inStep_takeElement hR _ s) fun i s₁ _ => ?_
  cases spec.variants[i]? with
  | none => exact .throw (hR _)
  | some variant => exact .pure _

theorem inStep_decodeFields {k : Nat} {width : Ty → Nat} {decode decode' : Ty → Decoder Json}
    {fields : List Field} {s : Input} (h : ∀ f ∈ fields, ∀ s' : Input,
      s'.rest.length ≤ s.rest.length → InStep R k (width f.type) (decode f.type) (decode' f.type) s')
    (ms : List (String × Json)) :
    InStep R k (fields.map fun f => width f.type).sum (decodeFields decode ms fields)
      (decodeFields decode' ms fields) s := by
  induction fields generalizing ms s with
  | nil => exact .pure ms
  | cons f fields ih =>
    have hhead := h f (List.mem_cons_self ..) s (Nat.le_refl _)
    rw [List.map_cons, List.sum_cons]
    refine hhead.bind (fun v s₁ h₁ => ih (fun g hg s' h' => ?_) _) (Nat.le_refl _)
    exact h g (List.mem_cons_of_mem _ hg) s' (by omega)

def Widths (m : Model) (width : Ty → Except Failure Nat) : Prop :=
  ∀ t, t.Declared m → ∃ w, width t = .ok w

/-- No array is refused at its length. -/
def noWidth : Ty → Except Failure Nat := fun _ => .ok 0

/-- Two decoders refuse arrays by the same widths, or the second one refuses none and failures do not
matter. -/
def Refuse (m : Model) (R : Failure → Failure → Prop) (width width' : Ty → Except Failure Nat) :
    Prop :=
  (width' = width ∧ Widths m width) ∨ (width = m.minWidth ∧ width' = noWidth ∧ ∀ f f', R f f')

theorem inStep_array (hm : m.Closed) (hR : ∀ f, R f f) {width width' : Ty → Except Failure Nat}
    (hwidth : Refuse m R width width') {self self' : Task → Decoder Json} {t : Ty}
    (ht : t.Declared m) {s : Input} (hself : ∀ n (s' : Input), s'.rest.length < s.rest.length →
      InStep R 0 (n * widthOf m t) (self (.items t n [])) (self' (.items t n [])) s') :
    InStep R 0 1 (step m modulus width self (.value (.array t)))
      (step m modulus width' self' (.value (.array t))) s := by
  rw [step, step]
  refine .get_bind (.bind_first (inStep_takeElement hR _ s) fun n s₁ h₁ => ?_)
  have hitems := hself n s₁ (by omega)
  refine .ite (fun _ => .throw (hR _)) fun _ => ?_
  rcases hwidth with ⟨rfl, hwidth⟩ | ⟨rfl, rfl, hR'⟩
  · obtain ⟨w, hw⟩ := hwidth t ht
    refine .liftM_bind hw hw (.get_bind ?_)
    exact .ite (fun _ => .throw (hR _)) fun _ => hitems.mono (Nat.zero_le _)
  · refine .liftM_bind (minWidth_of_declared hm ht) rfl (.get_bind ?_)
    dsimp only
    rw [Nat.mul_zero, if_neg (Nat.not_lt_zero _)]
    by_cases hshort : s₁.rest.length < n * widthOf m t
    -- Items that have been read would have taken more elements than there are.
    · rw [if_pos hshort]
      cases hrun : (self (.items t n [])).run s₁ with
      | error f =>
        obtain ⟨f', hrun', -⟩ := hitems.run_error hrun
        exact .of_error rfl hrun' (hR' _ _)
      | ok r =>
        have := (hitems.run_ok hrun).1.length
        omega
    · rw [if_neg hshort]
      exact hitems.mono (Nat.zero_le _)

/-- Decoders that ask for the same things keep in step if the answers do. -/
theorem inStep_step (hm : m.Sound) (hR : ∀ f, R f f) {width width' : Ty → Except Failure Nat}
    (hwidth : Refuse m R width width') {self self' : Task → Decoder Json} {task : Task} {s : Input}
    (htask : task.type.Declared m)
    (hself : ∀ task' s', Below m (task', s') (task, s) →
      InStep R 0 (least m task') (self task') (self' task') s') :
    InStep R 0 (least m task) (step m modulus width self task) (step m modulus width' self' task)
      s := by
  cases task with
  | value t =>
    cases t with
    | scalar k =>
      exact inStep_scalar hR (fun n => self (.value (.message n)))
        (fun n => self' (.value (.message n))) k s
    | enum name =>
      exact inStep_enum hR (fun n => self (.value (.message n)))
        (fun n => self' (.value (.message n))) htask s
    | message name =>
      obtain ⟨spec, hspec⟩ := Option.isSome_iff_exists.1 htask
      have hok := Model.message_of_message? hspec
      rw [step, step, least, widthOf_message hm hspec]
      refine .liftM_bind hok hok ?_
      refine .bind_first (inStep_decodeFields (fun f hf s' h' => ?_) []) fun ms s₁ _ => .pure _
      exact hself (.value f.type) s' (.field hspec hf h')
    | optional t =>
      have hleast : least m (.value (.optional t)) = 1 := rfl
      rw [step, step, hleast]
      refine .get_bind (.bind_first (inStep_takeElement hR _ s) fun flag s₁ h₁ => ?_)
      refine .ite (fun _ => .pure _) fun _ => .ite (fun _ => ?_) fun _ => .throw (hR _)
      exact (hself (.value t) s₁ (.present (by omega))).mono (Nat.zero_le _)
    | array t =>
      have ht : t.Declared m := htask
      exact inStep_array hm.closed hR hwidth ht fun n s' h' => hself (.items t n []) s' (.array h')
  | items t n vs =>
    cases n with
    | zero =>
      rw [step, step, least, Nat.zero_mul]
      exact .pure _
    | succ n =>
      rw [step, step, least, Nat.succ_mul, Nat.add_comm]
      have hitem := hself (.value t) s (.item (Nat.le_refl _))
      refine hitem.bind (fun v s₁ h₁ => ?_) (Nat.le_refl _)
      exact hself (.items t n (vs ++ [v])) s₁ (.next (by omega))

/-! ### The decoder -/

/-- The decoder with a bound on its depth, at a task. -/
def performWithin (m : Model) (modulus : Int) (depth : Nat) : Task → Decoder Json
  | .value t => decodeTy m modulus (decodeMessage m modulus depth) t
  | .items t n vs => do
    let ws ← readTimes (decodeTy m modulus (decodeMessage m modulus depth) t) n
    return .arr (vs ++ ws)

/-- The decoder at a task. For a value this is `read`. -/
def perform (m : Model) (modulus : Int) (task : Task) : Decoder Json := do
  let s ← get
  performWithin m modulus (nestingBound m s.rest.length) task

def needTask (m : Model) (height : String → Nat) : Task × Input → Nat
  | (.value t, s) => need m height t s.rest.length
  | (.items _ _ _, s) => nestingBound m s.rest.length

theorem nestingBound_le_of_lt {k n depth : Nat} {t : Ty} (hk : k < n)
    (h : need m height t n ≤ depth) : nestingBound m k ≤ depth := by
  have hle : (m.messages.length + 1) * (k + 1) ≤ (m.messages.length + 1) * n :=
    Nat.mul_le_mul_left _ hk
  unfold need at h
  unfold nestingBound
  omega

theorem nestingBound_mono {k n : Nat} (h : k ≤ n) : nestingBound m k ≤ nestingBound m n :=
  Nat.mul_le_mul_left _ (Nat.succ_le_succ h)

theorem performWithin_items (depth : Nat) (t : Ty) (n : Nat) (vs : List Json) :
    performWithin m modulus depth (.items t n vs) =
      step m modulus m.minWidth (performWithin m modulus depth) (.items t n vs) := by
  cases n with
  | zero => simp only [performWithin, readTimes, step, pure_bind, List.append_nil]
  | succ n =>
    simp only [performWithin, readTimes, step, bind_assoc, pure_bind, List.append_assoc,
      List.singleton_append]

theorem unrolls_performWithin (hdescends : ∀ a b, m.Contains a b → height b < height a)
    (hheight : ∀ a, height a ≤ m.messages.length) :
    Grounded.Unrolls (onCalls (step m modulus m.minWidth)) (fun c => c.1.type.Declared m) (Below m)
      (needTask m height) fun depth c => (performWithin m modulus depth c.1).run c.2 := by
  rintro depth ⟨task, s⟩ htask hneed
  cases task with
  | value t =>
    cases t with
    | scalar k => exact ⟨depth, rfl, nofun⟩
    | enum name => exact ⟨depth, rfl, nofun⟩
    | message name =>
      obtain ⟨k, rfl⟩ := need_message_pos hneed
      refine ⟨k, rfl, fun inner h => ?_⟩
      cases h with
      | field hspec hf h => exact need_field hdescends hspec hf h hneed
    | optional t =>
      refine ⟨depth, rfl, fun inner h => ?_⟩
      cases h with
      | present h => exact need_of_lt hheight h hneed
    | array t =>
      refine ⟨depth, rfl, fun inner h => ?_⟩
      cases h with
      | array h => exact nestingBound_le_of_lt h hneed
  | items t n vs =>
    refine ⟨depth, ?_, fun inner h => ?_⟩
    · exact congrArg (·.run s) (performWithin_items depth t n vs)
    · cases h with
      | item h => exact (need_le_nestingBound hheight t h).trans hneed
      | next h => exact (nestingBound_mono h).trans hneed

theorem grounded_step (hm : m.Sound) (hdescends : ∀ a b, m.Contains a b → height b < height a)
    (hheight : ∀ a, height a ≤ m.messages.length) {width : Ty → Except Failure Nat}
    (hwidth : Widths m width) :
    Grounded (onCalls (step m modulus width)) (fun c => c.1.type.Declared m) (Below m)
      (rank m height) fun c => Matched Eq 0 (least m c.1) c.2 where
  valid := declared_of_below hm.closed
  lower := fun _ h => rank_lt_of_below hdescends hheight h
  eq := Matched.eq fun h => h
  step := by
    rintro self self' ⟨task, s⟩ htask h
    change InStep Eq 0 (least m task) (step m modulus width (ofCalls self) task)
      (step m modulus width (ofCalls self') task) s
    exact inStep_step hm (fun _ => rfl) (.inl ⟨rfl, hwidth⟩) htask
      fun task' s' hbelow => h (task', s') hbelow

theorem terminates_perform (hm : m.Sound) (hdescends : ∀ a b, m.Contains a b → height b < height a)
    (hheight : ∀ a, height a ≤ m.messages.length) :
    Terminates (onCalls (step m modulus m.minWidth))
      (fun c => (perform m modulus c.1).run c.2) (fun c => c.1.type.Declared m) (rank m height) := by
  have hgrounded : Grounded (onCalls (step m modulus m.minWidth)) _ _ _ _ :=
    grounded_step hm hdescends hheight fun _ => exists_minWidth hm.closed
  refine hgrounded.terminates (hgrounded.unfolds_of_budget
    (unrolls_performWithin hdescends hheight) (fun c => nestingBound m c.2.rest.length) ?_)
  rintro ⟨task, s⟩ -
  cases task with
  | value t => exact need_le_nestingBound hheight t (Nat.le_refl _)
  | items t n vs => exact Nat.le_refl _

theorem run_perform (hm : m.Sound) {task : Task} (htask : task.type.Declared m) (s : Input) :
    (perform m modulus task).run s =
      (step m modulus m.minWidth (perform m modulus) task).run s := by
  obtain ⟨height, hdescends, hheight⟩ := hm.exists_height
  exact (terminates_perform hm hdescends hheight).unfolds (task, s) htask

end FeltRelay.Codec.Flat
