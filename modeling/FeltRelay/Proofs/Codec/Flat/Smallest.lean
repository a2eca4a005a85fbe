import FeltRelay.Proofs.Codec.Flat.Canonical
import FeltRelay.Proofs.Codec.Flat.Recursion
import FeltRelay.Proofs.Schema.Lock.RoundTrip

/-!
# The width of a type is exact

No value of a type is read from fewer elements than the width of the type, and some value takes no
more, unless two fields of a message have one name (`minWidth_exact`). So an array that is refused at
its length, because what follows is too short for its items, would be refused at one of them. A lock
may give one name to two fields that no value suits both of (`minWidth_torn`).
-/

namespace FeltRelay.Codec.Flat

open FeltRelay.Schema

variable {m : Model} {modulus : Int}

/-! ### At least -/

/-- What is read of a type takes its width. -/
theorem reaches_of_read (hm : m.Sound) {t : Ty} (ht : t.Declared m) {s s' : Input} {v : Json}
    (h : (read m modulus t).run s = .ok (v, s')) : Reaches s (widthOf m t) s' := by
  obtain ⟨height, hdescends, hheight⟩ := hm.exists_height
  have hgrounded : Grounded (onCalls (step m modulus m.minWidth)) _ _ _ _ :=
    grounded_step hm hdescends hheight fun _ => exists_minWidth hm.closed
  have hrun : ∀ c : Task × Input, c.1.type.Declared m → (perform m modulus c.1).run c.2 =
      onCalls (step m modulus m.minWidth) (fun c => (perform m modulus c.1).run c.2) c :=
    fun c hc => run_perform hm hc c.2
  have hstep : InStep Eq 0 (widthOf m t) (read m modulus t) (read m modulus t) s :=
    hgrounded.alike_of_unfolds hrun hrun (c := (.value t, s)) ht
  exact (hstep.run_ok h).1

theorem width_le_of_decode (hm : m.Sound) {t : Ty} (ht : t.Declared m) {elements : List Json}
    {position : Nat} {v : Json} {count : Nat}
    (h : decode m modulus t elements position = .ok (v, count)) : widthOf m t ≤ count := by
  obtain ⟨⟨v', s'⟩, hrun, hret⟩ := bind_eq_ok_iff.1 h
  cases hret
  have hreach := reaches_of_read hm ht hrun
  have := hreach.length
  have := hreach.position
  have hstart : (Input.from elements position).position = position := rfl
  omega

theorem eq_ok_of_ofExcept {α : Type} {r : Except Failure α} {a : α}
    (h : Attempt.ofExcept r = .ok a) : r = .ok a := by
  cases r with
  | error f => cases h
  | ok b =>
    cases h
    rfl

/-- Wherever the decoder is sent, what it gives is read from some sequence. -/
theorem exists_decode_of_decodeAt {t : Ty} {elements : List Json} {cursor : Int} {r : Json × Nat}
    (h : decodeAt m modulus t elements cursor = .ok r) :
    ∃ items position, decode m modulus t items position = .ok r := by
  cases cursor with
  | ofNat position => exact ⟨elements, position, eq_ok_of_ofExcept h⟩
  | negSucc n =>
    rw [decodeAt] at h
    split at h
    · exact ⟨_, 0, mapError_eq_ok_iff.1 (eq_ok_of_ofExcept h)⟩
    · exact ⟨[], 0, mapError_eq_ok_iff.1 h⟩

/-! ### At most -/

/-- Some value of a type is written in as many elements as the type is wide. -/
def Attained (m : Model) (modulus : Int) (t : Ty) : Prop :=
  ∃ v xs, Encodes m modulus t v xs ∧ xs.length = widthOf m t

theorem toElement_zero (hp : 0 < modulus) {kind : Scalar} (hkind : kind.isByteString = false)
    (hbool : kind ≠ .bool) (path : String) : toElement modulus kind path (.int 0) = .ok 0 := by
  by_cases hfelt : kind = .felt
  · subst hfelt
    have hrange : 0 ≤ (0 : Int) ∧ 0 < modulus := ⟨Int.le_refl 0, hp⟩
    rw [toElement, readInteger, ok_bind, if_pos hrange]
    rfl
  · have hinteger := isInteger_of hkind hbool hfelt
    refine (toElement_integer hinteger (Int.ne_of_gt hp)).2 ⟨0, rfl, ?_, ?_, Int.zero_fmod _⟩
    · cases kind with
      | signed w => exact Int.neg_nonpos_of_nonneg (Int.natCast_nonneg _)
      | _ => exact Int.le_refl 0
    · cases kind with
      | signed w => cases w <;> decide
      | unsigned w => cases w <;> decide
      | _ => exact Int.le_refl 0

theorem attained_scalar (hp : 0 < modulus) (kind : Scalar) : Attained m modulus (.scalar kind) := by
  by_cases hbytes : kind.isByteString = true
  · rcases kind_of_isByteString hbytes with rfl | rfl
    · exact ⟨.str "", [0, 0, 0], fun _ _ _ => rfl, rfl⟩
    · exact ⟨.str "0x", [0, 0, 0], fun _ _ _ => rfl, rfl⟩
  have hkind := Bool.eq_false_of_not_eq_true hbytes
  have hwidth : widthOf m (.scalar kind) = if kind.isByteString then 3 else 1 := rfl
  rw [Attained, hwidth, hkind]
  by_cases hbool : kind = .bool
  · subst hbool
    exact ⟨.bool false, [0], fun _ _ _ => rfl, rfl⟩
  · refine ⟨.int 0, [0], fun depth _ path => ?_, rfl⟩
    rw [encodeTy_scalar hkind, toElement_zero hp hkind hbool]
    rfl

/-- The first variant is written as its index. -/
theorem attained_enum {name : String} {spec : Enumeration} (hspec : m.enum? name = some spec)
    (hvariants : spec.variants ≠ []) : Attained m modulus (.enum name) := by
  obtain ⟨variant, others, heq⟩ := List.exists_cons_of_ne_nil hvariants
  have hindex : spec.indexOf? variant = some 0 := by
    rw [Enumeration.indexOf?, heq, List.findIdx?_cons, decide_eq_true rfl]
    rfl
  exact ⟨.str variant, [0], fun _ _ path => encodeTy_enum hspec hindex path, rfl⟩

theorem exists_members {fields : List Field} (h : ∀ f ∈ fields, Attained m modulus f.type) :
    ∃ ms xs, Members m modulus fields ms xs ∧
      xs.length = (fields.map fun f => widthOf m f.type).sum := by
  induction fields with
  | nil => exact ⟨[], [], .nil, rfl⟩
  | cons f fields ih =>
    obtain ⟨v, xs, hv, hxs⟩ := h f (List.mem_cons_self ..)
    obtain ⟨ms, ys, hms, hys⟩ := ih fun g hg => h g (List.mem_cons_of_mem _ hg)
    refine ⟨(f.name, v) :: ms, xs ++ ys, .cons hv hms, ?_⟩
    rw [List.length_append, hxs, hys, List.map_cons, List.sum_cons]

/-- The width of every declared type is attained. -/
theorem attained (hm : m.Sound) (hp : 0 < modulus)
    (hfields : ∀ spec ∈ m.messages, spec.fieldNames.Nodup)
    (hvariants : ∀ spec ∈ m.enums, spec.variants ≠ []) {t : Ty} (ht : t.Declared m) :
    Attained m modulus t := by
  obtain ⟨height, hdescends, -⟩ := hm.exists_height
  refine (grounded_widthStep hm.closed hdescends).induction (fun t ht ih => ?_) ht
  cases t with
  | scalar kind => exact attained_scalar hp kind
  | optional t => exact ⟨.null, [0], fun _ _ _ => rfl, rfl⟩
  | array t => exact ⟨.arr [], [0], fun _ _ _ => rfl, rfl⟩
  | enum name =>
    obtain ⟨spec, hspec⟩ := Option.isSome_iff_exists.1 ht
    exact attained_enum hspec (hvariants spec (Model.mem_of_enum? hspec))
  | message name =>
    obtain ⟨spec, hspec⟩ := Option.isSome_iff_exists.1 ht
    obtain ⟨ms, xs, hms, hlen⟩ := exists_members fun f hf => ih f.type (.field hspec hf)
    refine ⟨.obj ms, xs, encodes_obj hspec (hfields spec (Model.mem_of_message? hspec)) hms, ?_⟩
    rw [hlen, widthOf_message hm hspec]

/-! ### Without the check of lengths -/

def anyFailure (_ _ : Failure) : Prop := True

/-- A decoder that refuses no array at its length. -/
def IsUnchecked (m : Model) (modulus : Int)
    (unchecked : Task × Input → Except Failure (Json × Input)) : Prop :=
  ∀ c, c.1.type.Declared m → unchecked c = onCalls (step m modulus noWidth) unchecked c

theorem inStep_unchecked (hm : m.Sound) {unchecked : Task × Input → Except Failure (Json × Input)}
    (hunchecked : IsUnchecked m modulus unchecked) (task : Task)
    (htask : task.type.Declared m) (s : Input) :
    InStep anyFailure 0 (least m task) (perform m modulus task) (ofCalls unchecked task) s := by
  obtain ⟨height, hdescends, hheight⟩ := hm.exists_height
  have hgrounded : Grounded (onCalls (step m modulus m.minWidth)) _ _ _ _ :=
    grounded_step hm hdescends hheight fun _ => exists_minWidth hm.closed
  refine hgrounded.induction (P := fun c => InStep anyFailure 0 (least m c.1)
    (perform m modulus c.1) (ofCalls unchecked c.1) c.2) (fun c hc ih => ?_) (c := (task, s)) htask
  obtain ⟨task, s⟩ := c
  have hleft : (perform m modulus task).run s =
      (step m modulus m.minWidth (perform m modulus) task).run s := run_perform hm hc s
  have hright : (ofCalls unchecked task).run s =
      (step m modulus noWidth (ofCalls unchecked) task).run s := hunchecked (task, s) hc
  have hstep : InStep anyFailure 0 (least m task)
      (step m modulus m.minWidth (perform m modulus) task)
      (step m modulus noWidth (ofCalls unchecked) task) s :=
    inStep_step hm (fun _ => trivial) (.inr ⟨rfl, rfl, fun _ _ => trivial⟩) hc
      fun task' s' hbelow => ih (task', s') hbelow
  exact hstep.of_run_eq hleft hright

theorem ok_iff_of_inStep {d d' : Decoder Json} {least : Nat} {s s' : Input} {v : Json}
    (h : InStep anyFailure 0 least d d' s) :
    d'.run s = .ok (v, s') ↔ d.run s = .ok (v, s') := by
  constructor
  · intro hd'
    cases hd : d.run s with
    | error f =>
      obtain ⟨f', hfail, -⟩ := h.run_error hd
      cases hfail.symm.trans hd'
    | ok r => exact (h.run_ok hd).2.symm.trans hd'
  · intro hd
    exact (h.run_ok hd).2

/-! ### The width -/

/-- The width of a type is the least number of elements that a value takes, if no message names two
fields alike, and no sequence is refused on account of the width alone. -/
theorem minWidth_exact {text : String} (hm : m.ReadFrom text) (modulus : Int) {t : Ty}
    (ht : t.Declared m) :
    ∃ w, m.minWidth t = .ok w ∧
      (∀ elements cursor v count,
        decodeAt m modulus t elements cursor = .ok (v, count) → w ≤ count) ∧
      (0 < modulus →
        (Model.ofText text = .ok m ∨ ∀ spec ∈ m.messages, spec.fieldNames.Nodup) →
        (∀ spec ∈ m.enums, spec.variants ≠ []) →
        ∃ v xs, encode m modulus t v = .ok xs ∧ xs.length = w) ∧
      (∃ unchecked, IsUnchecked m modulus unchecked) ∧
      ∀ unchecked, IsUnchecked m modulus unchecked → ∀ s v s',
        unchecked (.value t, s) = .ok (v, s') ↔ (read m modulus t).run s = .ok (v, s') := by
  have hsound := hm.sound
  refine ⟨widthOf m t, minWidth_of_declared hsound.closed ht, ?_, ?_, ?_, ?_⟩
  · intro elements cursor v count h
    obtain ⟨items, position, hdecode⟩ := exists_decode_of_decodeAt h
    exact width_le_of_decode hsound ht hdecode
  · intro hp hfields hvariants
    have hnodup : ∀ spec ∈ m.messages, spec.fieldNames.Nodup := by
      rcases hfields with hload | hfields
      · exact (Model.distinct_of_ofText hload).fields
      · exact hfields
    obtain ⟨v, xs, hencodes, hlen⟩ := attained hsound hp hnodup hvariants ht
    exact ⟨v, xs, hencodes _ (Nat.lt_succ_self _) "$", hlen⟩
  · obtain ⟨height, hdescends, hheight⟩ := hsound.exists_height
    exact (grounded_step hsound hdescends hheight fun _ _ => ⟨0, rfl⟩).exists_unfolds
  · intro unchecked hunchecked s v s'
    have hstep : InStep anyFailure 0 _ (read m modulus t) (ofCalls unchecked (.value t)) s :=
      inStep_unchecked hsound hunchecked (.value t) ht s
    exact ok_iff_of_inStep hstep

/-- A pixel takes four elements at the least: those of zero, no note, no parts and red. -/
theorem minWidth_exact_pixel :
    Model.canvas.minWidth (.message "Pixel") = .ok 4 ∧
      (∃ v xs, encode Model.canvas starkPrime (.message "Pixel") v = .ok xs ∧ xs.length = 4) ∧
      ∀ elements cursor v count, decodeAt Model.canvas starkPrime (.message "Pixel") elements cursor =
        .ok (v, count) → 4 ≤ count := by
  obtain ⟨w, hw, hleast, hattained, -⟩ := minWidth_exact (.definitions Model.ofText_canvasText)
    starkPrime (by decide : (Ty.message "Pixel").Declared Model.canvas)
  have hfour : Model.canvas.minWidth (.message "Pixel") = .ok 4 := rfl
  obtain rfl : w = 4 := Except.ok.inj (hw.symm.trans hfour)
  have hpixel := hattained (by decide) (.inl Model.ofText_canvasText) (by decide)
  exact ⟨hfour, hpixel, hleast⟩

/-- A message with two fields of one name, a number and a truth value. -/
def torn : Model where
  package := none
  messages := [⟨"A", [⟨"x", .scalar (.unsigned .w8)⟩, ⟨"x", .scalar .bool⟩]⟩]
  enums := []
  services := []

/-- The reader accepts the lock of `torn`, whose message is two elements wide, and no value is written
as any. -/
theorem minWidth_torn : (∃ l, Lock.ofText torn.lock.text = .ok l ∧ l.model = torn) ∧
    torn.minWidth (.message "A") = .ok 2 ∧ (∀ spec ∈ torn.enums, spec.variants ≠ []) ∧
    ∀ v xs, encode torn starkPrime (.message "A") v ≠ .ok xs := by
  have hsound : torn.lock.model.Sound :=
    ⟨by decide, by decide, by decide, by decide, by unfold Model.Closed; decide, by decide,
      eq_ok_of_toOption (by decide)⟩
  have hordered : torn.lock.model.ordered = torn := by decide +kernel
  refine ⟨⟨_, Lock.ofText_text hsound rfl, hordered⟩, rfl, by decide, fun v xs h => ?_⟩
  obtain ⟨depth, spec, ms, -, hspec, rfl, hfields⟩ := of_encodeMessage h
  cases hspec
  obtain ⟨ys, zs, -, hrest, hnumber⟩ := of_encodeFields_cons hfields
  obtain ⟨ys', zs', -, -, htruth⟩ := of_encodeFields_cons hrest
  obtain ⟨v, path, hlookup, hv⟩ := hnumber.resolve_right fun h => by cases h.2.1
  obtain ⟨v', path', hlookup', hv'⟩ := htruth.resolve_right fun h => by cases h.2.1
  obtain rfl : v = v' := Option.some.inj (hlookup.symm.trans hlookup')
  cases v <;> first | cases hv | cases hv'

end FeltRelay.Codec.Flat
