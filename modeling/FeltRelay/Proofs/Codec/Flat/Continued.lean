import FeltRelay.Proofs.Codec.Continued
import FeltRelay.Proofs.Codec.Flat.Depth
import FeltRelay.Proofs.Codec.Flat.Element
import FeltRelay.Proofs.Codec.Flat.Width
import FeltRelay.Proofs.Schema.Text

/-!
# Flat decoding of a longer sequence

Elements behind a value do not matter to the flat decoder, and without elements at its end a value
is not read as another one (`continues_read`). The lengths that are tested before anything is read,
of an array and of a byte string, fail on account of missing elements only.
-/

namespace FeltRelay.Codec

open FeltRelay.Schema FeltRelay.Text

/-! ### Kinds of failure -/

theorem kind_of_checkElement {modulus offset : Int} {v : Json} {f : Failure}
    (h : checkElement modulus offset v = .error f) : f.kind.isWithin .decode = true := by
  unfold checkElement at h
  split at h
  · split at h <;> cases h
    rfl
  · cases h
    rfl

theorem kind_of_ofElement {modulus : Int} {s : Scalar} {offset e : Int} {f : Failure}
    (h : ofElement modulus s offset e = .error f) : f.kind.isWithin .decode = true := by
  rw [fault_of_ofElement h]
  rfl

theorem kind_of_unpackBytes {offset : Nat} {s : List Nat} {f : Failure}
    (h : unpackBytes offset s = .error f) : f.kind.isWithin .decode = true := by
  rcases fault_of_unpackBytes h with hkind | hkind
  · rw [hkind]
    rfl
  · rw [hkind]
    rfl

theorem kind_of_textOfBytes {kind : Scalar} {offset : Int} {bytes : List UInt8} {f : Failure}
    (h : textOfBytes kind offset bytes = .error f) : f.kind.isWithin .decode = true := by
  unfold textOfBytes at h
  split at h
  · split at h <;> cases h
    rfl
  · cases h

/-- A byte string is not looked into before all of its elements are there. -/
theorem unpackBytes_short (offset : Nat) {count : Nat} {rest : List Nat}
    (h : rest.length < count + 2) :
    ∃ f, unpackBytes offset (count :: rest) = .error f ∧ f.kind = .truncated := by
  rw [unpackBytes, if_pos h]
  exact ⟨_, rfl, rfl⟩

namespace Flat

variable {m : Model} {modulus : Int} {more : List Json}

/-! ### Elements -/

theorem continues_takeElement (what : String) (s : Input) :
    Continues more 1 (takeElement modulus what) (takeElement modulus what) s := by
  obtain ⟨rest, position⟩ := s
  cases rest with
  | nil =>
    exact .of_truncated (f := .truncated position ("sequence ended while reading " ++ what)) rfl rfl
  | cons e rest =>
    have hrun : ∀ items, (takeElement modulus what).run ⟨e :: items, position⟩ =
        (checkElement modulus position e).map fun n => (n, ⟨items, position + 1⟩) :=
      fun items => run_takeElement_cons what e items position
    cases hcheck : checkElement modulus position e with
    | error f =>
      rw [hcheck] at hrun
      exact .of_error (hrun rest) (kind_of_checkElement hcheck) (.inr (hrun (rest ++ more)))
    | ok n =>
      rw [hcheck] at hrun
      exact .of_ok (hrun rest) (Nat.le_refl _) (hrun (rest ++ more))

theorem checkElements_append (position : Nat) (xs ys : List Json) :
    checkElements modulus position (xs ++ ys) = (do
      let ms ← checkElements modulus position xs
      let ns ← checkElements modulus (position + xs.length) ys
      return ms ++ ns) := by
  induction xs generalizing position with
  | nil =>
    rw [List.nil_append, checkElements, ok_bind, List.length_nil, Nat.add_zero]
    cases checkElements modulus position ys <;> rfl
  | cons e xs ih =>
    rw [List.cons_append, checkElements, checkElements, ih, List.length_cons,
      Nat.add_right_comm, Nat.add_assoc position]
    cases checkElement modulus position e with
    | error f => rfl
    | ok n =>
      rw [ok_bind, ok_bind]
      cases checkElements modulus (position + 1) xs with
      | error f => rfl
      | ok ms =>
        rw [ok_bind, ok_bind, pure_eq_ok, ok_bind]
        cases checkElements modulus (position + (xs.length + 1)) ys <;> rfl

theorem kind_of_checkElements {position : Nat} {items : List Json} {f : Failure}
    (h : checkElements modulus position items = .error f) : f.kind.isWithin .decode = true := by
  induction items generalizing position with
  | nil => cases h
  | cons e items ih =>
    rcases bind_eq_error_iff.1 h with h | ⟨n, -, h⟩
    · exact kind_of_checkElement h
    · rcases bind_eq_error_iff.1 h with h | ⟨ns, -, h⟩
      · exact ih h
      · cases h

theorem continues_decodeBytes (kind : Scalar) (s : Input) :
    Continues more 0 (decodeBytes modulus kind) (decodeBytes modulus kind) s := by
  refine .get_bind (.bind_rest (continues_takeElement _ s) fun count s₁ _ => .get_bind ?_)
  have hrest : (s₁.followedBy more).rest = s₁.rest ++ more := rfl
  rw [hrest]
  by_cases hroom : count + 2 ≤ s₁.rest.length
  · rw [List.take_append_of_le_length hroom]
    refine .check_bind (fun f => kind_of_checkElements) fun words _ => ?_
    refine .check_bind (fun f => kind_of_unpackBytes) fun r _ => ?_
    have hadvance : (s₁.followedBy more).advance (count + 2) =
        (s₁.advance (count + 2)).followedBy more := by
      rw [Input.advance, hrest, List.drop_append_of_le_length hroom]
      rfl
    dsimp only
    rw [hadvance]
    refine .set_bind (List.drop_sublist ..).length_le ?_
    exact .check_bind (fun f => kind_of_textOfBytes) fun text _ => .pure _
  -- What is there is checked first, and is too short even if it passes.
  · have htake : s₁.rest.take (count + 2) = s₁.rest := List.take_of_length_le (by omega)
    rw [List.take_append, htake]
    cases hcheck : checkElements modulus s₁.position s₁.rest with
    | error f =>
      refine .of_error (f := f) rfl (kind_of_checkElements hcheck) (.inr ?_)
      have hposition : (s₁.followedBy more).position = s₁.position := rfl
      rw [hposition, checkElements_append, hcheck]
      rfl
    | ok words =>
      have hitems := congrArg List.length (eq_items_of_checkElements hcheck)
      rw [List.length_map] at hitems
      have hshort : words.length < count + 2 := by omega
      obtain ⟨f, hf, hkind⟩ := unpackBytes_short s.position hshort
      refine .of_truncated (f := f) ?_ hkind
      rw [StateT.run_bind, run_liftM, map_ok, ok_bind, StateT.run_bind, run_liftM, hf]
      rfl

/-! ### Types -/

/-- What the decoder of messages does on an input that it has the depth for, a deeper one does on
the longer input. -/
def ContinuesMessages (m : Model) (modulus : Int) (more : List Json) (height : String → Nat)
    (depth depth' : Nat) : Prop :=
  ∀ {name s}, (m.message? name).isSome → need m height (.message name) s.rest.length ≤ depth →
    Continues more 0 (decodeMessage m modulus depth name) (decodeMessage m modulus depth' name) s

variable {height : String → Nat} {depth depth' : Nat}

theorem continues_enum {ofMessage ofMessage' : String → Decoder Json} {name : String}
    (hdecl : (m.enum? name).isSome) (s : Input) :
    Continues more 0 (decodeTy m modulus ofMessage (.enum name))
      (decodeTy m modulus ofMessage' (.enum name)) s := by
  obtain ⟨spec, hspec⟩ := Option.isSome_iff_exists.1 hdecl
  rw [decodeTy, decodeTy]
  refine .liftM_bind (Model.enum_of_enum? hspec) (.get_bind ?_)
  refine .bind_rest (continues_takeElement _ s) fun i s₁ _ => ?_
  cases spec.variants[i]? with
  | none => exact .throw rfl
  | some variant => exact .pure _

theorem continues_decodeTy (hm : m.Closed) (hheight : ∀ a, height a ≤ m.messages.length)
    (hmsg : ContinuesMessages m modulus more height depth depth') {t : Ty} (ht : t.Declared m)
    {s : Input} (hneed : need m height t s.rest.length ≤ depth) :
    Continues more 0 (decodeTy m modulus (decodeMessage m modulus depth) t)
      (decodeTy m modulus (decodeMessage m modulus depth') t) s := by
  induction t generalizing s with
  | scalar k =>
    rw [decodeTy, decodeTy]
    by_cases hk : k.isByteString = true
    · rw [if_pos hk]
      exact continues_decodeBytes k s
    · rw [if_neg hk]
      refine .get_bind (.bind_rest (continues_takeElement _ s) fun e s₁ _ => ?_)
      exact .liftM fun f => kind_of_ofElement
  | message name => exact hmsg ht hneed
  | enum name => exact continues_enum ht s
  | optional t ih =>
    rw [decodeTy, decodeTy]
    refine .get_bind (.bind_rest (continues_takeElement _ s) fun flag s₁ h₁ => ?_)
    by_cases hzero : flag = 0
    · rw [if_pos hzero, if_pos hzero]
      exact .pure _
    by_cases hone : flag = 1
    · rw [if_neg hzero, if_neg hzero, if_pos hone, if_pos hone]
      exact ih ht (need_of_lt hheight (by omega) hneed)
    · rw [if_neg hzero, if_neg hzero, if_neg hone, if_neg hone]
      exact .throw rfl
  | array t ih =>
    obtain ⟨width, hwidth⟩ := exists_minWidth hm (show t.Declared m from ht)
    rw [decodeTy, decodeTy]
    refine .get_bind (.bind_rest (continues_takeElement _ s) fun n s₁ h₁ => ?_)
    by_cases hmax : maxArrayLength < n
    · rw [if_pos hmax, if_pos hmax]
      exact .throw rfl
    rw [if_neg hmax, if_neg hmax]
    refine .liftM_bind hwidth (.get_bind ?_)
    by_cases hshort : s₁.rest.length < n * width
    · dsimp only
      rw [if_pos hshort]
      exact .of_truncated rfl rfl
    -- What suffices for the items in the shorter input does so in the longer one.
    have hlong : ¬(s₁.followedBy more).rest.length < n * width := by
      rw [Input.length_followedBy]
      omega
    dsimp only
    rw [if_neg hshort, if_neg hlong]
    refine .bind_first (.readTimes (fun s' h' => ih ht ?_) n) fun vs s₂ _ => .pure _
    exact need_of_lt hheight (by omega) hneed

/-! ### Messages -/

theorem continues_decodeFields {decode decode' : Ty → Decoder Json} {fields : List Field}
    {s : Input} (h : ∀ f ∈ fields, ∀ s' : Input, s'.rest.length ≤ s.rest.length →
      Continues more 0 (decode f.type) (decode' f.type) s') (ms : List (String × Json)) :
    Continues more 0 (decodeFields decode ms fields) (decodeFields decode' ms fields) s := by
  induction fields generalizing ms s with
  | nil => exact .pure ms
  | cons f fields ih =>
    have hhead := h f (List.mem_cons_self ..) s (Nat.le_refl _)
    refine .bind_rest hhead fun v s₁ h₁ => ih (fun g hg s' h' => ?_) _
    exact h g (List.mem_cons_of_mem _ hg) s' (by omega)

theorem continuesMessages (hm : m.Closed) (hheight : ∀ a, height a ≤ m.messages.length)
    (hdescends : ∀ a b, m.Contains a b → height b < height a) (hdepth : depth ≤ depth') :
    ContinuesMessages m modulus more height depth depth' := by
  induction depth generalizing depth' with
  | zero =>
    intro name s _ hneed
    obtain ⟨k, hk⟩ := need_message_pos hneed
    omega
  | succ depth ih =>
    intro name s hdecl hneed
    obtain ⟨depth', rfl⟩ : ∃ k, depth' = k + 1 := ⟨depth' - 1, by omega⟩
    obtain ⟨spec, hspec⟩ := Option.isSome_iff_exists.1 hdecl
    rw [decodeMessage, decodeMessage]
    refine .liftM_bind (Model.message_of_message? hspec) ?_
    refine .bind_rest (continues_decodeFields (fun f hf s' h' => ?_) []) fun ms s₁ _ => .pure _
    refine continues_decodeTy hm hheight (ih (Nat.le_of_succ_le_succ hdepth)) ?_ ?_
    · exact hm spec (Model.mem_of_message? hspec) f hf
    · exact need_field hdescends hspec hf h' hneed

/-! ### Whole sequences -/

/-- A value is read from a sequence as from every longer one, unless it is cut off. -/
theorem continues_read (hm : m.Sound) {t : Ty} (ht : t.Declared m) (s : Input) :
    Continues more 0 (read m modulus t) (read m modulus t) s := by
  obtain ⟨height, hdescends, hheight⟩ := hm.exists_height
  have hlen : s.rest.length ≤ (s.followedBy more).rest.length := by
    rw [Input.length_followedBy]
    exact Nat.le_add_right ..
  have hdepth : nestingBound m s.rest.length ≤ nestingBound m (s.followedBy more).rest.length :=
    Nat.mul_le_mul_left _ (Nat.succ_le_succ hlen)
  refine .get_bind (continues_decodeTy hm.closed hheight ?_ ht ?_)
  · exact continuesMessages hm.closed hheight hdescends hdepth
  · exact need_le_nestingBound hheight t (Nat.le_refl _)

end Flat

end FeltRelay.Codec
