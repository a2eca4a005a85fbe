import FeltRelay.Codec.Event.Decode
import FeltRelay.Proofs.Codec.ByteArray
import FeltRelay.Proofs.Codec.Event.Element
import FeltRelay.Proofs.Codec.InStep

/-!
# Failures some events further on

Where an event is at fault does not depend on what was read before: the same events further on fail
in the same way, and the failure carries the place of the same event (`Relocated`). The one exception
is the layout of a byte string, whose faults carry a place within the byte string.
-/

namespace FeltRelay.Codec.Event

open FeltRelay.Schema FeltRelay.Text

variable {modulus : Int} {k : Nat} {α : Type}

/-! ### Faults of a layout -/

/-- What is wrong with the layout of a byte string all of whose elements are there. -/
def layoutTexts : List String :=
  ["ByteArray word exceeds 31 bytes", "ByteArray pending length must be < 31",
    "ByteArray pending word wider than its length"]

def LayoutFault (f : Failure) : Prop := f.kind = .elementOutOfRange ∧ f.text ∈ layoutTexts

/-- The failure on account of the same event, so many events further on. -/
structure Relocated (k : Nat) (f f' : Failure) : Prop where
  element : ∃ offset, f.place = .element offset
  layout : LayoutFault f → f' = f
  moved : ¬LayoutFault f → f' = f.moved k

theorem notMem_layoutTexts {text : String} (h : text.toList.head? ≠ some 'B') :
    text ∉ layoutTexts := by
  intro hmem
  have hall : ∀ x ∈ layoutTexts, x.toList.head? = some 'B' := by decide
  exact h (hall text hmem)

theorem head?_append_ne {text rest : String} (c : Char) (h : text.toList.head? = some c)
    (hc : c ≠ 'B') : (text ++ rest).toList.head? ≠ some 'B' := by
  rw [String.toList_append, List.head?_append, h, Option.some_or]
  exact fun he => hc (Option.some.inj he)

/-- A failure that carries the place of an event is relocated with it. -/
theorem relocated_at {kind : Failure.Kind} {text : String} {context : List (String × Json)}
    (h : kind ≠ .elementOutOfRange ∨ text.toList.head? ≠ some 'B') (position : Nat) :
    Relocated k ⟨kind, text, .element position, context⟩
      ⟨kind, text, .element (position + k : Nat), context⟩ := by
  have hno : ¬LayoutFault ⟨kind, text, .element position, context⟩ := by
    rintro ⟨hkind, htext⟩
    rcases h with h | h
    · exact h hkind
    · exact notMem_layoutTexts h htext
  refine ⟨⟨_, rfl⟩, fun hf => absurd hf hno, fun _ => ?_⟩
  rw [Failure.moved, Nat.cast_add]

theorem LayoutFault.relocated {f : Failure} (h : LayoutFault f)
    (hplace : ∃ offset, f.place = .element offset) : Relocated k f f :=
  ⟨hplace, fun _ => rfl, fun hno => absurd h hno⟩

theorem Relocated.eq {f f' : Failure} (h : Relocated 0 f f') : f = f' := by
  obtain ⟨offset, hplace⟩ := h.element
  by_cases hf : LayoutFault f
  · exact (h.layout hf).symm
  · obtain ⟨kind, text, place, context⟩ := f
    rw [h.moved hf, Failure.moved]
    simp only at hplace
    simp only [hplace, Nat.cast_zero, Int.add_zero]

/-! ### Checks of elements -/

theorem checks_checkElement (position : Nat) (v : Json) :
    Checks (Relocated k) (checkElement modulus position v)
      (checkElement modulus (position + k : Nat) v) := by
  cases v with
  | int i =>
    rw [checkElement, checkElement]
    by_cases hi : 0 ≤ i ∧ i < modulus
    · rw [if_pos hi, if_pos hi]
      exact .ok _
    · rw [if_neg hi, if_neg hi]
      exact .error (relocated_at (.inr (by decide)) position)
  | _ => exact .error (relocated_at (.inr (head?_append_ne 'e' (by decide) (by decide))) position)

theorem checks_ofElement (kind : Scalar) (position : Nat) (e : Int) :
    Checks (Relocated k) (ofElement modulus kind position e)
      (ofElement modulus kind (position + k : Nat) e) := by
  unfold ofElement
  split
  · split
    · exact .ok _
    · exact .error (relocated_at (.inr (by decide)) position)
  · exact .ok _
  · dsimp only
    split
    · exact .ok _
    · exact .error (relocated_at (.inr (head?_append_ne 'e' (by decide) (by decide))) position)

theorem checks_textOfBytes (kind : Scalar) (position : Nat) (bytes : List UInt8) :
    Checks (Relocated k) (textOfBytes kind position bytes)
      (textOfBytes kind (position + k : Nat) bytes) := by
  unfold textOfBytes
  split
  · split
    · exact .ok _
    · exact .error (relocated_at (.inr (by decide)) position)
  · exact .ok _

/-- Words that are there exceed their size, if anything is wrong with them. -/
theorem layoutFault_of_readWords {count offset : Nat} {s : List Nat} {f : Failure}
    (hlen : count ≤ s.length) (h : readWords count offset s = .error f) :
    LayoutFault f ∧ ∃ offset, f.place = .element offset := by
  induction count generalizing offset s with
  | zero => cases h
  | succ count ih =>
    cases s with
    | nil => cases hlen
    | cons word rest =>
      rw [readWords] at h
      split at h
      · cases h
        exact ⟨⟨rfl, List.mem_cons_self ..⟩, _, rfl⟩
      · rcases bind_eq_error_iff.1 h with h | ⟨r, -, h⟩
        · exact ih (Nat.le_of_succ_le_succ hlen) h
        · cases h

/-- The layout is at fault if all elements of a byte string are there and no byte string is. -/
theorem layoutFault_of_unpackBytes {offset count : Nat} {words : List Nat} {f : Failure}
    (hlen : words.length = count + 2) (h : unpackBytes offset (count :: words) = .error f) :
    LayoutFault f ∧ ∃ offset, f.place = .element offset := by
  rw [unpackBytes, if_neg (by omega)] at h
  rcases bind_eq_error_iff.1 h with h | ⟨⟨bytes, rest⟩, hwords, h⟩
  · exact layoutFault_of_readWords (by omega) h
  · have hrest := congrArg List.length (eq_fullWords_of_readWords hwords).2
    rw [List.length_append, length_fullWords] at hrest
    rcases rest with _ | ⟨pending, _ | ⟨length, rest⟩⟩
    · rw [List.length_nil] at hrest
      omega
    · rw [List.length_singleton] at hrest
      omega
    · dsimp only at h
      split at h
      · cases h
        exact ⟨⟨rfl, List.mem_cons_of_mem _ (List.mem_cons_self ..)⟩, _, rfl⟩
      · split at h <;> cases h
        exact ⟨⟨rfl, List.mem_of_getElem? (i := 2) rfl⟩, _, rfl⟩

/-! ### Single events -/

variable {least : Nat} {s : Input}

/-- Looking at the next event, which is there for whatever comes then. -/
theorem inStep_peek_bind {f f' : Json × Json → Decoder α}
    (h : ∀ op arg rest, s.rest = .arr [op, arg] :: rest →
      InStep (Relocated k) k least (f (op, arg)) (f' (op, arg)) s) :
    InStep (Relocated k) k least (peek >>= f) (peek >>= f') s := by
  obtain ⟨rest, position⟩ := s
  match rest with
  | [] => exact .of_error rfl rfl (relocated_at (.inl (by decide)) position)
  | .arr [op, arg] :: rest => exact h op arg rest rfl
  | .null :: _ | .bool _ :: _ | .int _ :: _ | .num _ :: _ | .str _ :: _ | .obj _ :: _
  | .arr [] :: _ | .arr [_] :: _ | .arr (_ :: _ :: _ :: _) :: _ =>
    exact .of_error rfl rfl (relocated_at (.inl (by decide)) position)

theorem inStep_unexpected (expected : String) (op arg : Json) :
    InStep (Relocated k) k least (unexpected expected op arg : Decoder α)
      (unexpected expected op arg) s :=
  .of_error rfl rfl (relocated_at (.inl (by decide)) s.position)

theorem inStep_advance {R : Failure → Failure → Prop} {e : Json} {rest : List Json}
    (hs : s.rest = e :: rest) :
    InStep R k 1 (modify (·.advance 1) : Decoder Unit) (modify (·.advance 1)) s := by
  have hrun : ∀ s : Input,
      (modify (·.advance 1) : Decoder Unit).run s = .ok ((), s.advance 1) := fun _ => rfl
  refine .of_ok (hrun s) ?_ ((consumed_advance hs).reaches (Nat.le_refl 1))
  rw [hrun, Input.advance_shifted]

theorem inStep_expect (op arg : String) (s : Input) :
    InStep (Relocated k) k 1 (expect op arg) (expect op arg) s := by
  refine inStep_peek_bind fun gotOp gotArg rest hs => ?_
  exact .ite (fun _ => inStep_advance hs) fun _ => inStep_unexpected ..

theorem inStep_element (s : Input) :
    InStep (Relocated k) k 1 (element modulus) (element modulus) s := by
  refine .get_bind (inStep_peek_bind fun op arg rest hs => ?_)
  refine .ite (fun _ => ?_) fun _ => inStep_unexpected ..
  rw [Input.advance_shifted]
  refine .set_bind ?_ (.liftM (checks_checkElement s.position arg))
  exact (consumed_advance hs).reaches (Nat.le_refl 1)

theorem inStep_elements (n : Nat) (s : Input) :
    InStep (Relocated k) k 0 (elements modulus n) (elements modulus n) s := by
  induction n generalizing s with
  | zero => exact .pure []
  | succ n ih =>
    refine .bind_rest (inStep_element s) fun e s₁ _ => ?_
    exact .bind_rest (ih s₁) fun es s₂ _ => .pure _

theorem length_of_elements {n : Nat} {s s' : Input} {ns : List Nat}
    (h : (elements modulus n).run s = .ok (ns, s')) : ns.length = n ∧ n ≤ s.rest.length := by
  obtain ⟨hlen, hread⟩ := consumed_of_elements h
  have hrest := congrArg List.length hread.rest
  rw [List.length_append, List.length_map] at hrest
  omega

theorem inStep_decodeBytes (kind : Scalar) (s : Input) :
    InStep (Relocated k) k 1 (decodeBytes modulus kind) (decodeBytes modulus kind) s := by
  refine .get_bind (.bind_first (inStep_element s) fun count s₁ _ => .get_bind ?_)
  refine (inStep_elements _ s₁).bind_of_run (fun words s₂ hwords => ?_) (Nat.le_refl (0 + 0))
  obtain ⟨hlen, hle⟩ := length_of_elements hwords
  have hcount : words.length = count + 2 := by omega
  have hunpack : Checks (Relocated k) (unpackBytes 0 (count :: words))
      (unpackBytes 0 (count :: words)) := by
    refine .same fun f hf => ?_
    obtain ⟨hlayout, hplace⟩ := layoutFault_of_unpackBytes hcount hf
    exact hlayout.relocated hplace
  refine .check_bind hunpack fun r _ => ?_
  exact .check_bind (checks_textOfBytes kind s.position r.1) fun text _ => .pure _

theorem inStep_atPop_bind {c : Container} {f f' : Bool → Decoder α}
    (h : ∀ closed e rest, s.rest = e :: rest →
      InStep (Relocated k) k least (f closed) (f' closed) s) :
    InStep (Relocated k) k least (atPop c >>= f) (atPop c >>= f') s := by
  rw [atPop, bind_assoc, bind_assoc]
  refine inStep_peek_bind fun op arg rest hs => ?_
  exact h _ _ rest hs

end FeltRelay.Codec.Event
