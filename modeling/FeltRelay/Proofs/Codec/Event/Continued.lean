import FeltRelay.Proofs.Codec.Continued
import FeltRelay.Proofs.Codec.Event.Element
import FeltRelay.Proofs.Codec.Flat.Continued

/-!
# Event decoding of a longer sequence

Events behind a value do not matter to the event decoder either. Whatever it reads spans an event at
least, so the number of events allows for any depth and for any number of items.
-/

namespace FeltRelay.Codec.Event

open FeltRelay.Schema

variable {m : Model} {modulus : Int} {more : List Json} {least : Nat} {s : Input} {α : Type}

/-! ### Single events -/

/-- Looking at the next event, which is there for whatever comes then. -/
theorem continues_peek_bind {f f' : Json × Json → Decoder α}
    (h : ∀ op arg rest, s.rest = .arr [op, arg] :: rest →
      Continues more least (f (op, arg)) (f' (op, arg)) s) :
    Continues more least (peek >>= f) (peek >>= f') s := by
  obtain ⟨rest, position⟩ := s
  match rest with
  | [] => exact .of_truncated (f := .truncated position "event stream ended early") rfl rfl
  | .arr [op, arg] :: rest => exact h op arg rest rfl
  | .null :: _ | .bool _ :: _ | .int _ :: _ | .num _ :: _ | .str _ :: _ | .obj _ :: _
  | .arr [] :: _ | .arr [_] :: _ | .arr (_ :: _ :: _ :: _) :: _ =>
    exact .of_error rfl rfl (.inr rfl)

theorem continues_unexpected (expected : String) (op arg : Json) :
    Continues more least (unexpected expected op arg : Decoder α) (unexpected expected op arg) s :=
  .of_error rfl rfl (.inr rfl)

theorem continues_advance {e : Json} {rest : List Json} (hs : s.rest = e :: rest) :
    Continues more 1 (modify (·.advance 1) : Decoder Unit) (modify (·.advance 1)) s := by
  obtain ⟨items, position⟩ := s
  subst hs
  have hrun : ∀ items, (modify (·.advance 1) : Decoder Unit).run ⟨e :: items, position⟩ =
      .ok ((), ⟨items, position + 1⟩) := fun _ => rfl
  exact .of_ok (hrun rest) (Nat.le_refl _) (hrun (rest ++ more))

theorem continues_expect (op arg : String) (s : Input) :
    Continues more 1 (expect op arg) (expect op arg) s := by
  refine continues_peek_bind fun gotOp gotArg rest hs => ?_
  dsimp only
  by_cases hgot : (isText op gotOp && isText arg gotArg) = true
  · rw [if_pos hgot]
    exact continues_advance hs
  · rw [if_neg hgot]
    exact continues_unexpected ..

theorem continues_element (s : Input) :
    Continues more 1 (element modulus) (element modulus) s := by
  refine .get_bind (continues_peek_bind fun op arg rest hs => ?_)
  dsimp only
  by_cases hop : isText "value" op = true
  · rw [if_pos hop, if_pos hop]
    have hadvance : (s.followedBy more).advance 1 = (s.advance 1).followedBy more := by
      rw [Input.followedBy, Input.advance, hs, Input.followedBy, Input.advance, hs]
      rfl
    rw [hadvance]
    refine .set_bind ?_ (.liftM fun f => kind_of_checkElement)
    rw [Input.advance, hs]
    exact Nat.le_refl _
  · rw [if_neg hop, if_neg hop]
    exact continues_unexpected ..

theorem continues_elements (n : Nat) (s : Input) :
    Continues more 0 (elements modulus n) (elements modulus n) s := by
  induction n generalizing s with
  | zero => exact .pure []
  | succ n ih =>
    refine .bind_rest (continues_element s) fun e s₁ _ => ?_
    exact .bind_rest (ih s₁) fun es s₂ _ => .pure _

/-- Elements that the shorter sequence does not have, no matter how many. -/
theorem continues_elements_short {n n' : Nat} (hshort : s.rest.length < n) (hle : n ≤ n') :
    Continues more 0 (elements modulus n) (elements modulus n') s := by
  induction n generalizing n' s with
  | zero => exact absurd hshort (Nat.not_lt_zero _)
  | succ n ih =>
    obtain ⟨n', rfl⟩ : ∃ k, n' = k + 1 := ⟨n' - 1, by omega⟩
    refine .bind_rest (continues_element s) fun e s₁ h₁ => ?_
    exact .bind_rest (ih (by omega) (Nat.le_of_succ_le_succ hle)) fun es s₂ _ => .pure _

theorem continues_decodeBytes (kind : Scalar) (s : Input) :
    Continues more 1 (decodeBytes modulus kind) (decodeBytes modulus kind) s := by
  refine .get_bind (.bind_first (continues_element s) fun count s₁ _ => .get_bind ?_)
  have hlen := s₁.length_followedBy more
  -- The number of elements that are asked for is bounded by those at hand, which are not the same.
  have helements : Continues more 0 (elements modulus (min (count + 2) (s₁.rest.length + 1)))
      (elements modulus (min (count + 2) ((s₁.followedBy more).rest.length + 1))) s₁ := by
    by_cases hroom : count + 2 ≤ s₁.rest.length
    · rw [Nat.min_eq_left (by omega), Nat.min_eq_left (by omega)]
      exact continues_elements _ s₁
    · exact continues_elements_short (by omega) (by omega)
  refine .bind_rest helements fun words s₂ _ => ?_
  refine .check_bind (fun f => kind_of_unpackBytes) fun r _ => ?_
  exact .check_bind (fun f => kind_of_textOfBytes) fun text _ => .pure _

theorem continues_atPop_bind {c : Container} {f f' : Bool → Decoder α}
    (h : ∀ closed e rest, s.rest = e :: rest → Continues more least (f closed) (f' closed) s) :
    Continues more least (atPop c >>= f) (atPop c >>= f') s := by
  rw [atPop, bind_assoc, bind_assoc]
  refine continues_peek_bind fun op arg rest hs => ?_
  exact h _ _ rest hs

/-! ### Types -/

/-- Items up to the closing of their array, which is an event of its own. -/
theorem continues_decodeItems {d d' : Decoder Json} {fuel fuel' : Nat}
    (h : ∀ s', s'.rest.length ≤ s.rest.length → Continues more 1 d d' s')
    (hfuel : s.rest.length < fuel) (hle : fuel ≤ fuel') :
    Continues more 0 (decodeItems d fuel) (decodeItems d' fuel') s := by
  induction fuel generalizing fuel' s with
  | zero => exact absurd hfuel (Nat.not_lt_zero _)
  | succ fuel ih =>
    obtain ⟨fuel', rfl⟩ : ∃ k, fuel' = k + 1 := ⟨fuel' - 1, by omega⟩
    rw [decodeItems, decodeItems]
    refine continues_atPop_bind fun closed e rest hs => ?_
    cases closed with
    | true =>
      rw [if_pos rfl, if_pos rfl]
      exact .bind_rest (continues_advance hs) fun _ s₁ _ => .pure []
    | false =>
      rw [if_neg Bool.false_ne_true, if_neg Bool.false_ne_true]
      -- An item has an event at least, so the fuel that is left suffices for the events left.
      refine .bind_rest (h s (Nat.le_refl _)) fun v s₁ h₁ => ?_
      have hitems := ih (s := s₁) (fun s' h' => h s' (by omega)) (by omega)
        (Nat.le_of_succ_le_succ hle)
      exact .bind_rest hitems fun vs s₂ _ => .pure _

/-- What the decoder of messages does on a sequence of fewer events than its depth, a deeper one
does on the longer sequence. -/
def ContinuesMessages (m : Model) (modulus : Int) (more : List Json) (depth depth' : Nat) : Prop :=
  ∀ {name s}, (m.message? name).isSome → s.rest.length < depth →
    Continues more 1 (decodeMessage m modulus depth name) (decodeMessage m modulus depth' name) s

variable {depth depth' : Nat}

theorem continues_enum {ofMessage ofMessage' : String → Decoder Json} {name : String}
    (hdecl : (m.enum? name).isSome) (s : Input) :
    Continues more 1 (decodeTy m modulus ofMessage (.enum name))
      (decodeTy m modulus ofMessage' (.enum name)) s := by
  obtain ⟨spec, hspec⟩ := Option.isSome_iff_exists.1 hdecl
  rw [decodeTy, decodeTy]
  refine .liftM_bind (Model.enum_of_enum? hspec) ?_
  refine .bind_first (continues_expect _ _ s) fun _ s₁ _ => .get_bind ?_
  refine .bind_rest (continues_element s₁) fun i s₂ _ => ?_
  cases spec.variants[i]? with
  | none => exact .throw rfl
  | some variant => exact .bind_rest (continues_expect _ _ s₂) fun _ s₃ _ => .pure _

theorem continues_decodeTy (hmsg : ContinuesMessages m modulus more depth depth') {t : Ty}
    (ht : t.Declared m) (hdepth : s.rest.length < depth) :
    Continues more 1 (decodeTy m modulus (decodeMessage m modulus depth) t)
      (decodeTy m modulus (decodeMessage m modulus depth') t) s := by
  induction t generalizing s with
  | scalar k =>
    rw [decodeTy, decodeTy]
    by_cases hk : k.isByteString = true
    · rw [if_pos hk]
      exact continues_decodeBytes k s
    · rw [if_neg hk]
      refine .get_bind (.bind_first (continues_element s) fun e s₁ _ => ?_)
      exact .liftM fun f => kind_of_ofElement
  | message name => exact hmsg ht hdepth
  | enum name => exact continues_enum ht s
  | optional t ih =>
    rw [decodeTy, decodeTy]
    refine .bind_first (continues_expect _ _ s) fun _ s₁ h₁ => ?_
    refine continues_atPop_bind fun closed e rest hs => ?_
    cases closed with
    | true =>
      rw [if_pos rfl, if_pos rfl]
      exact .bind_rest (continues_advance hs) fun _ s₂ _ => .pure _
    | false =>
      rw [if_neg Bool.false_ne_true, if_neg Bool.false_ne_true]
      refine .bind_rest (ih ht (by omega)) fun v s₂ _ => ?_
      exact .bind_rest (continues_expect _ _ s₂) fun _ s₃ _ => .pure _
  | array t ih =>
    rw [decodeTy, decodeTy]
    refine .bind_first (continues_expect _ _ s) fun _ s₁ h₁ => .get_bind ?_
    have hlen := s₁.length_followedBy more
    -- The fuel for the items is what is left, which is more in the longer sequence.
    suffices hitems : Continues more 0 (decodeItems _ (s₁.rest.length + 1))
        (decodeItems _ ((s₁.followedBy more).rest.length + 1)) s₁ from
      .bind_rest hitems fun vs s₂ _ => .pure _
    exact continues_decodeItems (fun s' h' => ih ht (by omega)) (Nat.lt_succ_self _) (by omega)

/-! ### Messages -/

theorem continues_decodeFields {decode decode' : Ty → Decoder Json} {fields : List Field}
    (h : ∀ f ∈ fields, ∀ s' : Input, s'.rest.length ≤ s.rest.length →
      Continues more 1 (decode f.type) (decode' f.type) s') (ms : List (String × Json)) :
    Continues more 0 (decodeFields decode ms fields) (decodeFields decode' ms fields) s := by
  induction fields generalizing ms s with
  | nil => exact .pure ms
  | cons f fields ih =>
    refine .bind_rest (continues_expect _ _ s) fun _ s₁ h₁ => ?_
    refine .bind_rest (h f (List.mem_cons_self ..) s₁ (by omega)) fun v s₂ h₂ => ?_
    exact ih (fun g hg s' h' => h g (List.mem_cons_of_mem _ hg) s' (by omega)) _

theorem continuesMessages (hm : m.Closed) (hle : depth ≤ depth') :
    ContinuesMessages m modulus more depth depth' := by
  induction depth generalizing depth' with
  | zero =>
    intro name s _ hdepth
    exact absurd hdepth (Nat.not_lt_zero _)
  | succ depth ih =>
    intro name s hdecl hdepth
    obtain ⟨depth', rfl⟩ : ∃ k, depth' = k + 1 := ⟨depth' - 1, by omega⟩
    obtain ⟨spec, hspec⟩ := Option.isSome_iff_exists.1 hdecl
    rw [decodeMessage, decodeMessage]
    refine .liftM_bind (Model.message_of_message? hspec) ?_
    refine .bind_first (continues_expect _ _ s) fun _ s₁ h₁ => ?_
    refine .bind_rest (continues_decodeFields (fun f hf s' h' => ?_) []) fun ms s₂ _ => ?_
    · refine continues_decodeTy (ih (Nat.le_of_succ_le_succ hle)) ?_ (by omega)
      exact hm spec (Model.mem_of_message? hspec) f hf
    · exact .bind_rest (continues_expect _ _ s₂) fun _ s₃ _ => .pure _

/-! ### Whole sequences -/

/-- A value is read from a sequence as from every longer one, unless it is cut off. -/
theorem continues_read (hm : m.Closed) {t : Ty} (ht : t.Declared m) (s : Input) :
    Continues more 1 (read m modulus t) (read m modulus t) s := by
  have hlen := s.length_followedBy more
  refine .get_bind (continues_decodeTy (continuesMessages hm ?_) ht (Nat.lt_succ_self _))
  omega

/-- Events behind a value are left over. -/
theorem decode_of_left {t : Ty} {items more : List Json} {v : Json}
    (h : (read m modulus t).run ⟨items ++ more, 0⟩ = .ok (v, ⟨more, items.length⟩))
    (hmore : more ≠ []) :
    decode m modulus t (items ++ more) = .error ⟨.trailingElements,
      Text.decimal more.length ++ " event(s) left after decoding", .element items.length,
      [("remaining", more.length)]⟩ := by
  obtain ⟨hne, hleft⟩ := length_extended items hmore
  rw [decode, Input.from, List.drop_zero, h, ok_bind]
  dsimp only
  rw [if_pos hne, hleft]
  rfl

end FeltRelay.Codec.Event
