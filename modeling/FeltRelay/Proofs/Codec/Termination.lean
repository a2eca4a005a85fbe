import FeltRelay.Proofs.Codec.Event.Recursion

/-!
# Decoding ends

Types may refer to themselves through optionals and arrays, and a message may occupy no element. Still
the recursions that find the width of a type and decode a value end under every model that was read,
on every input (`decoding_terminates`). What an input is left with, the height of a message above
those that it contains and the size of a type fall from call to call.
-/

namespace FeltRelay.Codec

open FeltRelay.Schema

variable {m : Model} {modulus : Int}

/-! ### Loops -/

theorem length_of_readTimes {d : Decoder Json} {n : Nat} {s s' : Input} {vs : List Json}
    (h : (readTimes d n).run s = .ok (vs, s')) : vs.length = n := by
  induction n generalizing s vs with
  | zero =>
    cases h
    rfl
  | succ n ih =>
    obtain ⟨v, s₁, -, h⟩ := run_bind_eq_ok_iff.1 h
    obtain ⟨ws, s₂, hrest, h⟩ := run_bind_eq_ok_iff.1 h
    cases run_pure_eq_ok_iff.1 h
    rw [List.length_cons, ih hrest]

namespace Event

/-- Items that each take an event are no more than the events that they take. -/
theorem length_of_decodeItems {d : Decoder Json} {fuel : Nat} {s s' : Input} {vs : List Json}
    (hd : ∀ s₁ v s₂, s₁.rest.length ≤ s.rest.length → d.run s₁ = .ok (v, s₂) →
      s₂.rest.length < s₁.rest.length)
    (h : (decodeItems d fuel).run s = .ok (vs, s')) :
    vs.length + s'.rest.length ≤ s.rest.length := by
  induction fuel generalizing s vs with
  | zero =>
    cases h
    exact (Nat.zero_add _).le
  | succ fuel ih =>
    obtain ⟨closed, s₁, hpop, h⟩ := run_bind_eq_ok_iff.1 h
    obtain ⟨rfl, -⟩ := of_atPop hpop
    cases closed with
    | true =>
      cases h
      change 0 + (s₁.rest.drop 1).length ≤ s₁.rest.length
      rw [Nat.zero_add, List.length_drop]
      exact Nat.sub_le ..
    | false =>
      rw [if_neg Bool.false_ne_true] at h
      obtain ⟨v, s₂, hv, h⟩ := run_bind_eq_ok_iff.1 h
      obtain ⟨ws, s₃, hrest, h⟩ := run_bind_eq_ok_iff.1 h
      cases run_pure_eq_ok_iff.1 h
      have hshort := hd s₁ v s₂ (Nat.le_refl _) hv
      have hws := ih (fun s₁ v s₂ h' => hd s₁ v s₂ (by omega)) hrest
      rw [List.length_cons]
      omega

/-- Elements that are asked for beyond the end of the input make no difference. -/
theorem run_elements_min (n : Nat) (s : Input) :
    (elements modulus n).run s = (elements modulus (min n (s.rest.length + 1))).run s := by
  induction n generalizing s with
  | zero => rfl
  | succ n ih =>
    rw [Nat.succ_min_succ, elements, elements]
    refine run_bind_congr fun e s₁ he => ?_
    have hlen := congrArg List.length (consumed_of_element he).1.rest
    rw [List.length_append, List.length_singleton] at hlen
    have hmin : min n s.rest.length = min n (s₁.rest.length + 1) := by omega
    rw [StateT.run_bind, StateT.run_bind, ih s₁, hmin]

end Event

/-- No loop of the decoders runs longer than it counts, or than the input that it takes. -/
structure LoopsBounded (m : Model) (modulus : Int) : Prop where
  items : ∀ {t n vs s v s'}, (Flat.perform m modulus (.items t n vs)).run s = .ok (v, s') →
    ∃ ws, v = .arr (vs ++ ws) ∧ ws.length = n
  events : ∀ {t vs s v s'}, t.Declared m →
    (Event.perform m modulus (.items t vs)).run s = .ok (v, s') →
    ∃ ws, v = .arr (vs ++ ws) ∧ ws.length + s'.rest.length ≤ s.rest.length
  elements : ∀ n s, (Event.elements modulus n).run s =
    (Event.elements modulus (min n (s.rest.length + 1))).run s
  words : ∀ offset count words r, unpackBytes offset (count :: words) = .ok r →
    count + 2 ≤ words.length

theorem loopsBounded (hm : m.Closed) : LoopsBounded m modulus where
  items := by
    intro t n vs s v s' h
    obtain ⟨start, s₁, hget, h⟩ := run_bind_eq_ok_iff.1 h
    cases hget
    obtain ⟨ws, s₂, hread, h⟩ := run_bind_eq_ok_iff.1 h
    cases run_pure_eq_ok_iff.1 h
    exact ⟨ws, rfl, length_of_readTimes hread⟩
  events := by
    intro t vs s v s' ht h
    obtain ⟨start, s₁, hget, h⟩ := run_bind_eq_ok_iff.1 h
    cases hget
    obtain ⟨start, s₁, hget, h⟩ := run_bind_eq_ok_iff.1 h
    cases hget
    obtain ⟨ws, s₂, hread, h⟩ := run_bind_eq_ok_iff.1 h
    cases run_pure_eq_ok_iff.1 h
    refine ⟨ws, rfl, Event.length_of_decodeItems (fun s₁ v s₂ hle hv => ?_) hread⟩
    exact Event.length_of_decodeTy hm ht (Nat.lt_succ_of_le hle) hv
  elements := Event.run_elements_min
  words := by
    intro offset count words r h
    rw [unpackBytes] at h
    split at h
    · cases h
    · omega

/-- The recursions over types end. -/
theorem decoding_terminates {text : String} (hm : m.ReadFrom text) (modulus : Int) :
    (∃ height : String → Nat, (∀ a b, m.Contains a b → height b < height a) ∧
      Terminates (Flat.widthStep m) m.minWidth (fun t => t.Declared m) (Flat.widthRank height) ∧
      Terminates (onCalls (Flat.step m modulus m.minWidth))
        (fun c => (Flat.perform m modulus c.1).run c.2) (fun c => c.1.type.Declared m)
        (Flat.rank m height) ∧
      Terminates (onCalls (Event.step m modulus))
        (fun c => (Event.perform m modulus c.1).run c.2) (fun c => c.1.type.Declared m)
        (Event.rank m height)) ∧
      (∀ t, Flat.perform m modulus (.value t) = Flat.read m modulus t) ∧
      (∀ t, Event.perform m modulus (.value t) = Event.read m modulus t) ∧
      LoopsBounded m modulus := by
  have hsound := hm.sound
  obtain ⟨height, hdescends, hheight⟩ := hsound.exists_height
  refine ⟨⟨height, hdescends, ?_, ?_, ?_⟩, fun t => rfl, fun t => rfl, loopsBounded hsound.closed⟩
  · exact Flat.terminates_minWidth hsound.closed hdescends hheight
  · exact Flat.terminates_perform hsound hdescends hheight
  · exact Event.terminates_perform hsound.closed hheight

/-- An array of messages that may hold such arrays asks for a message, which is lower, and an array of
messages without fields takes one element. -/
theorem decoding_terminates_canvas :
    (∃ height, ∀ s, Calls (onCalls (Flat.step Model.canvas starkPrime Model.canvas.minWidth))
        (fun c => (Flat.perform Model.canvas starkPrime c.1).run c.2)
        (.items (.message "Pixel") 1 [], s) (.value (.message "Pixel"), s) ∧
      Flat.rank Model.canvas height (.value (.message "Pixel"), s) <
        Flat.rank Model.canvas height (.items (.message "Pixel") 1 [], s)) ∧
      Flat.decode Model.canvas starkPrime (.array (.message "Ack")) [.int 2] 0 =
        .ok (.arr [.obj [], .obj []], 1) := by
  obtain ⟨⟨height, -, -, hflat, -⟩, -⟩ :=
    decoding_terminates (.definitions Model.ofText_canvasText) starkPrime
  refine ⟨⟨height, fun s => ?_⟩, rfl⟩
  have hcalls : Calls (onCalls (Flat.step Model.canvas starkPrime Model.canvas.minWidth))
      (fun c => (Flat.perform Model.canvas starkPrime c.1).run c.2)
      (.items (.message "Pixel") 1 [], s) (.value (.message "Pixel"), s) := by
    intro other f _ hinner
    have hstep : onCalls (Flat.step Model.canvas starkPrime Model.canvas.minWidth) other
        (.items (.message "Pixel") 1 [], s) = other (.value (.message "Pixel"), s) >>= fun r =>
          other (.items (.message "Pixel") 0 ([] ++ [r.1]), r.2) := rfl
    rw [hstep, hinner, error_bind]
  have hdecl : (Ty.message "Pixel").Declared Model.canvas := by decide
  have hlower := hflat.descends (.items (.message "Pixel") 1 [], s) (.value (.message "Pixel"), s)
    hdecl hcalls
  exact ⟨hcalls, hlower.2⟩

end FeltRelay.Codec
