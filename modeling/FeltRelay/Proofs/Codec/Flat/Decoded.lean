import FeltRelay.Proofs.Codec.Flat.Canonical

/-!
# Values that were decoded

A message is decoded as an object, and no decoded value holds a number that JSON has no text for: of
numbers it holds integers only.
-/

namespace FeltRelay.Codec.Flat

open FeltRelay.Schema FeltRelay.Text

variable {m : Model} {modulus : Int}

/-- A decoder gives values that JSON has a text for. -/
def GivesFinite (d : Decoder Json) : Prop :=
  ∀ s v s', d.run s = .ok (v, s') → v.isFinite = true

theorem itemsFinite_iff (vs : List Json) :
    Json.itemsFinite vs = true ↔ ∀ v ∈ vs, v.isFinite = true := by
  induction vs with
  | nil => simp [Json.itemsFinite]
  | cons v vs ih => simp [Json.itemsFinite, ih]

theorem membersFinite_iff (ms : List (String × Json)) :
    Json.membersFinite ms = true ↔ ∀ e ∈ ms, e.2.isFinite = true := by
  induction ms with
  | nil => simp [Json.membersFinite]
  | cons e ms ih => simp [Json.membersFinite, ih]

theorem isFinite_of_ofElement {s : Scalar} {offset e : Int} {v : Json}
    (h : ofElement modulus s offset e = .ok v) : v.isFinite = true := by
  rcases of_ofElement h with ⟨b, rfl⟩ | ⟨i, rfl⟩
  · rfl
  · rfl

theorem isFinite_of_readTimes {d : Decoder Json} (hd : GivesFinite d) {n : Nat} {s s' : Input}
    {vs : List Json} (h : (readTimes d n).run s = .ok (vs, s')) : ∀ v ∈ vs, v.isFinite = true := by
  induction n generalizing s vs with
  | zero =>
    cases h
    exact fun v hv => absurd hv List.not_mem_nil
  | succ n ih =>
    obtain ⟨v, s₁, hv, hrest⟩ := run_bind_eq_ok_iff.1 h
    obtain ⟨vs', s₂, hvs, hret⟩ := run_bind_eq_ok_iff.1 hrest
    cases run_pure_eq_ok_iff.1 hret
    exact List.forall_mem_cons.2 ⟨hd _ _ _ hv, ih hvs⟩

theorem givesFinite_decodeTy {ofMessage : String → Decoder Json}
    (hmsg : ∀ name, GivesFinite (ofMessage name)) (t : Ty) :
    GivesFinite (decodeTy m modulus ofMessage t) := by
  induction t with
  | scalar k =>
    intro s v s' h
    rw [decodeTy] at h
    by_cases hk : k.isByteString = true
    · rw [if_pos hk] at h
      obtain ⟨_, _, rfl, -, -⟩ := consumed_of_decodeBytes h
      rfl
    · rw [if_neg hk] at h
      obtain ⟨start, i₁, -, h⟩ := run_bind_eq_ok_iff.1 h
      obtain ⟨e, i₁, -, h⟩ := run_bind_eq_ok_iff.1 h
      rw [run_liftM] at h
      obtain ⟨w, hw, hpair⟩ := map_eq_ok_iff.1 h
      cases hpair
      exact isFinite_of_ofElement hw
  | message name => exact hmsg name
  | enum name =>
    intro s v s' h
    rw [decodeTy] at h
    obtain ⟨spec, i₁, -, h⟩ := run_bind_eq_ok_iff.1 h
    obtain ⟨start, i₁, -, h⟩ := run_bind_eq_ok_iff.1 h
    obtain ⟨n, i₁, -, h⟩ := run_bind_eq_ok_iff.1 h
    split at h
    · cases run_pure_eq_ok_iff.1 h
      rfl
    · cases h
  | optional t ih =>
    intro s v s' h
    rw [decodeTy] at h
    obtain ⟨start, i₁, -, h⟩ := run_bind_eq_ok_iff.1 h
    obtain ⟨flag, s₁, -, h⟩ := run_bind_eq_ok_iff.1 h
    split at h
    · cases run_pure_eq_ok_iff.1 h
      rfl
    · split at h
      · exact ih _ _ _ h
      · cases h
  | array t ih =>
    intro s v s' h
    obtain ⟨n, vs, s₁, rfl, -, hvs⟩ := of_decodeTy_array h
    exact (itemsFinite_iff vs).2 (isFinite_of_readTimes ih hvs)

theorem isFinite_of_decodeFields {decode : Ty → Decoder Json}
    (hd : ∀ t, GivesFinite (decode t)) {fields : List Field} {old ms : List (String × Json)}
    (hold : ∀ e ∈ old, e.2.isFinite = true) {s s' : Input}
    (h : (decodeFields decode old fields).run s = .ok (ms, s')) :
    ∀ e ∈ ms, e.2.isFinite = true := by
  induction fields generalizing old s with
  | nil =>
    cases run_pure_eq_ok_iff.1 h
    exact hold
  | cons f fields ih =>
    obtain ⟨v, s₁, hv, hrest⟩ := run_bind_eq_ok_iff.1 h
    refine ih (fun e he => ?_) hrest
    rcases Entries.mem_of_mem_put he with rfl | hmem
    · exact hd _ _ _ _ hv
    · exact hold e hmem

theorem givesFinite_decodeMessage (depth : Nat) (name : String) :
    GivesFinite (decodeMessage m modulus depth name) := by
  induction depth generalizing name with
  | zero =>
    intro s v s' h
    cases h
  | succ depth ih =>
    intro s v s' h
    obtain ⟨depth', spec, ms, hdepth, -, rfl, hms⟩ := of_decodeMessage h
    cases hdepth
    have hfields := isFinite_of_decodeFields (givesFinite_decodeTy ih)
      (fun e he => absurd he List.not_mem_nil) hms
    exact (membersFinite_iff ms).2 hfields

/-- A sequence that is read whole as a message is read as an object that can be sent. -/
theorem of_decodeExact_message {name : String} {elements : List Json} {v : Json}
    (h : decodeExact m modulus (.message name) elements = .ok v) :
    (∃ ms, v = .obj ms) ∧ v.isFinite = true := by
  obtain ⟨⟨v', count⟩, hdecode, hret⟩ := bind_eq_ok_iff.1 h
  obtain ⟨⟨v'', s'⟩, hread, hpair⟩ := bind_eq_ok_iff.1 hdecode
  cases hpair
  dsimp only at hret
  split at hret
  · cases hret
  · cases hret
    obtain ⟨s₀, s₁, -, hrun⟩ := run_bind_eq_ok_iff.1 hread
    obtain ⟨-, -, ms, -, -, rfl, -⟩ := of_decodeMessage hrun
    exact ⟨⟨ms, rfl⟩, givesFinite_decodeMessage _ name _ _ _ hrun⟩

end FeltRelay.Codec.Flat
