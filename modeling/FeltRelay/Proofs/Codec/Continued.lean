import FeltRelay.Proofs.Codec.Input

/-!
# Decoding a longer input

A decoder gives one result for an input and for every longer one that begins with it, unless it
misses something at the end of the shorter one. `Continues` says this of a decoder and of another
one for the longer input, as the depth that a decoder allows itself grows with the input. It says
besides that no failure is of another kind than those of decoding, and how many items are read at
the least.
-/

namespace FeltRelay.Codec

variable {α β : Type}

/-- The input with more items behind it. -/
def Input.followedBy (s : Input) (more : List Json) : Input := ⟨s.rest ++ more, s.position⟩

theorem Input.length_followedBy (s : Input) (more : List Json) :
    (s.followedBy more).rest.length = s.rest.length + more.length := List.length_append

/-- What one decoder does on an input, the other one does on the longer input, unless the first one
runs out of items. -/
def Continues (more : List Json) (least : Nat) (d d' : Decoder α) (s : Input) : Prop :=
  match d.run s with
  | .ok (a, s') =>
    s'.rest.length + least ≤ s.rest.length ∧
      d'.run (s.followedBy more) = .ok (a, s'.followedBy more)
  | .error f =>
    f.kind.isWithin .decode = true ∧
      (f.kind = .truncated ∨ d'.run (s.followedBy more) = .error f)

namespace Continues

variable {more : List Json} {least : Nat} {s s' : Input}

theorem of_ok {d d' : Decoder α} {a : α} (hd : d.run s = .ok (a, s'))
    (hleast : s'.rest.length + least ≤ s.rest.length)
    (hd' : d'.run (s.followedBy more) = .ok (a, s'.followedBy more)) :
    Continues more least d d' s := by
  unfold Continues
  rw [hd]
  exact ⟨hleast, hd'⟩

theorem of_error {d d' : Decoder α} {f : Failure} (hd : d.run s = .error f)
    (hkind : f.kind.isWithin .decode = true)
    (hd' : f.kind = .truncated ∨ d'.run (s.followedBy more) = .error f) :
    Continues more least d d' s := by
  unfold Continues
  rw [hd]
  exact ⟨hkind, hd'⟩

/-- Missing an item is the one failure that more items may mend. -/
theorem of_truncated {d d' : Decoder α} {f : Failure} (hd : d.run s = .error f)
    (hkind : f.kind = .truncated) : Continues more least d d' s := by
  refine of_error hd ?_ (.inl hkind)
  rw [hkind]
  rfl

theorem run_ok {d d' : Decoder α} (h : Continues more least d d' s) {a : α}
    (hd : d.run s = .ok (a, s')) :
    s'.rest.length + least ≤ s.rest.length ∧
      d'.run (s.followedBy more) = .ok (a, s'.followedBy more) := by
  unfold Continues at h
  rw [hd] at h
  exact h

theorem run_error {d d' : Decoder α} (h : Continues more least d d' s) {f : Failure}
    (hd : d.run s = .error f) :
    f.kind.isWithin .decode = true ∧
      (f.kind = .truncated ∨ d'.run (s.followedBy more) = .error f) := by
  unfold Continues at h
  rw [hd] at h
  exact h

theorem pure (a : α) : Continues more 0 (Pure.pure a) (Pure.pure a) s :=
  of_ok rfl (Nat.le_refl _) rfl

theorem throw {f : Failure} (hkind : f.kind.isWithin .decode = true) :
    Continues more least (throw f : Decoder α) (throw f) s := of_error rfl hkind (.inr rfl)

/-- A step and what follows it; the rest is no longer than what the step leaves. -/
theorem bind {x x' : Decoder α} {f f' : α → Decoder β} {first rest : Nat}
    (hx : Continues more first x x' s)
    (hf : ∀ a s', s'.rest.length + first ≤ s.rest.length → Continues more rest (f a) (f' a) s')
    (hle : least ≤ first + rest) : Continues more least (x >>= f) (x' >>= f') s := by
  cases hrun : x.run s with
  | error e =>
    obtain ⟨hkind, hx'⟩ := hx.run_error hrun
    refine of_error (by rw [StateT.run_bind, hrun, error_bind]) hkind (hx'.imp_right fun h => ?_)
    rw [StateT.run_bind, h, error_bind]
  | ok r =>
    obtain ⟨a, s₁⟩ := r
    obtain ⟨hleast, hx'⟩ := hx.run_ok hrun
    have hrest := hf a s₁ hleast
    have hstep : (x >>= f).run s = (f a).run s₁ := by rw [StateT.run_bind, hrun, ok_bind]
    have hstep' : (x' >>= f').run (s.followedBy more) = (f' a).run (s₁.followedBy more) := by
      rw [StateT.run_bind, hx', ok_bind]
    cases hrun' : (f a).run s₁ with
    | error e =>
      obtain ⟨hkind, hf'⟩ := hrest.run_error hrun'
      exact of_error (hstep.trans hrun') hkind (hf'.imp_right hstep'.trans)
    | ok r' =>
      obtain ⟨hleast', hf'⟩ := hrest.run_ok hrun'
      exact of_ok (hstep.trans hrun') (by omega) (hstep'.trans hf')

/-- A step of which only the items count that it reads itself. -/
theorem bind_first {x x' : Decoder α} {f f' : α → Decoder β} (hx : Continues more least x x' s)
    (hf : ∀ a s', s'.rest.length + least ≤ s.rest.length → Continues more 0 (f a) (f' a) s') :
    Continues more least (x >>= f) (x' >>= f') s := hx.bind hf (Nat.le_refl _)

/-- A step before what counts. -/
theorem bind_rest {x x' : Decoder α} {f f' : α → Decoder β} {first : Nat}
    (hx : Continues more first x x' s)
    (hf : ∀ a s', s'.rest.length + first ≤ s.rest.length →
      Continues more least (f a) (f' a) s') :
    Continues more least (x >>= f) (x' >>= f') s := hx.bind hf (Nat.le_add_left ..)

theorem get_bind {f f' : Input → Decoder α}
    (h : Continues more least (f s) (f' (s.followedBy more)) s) :
    Continues more least (get >>= f) (get >>= f') s := h

theorem liftM_bind {x : Except Failure α} {a : α} (hx : x = .ok a) {f f' : α → Decoder β}
    (h : Continues more least (f a) (f' a) s) :
    Continues more least (liftM x >>= f) (liftM x >>= f') s := by
  subst hx
  exact h

/-- A step that does not depend on the input and may fail. -/
theorem check_bind {x : Except Failure α} (hx : ∀ f, x = .error f → f.kind.isWithin .decode = true)
    {f f' : α → Decoder β} (h : ∀ a, x = .ok a → Continues more least (f a) (f' a) s) :
    Continues more least (liftM x >>= f) (liftM x >>= f') s := by
  cases x with
  | error f => exact of_error rfl (hx f rfl) (.inr rfl)
  | ok a => exact h a rfl

theorem liftM {x : Except Failure α} (hx : ∀ f, x = .error f → f.kind.isWithin .decode = true) :
    Continues more 0 (liftM x : Decoder α) (liftM x) s := by
  cases x with
  | error f => exact of_error rfl (hx f rfl) (.inr rfl)
  | ok a => exact of_ok rfl (Nat.le_refl _) rfl

/-- Moving on to an input that is so much shorter. -/
theorem set_bind {f f' : PUnit → Decoder β} (hle : s'.rest.length + least ≤ s.rest.length)
    (h : Continues more 0 (f ⟨⟩) (f' ⟨⟩) s') :
    Continues more least (set s' >>= f) (set (s'.followedBy more) >>= f') s := by
  cases hrun : (f ⟨⟩).run s' with
  | error e =>
    obtain ⟨hkind, hf'⟩ := h.run_error hrun
    exact of_error hrun hkind hf'
  | ok r =>
    obtain ⟨hleast, hf'⟩ := h.run_ok hrun
    exact of_ok hrun (by omega) hf'

/-- A value that is read some times over, each time from no more than is at hand. -/
theorem readTimes {d d' : Decoder Json}
    (h : ∀ s', s'.rest.length ≤ s.rest.length → Continues more 0 d d' s') (n : Nat) :
    Continues more 0 (Codec.readTimes d n) (Codec.readTimes d' n) s := by
  induction n generalizing s with
  | zero => exact pure []
  | succ n ih =>
    refine bind_first (h s (Nat.le_refl _)) fun v s₁ h₁ => ?_
    exact bind_first (ih fun s' h' => h s' (by omega)) fun vs s₂ _ => pure _

/-- A decoder that reads a longer input to its end misses something in the shorter one. -/
theorem truncated {d d' : Decoder α} (h : Continues more least d d' s) (hmore : more ≠ [])
    {a : α} (hd' : d'.run (s.followedBy more) = .ok (a, s')) (hend : s'.rest = []) :
    ∃ f, d.run s = .error f ∧ f.kind = .truncated := by
  cases hd : d.run s with
  | error f =>
    obtain ⟨-, hkind | hsame⟩ := h.run_error hd
    · exact ⟨f, rfl, hkind⟩
    · rw [hd'] at hsame
      cases hsame
  | ok r =>
    obtain ⟨-, hsame⟩ := h.run_ok hd
    rw [hd'] at hsame
    cases hsame
    exact absurd (List.append_eq_nil_iff.1 hend).2 hmore

end Continues

end FeltRelay.Codec
