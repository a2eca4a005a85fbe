import FeltRelay.Proofs.Codec.Input
import FeltRelay.Proofs.Recursion

/-!
# Decoders in step

Two decoders keep in step if they do the same, the second one some positions further on: they give
one value and leave the same items, or both fail, and their failures are related (`InStep`). What
calls of a decoder share is found in this way from what the calls below share.
-/

namespace FeltRelay.Codec

variable {α β : Type}

/-- The same items, some positions further on. -/
def Input.shifted (s : Input) (k : Nat) : Input := ⟨s.rest, s.position + k⟩

theorem Input.advance_shifted (s : Input) (k count : Nat) :
    (s.shifted k).advance count = (s.advance count).shifted k := by
  simp only [Input.advance, Input.shifted, Nat.add_right_comm]

/-- An input that is reached over at least so many items. -/
structure Reaches (s : Input) (least : Nat) (s' : Input) : Prop where
  length : s'.rest.length + least ≤ s.rest.length
  position : s'.position + s'.rest.length = s.position + s.rest.length

theorem Reaches.refl (s : Input) : Reaches s 0 s := ⟨Nat.le_refl _, rfl⟩

theorem Reaches.trans {s₁ s₂ s₃ : Input} {first rest least : Nat} (h : Reaches s₁ first s₂)
    (h' : Reaches s₂ rest s₃) (hle : least ≤ first + rest) : Reaches s₁ least s₃ := by
  have := h.length
  have := h'.length
  exact ⟨by omega, h'.position.trans h.position⟩

theorem Consumed.reaches {s s' : Input} {items : List Json} {least : Nat}
    (h : Consumed s items s') (hle : least ≤ items.length) : Reaches s least s' := by
  have hrest := congrArg List.length h.rest
  have := h.position
  rw [List.length_append] at hrest
  exact ⟨by omega, by omega⟩

/-- Results of two decoders in step, at least so many items having been read. -/
inductive Matched (R : Failure → Failure → Prop) (k least : Nat) (s : Input) :
    Except Failure (α × Input) → Except Failure (α × Input) → Prop
  | ok {a : α} {s' : Input} (h : Reaches s least s') :
    Matched R k least s (.ok (a, s')) (.ok (a, s'.shifted k))
  | error {f f' : Failure} (h : R f f') : Matched R k least s (.error f) (.error f')

def InStep (R : Failure → Failure → Prop) (k least : Nat) (d d' : Decoder α) (s : Input) : Prop :=
  Matched R k least s (d.run s) (d'.run (s.shifted k))

theorem Matched.eq {R : Failure → Failure → Prop} (hR : ∀ {f f'}, R f f' → f = f') {least : Nat}
    {s : Input} {r r' : Except Failure (α × Input)} (h : Matched R 0 least s r r') : r = r' := by
  cases h with
  | ok _ => rfl
  | error h => rw [hR h]

/-- Results of two checks that come to the same, or to related failures. -/
inductive Checks (R : Failure → Failure → Prop) : Except Failure α → Except Failure α → Prop
  | ok (a : α) : Checks R (.ok a) (.ok a)
  | error {f f' : Failure} (h : R f f') : Checks R (.error f) (.error f')

theorem Checks.same {R : Failure → Failure → Prop} {x : Except Failure α}
    (hR : ∀ f, x = .error f → R f f) : Checks R x x := by
  cases x with
  | ok a => exact .ok a
  | error f => exact .error (hR f rfl)

namespace InStep

variable {R : Failure → Failure → Prop} {k least : Nat} {s s' : Input}

theorem of_ok {d d' : Decoder α} {a : α} (hd : d.run s = .ok (a, s'))
    (hd' : d'.run (s.shifted k) = .ok (a, s'.shifted k)) (hs : Reaches s least s') :
    InStep R k least d d' s := by
  unfold InStep
  rw [hd, hd']
  exact .ok hs

theorem of_error {d d' : Decoder α} {f f' : Failure} (hd : d.run s = .error f)
    (hd' : d'.run (s.shifted k) = .error f') (h : R f f') : InStep R k least d d' s := by
  unfold InStep
  rw [hd, hd']
  exact .error h

theorem run_ok {d d' : Decoder α} (h : InStep R k least d d' s) {a : α}
    (hd : d.run s = .ok (a, s')) :
    Reaches s least s' ∧ d'.run (s.shifted k) = .ok (a, s'.shifted k) := by
  unfold InStep at h
  rw [hd] at h
  generalize d'.run (s.shifted k) = r at h
  cases h with
  | ok hs => exact ⟨hs, rfl⟩

theorem run_error {d d' : Decoder α} (h : InStep R k least d d' s) {f : Failure}
    (hd : d.run s = .error f) : ∃ f', d'.run (s.shifted k) = .error f' ∧ R f f' := by
  unfold InStep at h
  rw [hd] at h
  generalize d'.run (s.shifted k) = r at h
  cases h with
  | error h => exact ⟨_, rfl, h⟩

theorem same {d : Decoder α} (hR : ∀ f, R f f)
    (h : ∀ a s', d.run s = .ok (a, s') → Reaches s least s') :
    InStep R 0 least d d s := by
  cases hd : d.run s with
  | error f => exact of_error hd hd (hR f)
  | ok r => exact of_ok hd hd (h _ _ hd)

theorem mono {d d' : Decoder α} {least' : Nat} (h : InStep R k least' d d' s)
    (hle : least ≤ least') : InStep R k least d d' s := by
  cases hd : d.run s with
  | error f =>
    obtain ⟨f', hd', hf⟩ := h.run_error hd
    exact of_error hd hd' hf
  | ok r =>
    obtain ⟨hs, hd'⟩ := h.run_ok hd
    exact of_ok hd hd' (hs.trans (.refl _) hle)

theorem of_run_eq {d d' e e' : Decoder α} (h : InStep R k least e e' s) (hd : d.run s = e.run s)
    (hd' : d'.run (s.shifted k) = e'.run (s.shifted k)) : InStep R k least d d' s := by
  unfold InStep
  rw [hd, hd']
  exact h

theorem pure (a : α) : InStep R k 0 (Pure.pure a) (Pure.pure a) s := of_ok rfl rfl (.refl s)

theorem throw {f f' : Failure} (h : R f f') :
    InStep R k least (throw f : Decoder α) (throw f') s := of_error rfl rfl h

theorem bind_of_run {x x' : Decoder α} {f f' : α → Decoder β} {first rest : Nat}
    (hx : InStep R k first x x' s)
    (hf : ∀ a s', x.run s = .ok (a, s') → InStep R k rest (f a) (f' a) s')
    (hle : least ≤ first + rest) : InStep R k least (x >>= f) (x' >>= f') s := by
  cases hrun : x.run s with
  | error e =>
    obtain ⟨e', hrun', he⟩ := hx.run_error hrun
    refine of_error ?_ ?_ he
    · rw [StateT.run_bind, hrun, error_bind]
    · rw [StateT.run_bind, hrun', error_bind]
  | ok r =>
    obtain ⟨a, s₁⟩ := r
    obtain ⟨hs, hrun'⟩ := hx.run_ok hrun
    have hrest := hf a s₁ hrun
    have hstep : (x >>= f).run s = (f a).run s₁ := by rw [StateT.run_bind, hrun, ok_bind]
    have hstep' : (x' >>= f').run (s.shifted k) = (f' a).run (s₁.shifted k) := by
      rw [StateT.run_bind, hrun', ok_bind]
    cases hnext : (f a).run s₁ with
    | error e =>
      obtain ⟨e', hnext', he⟩ := hrest.run_error hnext
      exact of_error (hstep.trans hnext) (hstep'.trans hnext') he
    | ok r =>
      obtain ⟨hs', hnext'⟩ := hrest.run_ok hnext
      exact of_ok (hstep.trans hnext) (hstep'.trans hnext') (hs.trans hs' hle)

/-- A step and what follows it; the rest is no longer than what the step leaves. -/
theorem bind {x x' : Decoder α} {f f' : α → Decoder β} {first rest : Nat}
    (hx : InStep R k first x x' s)
    (hf : ∀ a s', s'.rest.length + first ≤ s.rest.length → InStep R k rest (f a) (f' a) s')
    (hle : least ≤ first + rest) : InStep R k least (x >>= f) (x' >>= f') s :=
  hx.bind_of_run (fun a s' hrun => hf a s' (hx.run_ok hrun).1.length) hle

/-- A step of which only the items count that it reads itself. -/
theorem bind_first {x x' : Decoder α} {f f' : α → Decoder β} (hx : InStep R k least x x' s)
    (hf : ∀ a s', s'.rest.length + least ≤ s.rest.length → InStep R k 0 (f a) (f' a) s') :
    InStep R k least (x >>= f) (x' >>= f') s := hx.bind hf (Nat.le_refl _)

/-- A step before what counts. -/
theorem bind_rest {x x' : Decoder α} {f f' : α → Decoder β} {first : Nat}
    (hx : InStep R k first x x' s)
    (hf : ∀ a s', s'.rest.length + first ≤ s.rest.length → InStep R k least (f a) (f' a) s') :
    InStep R k least (x >>= f) (x' >>= f') s := hx.bind hf (Nat.le_add_left ..)

theorem ite {p : Prop} [Decidable p] {d d' e e' : Decoder α} (hd : p → InStep R k least d d' s)
    (he : ¬p → InStep R k least e e' s) :
    InStep R k least (if p then d else e) (if p then d' else e') s := by
  by_cases hp : p
  · rw [if_pos hp, if_pos hp]
    exact hd hp
  · rw [if_neg hp, if_neg hp]
    exact he hp

theorem get_bind {f f' : Input → Decoder α} (h : InStep R k least (f s) (f' (s.shifted k)) s) :
    InStep R k least (get >>= f) (get >>= f') s := h

theorem liftM_bind {γ : Type} {x : Except Failure α} {x' : Except Failure γ} {a : α} {c : γ}
    (hx : x = .ok a) (hx' : x' = .ok c) {f : α → Decoder β} {f' : γ → Decoder β}
    (h : InStep R k least (f a) (f' c) s) :
    InStep R k least (liftM x >>= f) (liftM x' >>= f') s := by
  subst hx hx'
  exact h

theorem check_bind {x x' : Except Failure α} (hx : Checks R x x') {f f' : α → Decoder β}
    (h : ∀ a, x = .ok a → InStep R k least (f a) (f' a) s) :
    InStep R k least (liftM x >>= f) (liftM x' >>= f') s := by
  cases hx with
  | ok a => exact h a rfl
  | error he => exact of_error rfl rfl he

theorem liftM {x x' : Except Failure α} (hx : Checks R x x') :
    InStep R k 0 (liftM x : Decoder α) (liftM x') s := by
  cases hx with
  | ok a => exact of_ok rfl rfl (.refl s)
  | error he => exact of_error rfl rfl he

theorem set_bind {f f' : PUnit → Decoder β} (hs : Reaches s least s')
    (h : InStep R k 0 (f ⟨⟩) (f' ⟨⟩) s') :
    InStep R k least (set s' >>= f) (set (s'.shifted k) >>= f') s := by
  cases hrun : (f ⟨⟩).run s' with
  | error e =>
    obtain ⟨e', hrun', he⟩ := h.run_error hrun
    exact of_error hrun hrun' he
  | ok r =>
    obtain ⟨hs', hrun'⟩ := h.run_ok hrun
    exact of_ok hrun hrun' (hs.trans hs' (Nat.le_refl _))

end InStep

/-! ### Calls -/

/-- The decoder of a task, made of calls with an input. -/
def ofCalls {T : Type} (self : T × Input → Except Failure (Json × Input)) (task : T) :
    Decoder Json := fun s => self (task, s)

/-- A step on decoders as a step on calls. -/
def onCalls {T : Type} (step : (T → Decoder Json) → T → Decoder Json)
    (self : T × Input → Except Failure (Json × Input)) (c : T × Input) :
    Except Failure (Json × Input) :=
  (step (ofCalls self) c.1).run c.2

end FeltRelay.Codec
