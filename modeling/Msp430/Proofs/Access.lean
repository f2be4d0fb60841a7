import Msp430.Memory.Hooked

/-!
# Laws of accesses

How two accesses in a row end, and the invariants that an access keeps whether it succeeds or fails.
-/

namespace Msp430.Access

theorem bind_eq_ok {x : EStateM ε σ α} {f : α → EStateM ε σ β} {s s' : σ} {b : β} :
    (x >>= f) s = .ok b s' ↔ ∃ a s₁, x s = .ok a s₁ ∧ f a s₁ = .ok b s' := by
  change EStateM.bind x f s = _ ↔ _
  unfold EStateM.bind
  cases x s with
  | ok a s₁ =>
    refine ⟨fun h => ⟨a, s₁, rfl, h⟩, ?_⟩
    rintro ⟨_, _, hx, h⟩
    cases hx
    exact h
  | error e s₁ => simp

theorem bind_eq_error {x : EStateM ε σ α} {f : α → EStateM ε σ β} {s s' : σ} {e : ε} :
    (x >>= f) s = .error e s' ↔
      x s = .error e s' ∨ ∃ a s₁, x s = .ok a s₁ ∧ f a s₁ = .error e s' := by
  change EStateM.bind x f s = _ ↔ _
  unfold EStateM.bind
  cases x s with
  | ok a s₁ =>
    refine ⟨fun h => .inr ⟨a, s₁, rfl, h⟩, ?_⟩
    rintro (hx | ⟨_, _, hx, h⟩)
    · cases hx
    · cases hx
      exact h
  | error e s₁ => simp

theorem bind_of_ok {x : EStateM ε σ α} {f : α → EStateM ε σ β} {s s' : σ} {a : α} (h : x s = .ok a s') :
    (x >>= f) s = f a s' := by
  change EStateM.bind x f s = _
  unfold EStateM.bind
  rw [h]

theorem map_eq_ok {x : EStateM ε σ α} {f : α → β} {s s' : σ} {b : β} :
    (f <$> x) s = .ok b s' ↔ ∃ a, x s = .ok a s' ∧ f a = b := by
  change EStateM.map f x s = _ ↔ _
  unfold EStateM.map
  cases x s with
  | ok a s₁ =>
    constructor
    · intro h
      cases h
      exact ⟨a, rfl, rfl⟩
    · rintro ⟨_, hx, rfl⟩
      cases hx
      rfl
  | error e s₁ => simp

theorem map_eq_error {x : EStateM ε σ α} {f : α → β} {s s' : σ} {e : ε} :
    (f <$> x) s = .error e s' ↔ x s = .error e s' := by
  change EStateM.map f x s = _ ↔ _
  unfold EStateM.map
  cases x s <;> simp

theorem look_eq_ok {f : μ → Except Fault α} {m m' : μ} {a : α} : look f m = .ok a m' ↔ f m = .ok a ∧ m' = m := by
  unfold look
  cases f m <;> simp [eq_comm]

theorem look_eq_error {f : μ → Except Fault α} {m m' : μ} {e : Fault} :
    look f m = .error e m' ↔ f m = .error e ∧ m' = m := by
  unfold look
  cases f m <;> simp [eq_comm]

theorem change_eq_error {f : μ → Except Fault μ} {m m' : μ} {e : Fault} :
    change f m = .error e m' ↔ f m = .error e ∧ m' = m := by
  unfold change
  cases f m <;> simp [eq_comm]

theorem focus_of_ok {part : σ → μ} {replace : σ → μ → σ} {x : Access μ α} {s : σ} {v : α} {m : μ}
    (done : x (part s) = .ok v m) : focus part replace x s = .ok v (replace s m) := by
  unfold focus
  rw [done]

theorem focus_of_error {part : σ → μ} {replace : σ → μ → σ} {x : Access μ α} {s : σ} {e : Fault} {m : μ}
    (failed : x (part s) = .error e m) : focus part replace x s = .error e (replace s m) := by
  unfold focus
  rw [failed]

/-! ### Where an access ends -/

/-- The state in which an access ends, whether it succeeds or fails. -/
def endState : EStateM.Result ε σ α → σ
  | .ok _ s => s
  | .error _ s => s

theorem endState_bind_pure (x : EStateM ε σ α) (f : α → β) (s : σ) :
    endState ((x >>= fun a => pure (f a)) s) = endState (x s) := by
  change endState (EStateM.bind x _ s) = _
  unfold EStateM.bind
  cases x s <;> rfl

/-- Where `I` holds before the access, it holds after it. -/
def Keeps (I : σ → Prop) (x : EStateM ε σ α) : Prop := ∀ s, I s → I (endState (x s))

variable {I : σ → Prop}

theorem keeps_pure (a : α) : Keeps I (pure a : EStateM ε σ α) := fun _ h => h

theorem keeps_throw (e : ε) : Keeps I (throw e : EStateM ε σ α) := fun _ h => h

theorem keeps_get : Keeps I (get : EStateM ε σ σ) := fun _ h => h

theorem keeps_modify {f : σ → σ} (hf : ∀ s, I s → I (f s)) :
    Keeps I (modify f : EStateM ε σ PUnit) := fun s h => hf s h

/-- Two accesses in a row end in `I` if the first one does and the second one does where the first has succeeded. -/
theorem ends_bind {x : EStateM ε σ α} {f : α → EStateM ε σ β} {s : σ} (hx : I (endState (x s)))
    (hf : ∀ a s₁, x s = .ok a s₁ → I (endState (f a s₁))) : I (endState ((x >>= f) s)) := by
  change I (endState (EStateM.bind x f s))
  unfold EStateM.bind
  cases hr : x s with
  | ok a s₁ => exact hf a s₁ hr
  | error e s₁ =>
    rw [hr] at hx
    exact hx

theorem keeps_bind {x : EStateM ε σ α} {f : α → EStateM ε σ β} (hx : Keeps I x)
    (hf : ∀ a, Keeps I (f a)) : Keeps I (x >>= f) := by
  intro s h
  refine ends_bind (hx s h) fun a s₁ hr => hf a s₁ ?_
  have hs := hx s h
  rw [hr] at hs
  exact hs

theorem keeps_map {x : EStateM ε σ α} (f : α → β) (hx : Keeps I x) : Keeps I (f <$> x) := by
  intro s h
  have hs := hx s h
  change I (endState (EStateM.map f x s))
  unfold EStateM.map
  cases hr : x s with
  | ok a s₁ =>
    rw [hr] at hs
    exact hs
  | error e s₁ =>
    rw [hr] at hs
    exact hs

theorem keeps_look {I : μ → Prop} (f : μ → Except Fault α) : Keeps I (look f) := by
  intro m h
  unfold look
  cases f m <;> exact h

/-- An access to a part keeps what the part keeps, if only the part counts for the invariant. -/
theorem keeps_focus {part : σ → μ} {replace : σ → μ → σ} {J : μ → Prop} {x : Access μ α}
    (hx : Keeps J x) (hJ : ∀ s, I s → J (part s)) (hI : ∀ s m, I s → J m → I (replace s m)) :
    Keeps I (focus part replace x) := by
  intro s h
  have hm := hx (part s) (hJ s h)
  unfold focus
  cases hr : x (part s) with
  | ok a m =>
    rw [hr] at hm
    exact hI s m h hm
  | error e m =>
    rw [hr] at hm
    exact hI s m h hm

end Msp430.Access
