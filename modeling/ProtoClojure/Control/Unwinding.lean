import Mathlib.Tactic.SplitIfs

/-! Runs of a program whose state outlives its failures, taken apart; guards that put a field
back however their scope is left. -/
namespace ProtoClojure.Unwinding

variable {σ ε α β : Type}

theorem bind_ok {x : EStateM ε σ α} {f : α → EStateM ε σ β} {s s' : σ} {b : β} :
    (x >>= f) s = .ok b s' ↔ ∃ a s₁, x s = .ok a s₁ ∧ f a s₁ = .ok b s' := by
  change EStateM.bind x f s = .ok b s' ↔ _
  unfold EStateM.bind
  cases hx : x s with
  | error e s₁ =>
    constructor
    · intro h
      cases h
    · rintro ⟨a, s₁, h, -⟩
      cases h
  | ok a s₁ =>
    constructor
    · intro h
      exact ⟨a, s₁, rfl, h⟩
    · rintro ⟨a, s₁, h, hf⟩
      cases h
      exact hf

theorem bind_error {x : EStateM ε σ α} {f : α → EStateM ε σ β} {s s' : σ} {e : ε} :
    (x >>= f) s = .error e s' ↔
      x s = .error e s' ∨ ∃ a s₁, x s = .ok a s₁ ∧ f a s₁ = .error e s' := by
  change EStateM.bind x f s = .error e s' ↔ _
  unfold EStateM.bind
  cases hx : x s with
  | error e' s₁ =>
    constructor
    · intro h
      cases h
      exact .inl rfl
    · rintro (h | ⟨a, s₁, h, -⟩)
      · cases h
        rfl
      · cases h
  | ok a s₁ =>
    constructor
    · intro h
      exact .inr ⟨a, s₁, rfl, h⟩
    · rintro (h | ⟨a, s₁, h, hf⟩)
      · cases h
      · cases h
        exact hf

/-- What runs first has answered. -/
theorem run_bind {x : EStateM ε σ α} {f : α → EStateM ε σ β} {s s' : σ} {a : α}
    (h : x s = .ok a s') : (x >>= f) s = f a s' := by
  change EStateM.bind x f s = _
  rw [EStateM.bind, h]

theorem map_ok {x : EStateM ε σ α} {f : α → β} {s s' : σ} {b : β} :
    (f <$> x) s = .ok b s' ↔ ∃ a, x s = .ok a s' ∧ b = f a := by
  change EStateM.map f x s = .ok b s' ↔ _
  unfold EStateM.map
  cases hx : x s with
  | error e s₁ =>
    constructor
    · intro h
      cases h
    · rintro ⟨a, h, -⟩
      cases h
  | ok a s₁ =>
    constructor
    · intro h
      cases h
      exact ⟨a, rfl, rfl⟩
    · rintro ⟨a, h, rfl⟩
      cases h
      rfl

/-! ### Where a run ends -/

/-- The state at the end of a run, failed or not. -/
def left : EStateM.Result ε σ α → σ
  | .ok _ s => s
  | .error _ s => s

/-- The state at the end is related to the one at the start. -/
def Keeps (R : σ → σ → Prop) (x : EStateM ε σ α) (s : σ) : Prop := R s (left (x s))

section
variable {R : σ → σ → Prop} {x : EStateM ε σ α} {f : α → EStateM ε σ β} {s : σ}

theorem keeps_pure (hrefl : ∀ s, R s s) (a : α) : Keeps R (pure a : EStateM ε σ α) s := hrefl s

theorem keeps_throw (hrefl : ∀ s, R s s) (e : ε) : Keeps R (throw e : EStateM ε σ α) s := hrefl s

theorem keeps_bind (htrans : ∀ {a b c}, R a b → R b c → R a c) (hx : Keeps R x s)
    (hf : ∀ a s', x s = .ok a s' → Keeps R (f a) s') : Keeps R (x >>= f) s := by
  unfold Keeps at hx ⊢
  cases hrun : x s with
  | error e s' =>
    have hbind : (x >>= f) s = .error e s' := bind_error.mpr (.inl hrun)
    rw [hbind]
    rw [hrun] at hx
    exact hx
  | ok a s' =>
    rw [run_bind hrun]
    rw [hrun] at hx
    exact htrans hx (hf a s' hrun)

theorem keeps_map (hx : Keeps R x s) (g : α → β) : Keeps R (g <$> x) s := by
  have hleft : left ((g <$> x) s) = left (x s) := by
    change left (EStateM.map g x s) = _
    unfold EStateM.map
    cases x s <;> rfl
  rw [Keeps, hleft]
  exact hx

end

/-! ### Guards -/

/-- `x` between a change of the state and another, made also when `x` fails. -/
def guarded (enter leave : σ → σ) (x : EStateM ε σ α) : EStateM ε σ α := fun s =>
  match x (enter s) with
  | .ok a s' => .ok a (leave s')
  | .error e s' => .error e (leave s')

theorem guarded_ok {enter leave : σ → σ} {x : EStateM ε σ α} {s s' : σ} {a : α} :
    guarded enter leave x s = .ok a s' ↔ ∃ s₁, x (enter s) = .ok a s₁ ∧ s' = leave s₁ := by
  unfold guarded
  cases x (enter s) with
  | error e s₁ =>
    constructor
    · intro h
      cases h
    · rintro ⟨s₁, h, -⟩
      cases h
  | ok b s₁ =>
    constructor
    · intro h
      cases h
      exact ⟨s₁, rfl, rfl⟩
    · rintro ⟨s₁, h, rfl⟩
      cases h
      rfl

theorem guarded_error {enter leave : σ → σ} {x : EStateM ε σ α} {s s' : σ} {e : ε} :
    guarded enter leave x s = .error e s' ↔
      ∃ s₁, x (enter s) = .error e s₁ ∧ s' = leave s₁ := by
  unfold guarded
  cases x (enter s) with
  | ok a s₁ =>
    constructor
    · intro h
      cases h
    · rintro ⟨s₁, h, -⟩
      cases h
  | error e' s₁ =>
    constructor
    · intro h
      cases h
      exact ⟨s₁, rfl, rfl⟩
    · rintro ⟨s₁, h, rfl⟩
      cases h
      rfl

theorem left_guarded (enter leave : σ → σ) (x : EStateM ε σ α) (s : σ) :
    left (guarded enter leave x s) = leave (left (x (enter s))) := by
  unfold guarded
  cases x (enter s) <;> rfl

end ProtoClojure.Unwinding
