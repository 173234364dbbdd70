import Mathlib.Tactic.SplitIfs

/-! Runs of a program that keeps a state and may fail, taken apart. -/
namespace ProtoClojure.StateExcept

variable {σ ε α β : Type}

theorem bind_ok {x : StateT σ (Except ε) α} {f : α → StateT σ (Except ε) β} {s s' : σ} {b : β} :
    (x >>= f) s = .ok (b, s') ↔ ∃ a s₁, x s = .ok (a, s₁) ∧ f a s₁ = .ok (b, s') := by
  change (x s >>= fun p => f p.1 p.2) = .ok (b, s') ↔ _
  cases hx : x s with
  | error e =>
    constructor
    · intro h
      cases h
    · rintro ⟨a, s₁, h, -⟩
      cases h
  | ok p =>
    constructor
    · intro h
      exact ⟨p.1, p.2, rfl, h⟩
    · rintro ⟨a, s₁, h, hf⟩
      cases h
      exact hf

/-- What runs first has answered. -/
theorem run_bind {x : StateT σ (Except ε) α} {f : α → StateT σ (Except ε) β} {s s' : σ} {a : α}
    (h : x s = .ok (a, s')) : (x >>= f) s = f a s' := by
  simp only [bind, StateT.bind, h, Except.bind]

theorem bind_error {x : StateT σ (Except ε) α} {f : α → StateT σ (Except ε) β} {s : σ} {e : ε} :
    (x >>= f) s = .error e ↔ x s = .error e ∨ ∃ a s', x s = .ok (a, s') ∧ f a s' = .error e := by
  change (x s >>= fun p => f p.1 p.2) = .error e ↔ _
  cases hx : x s with
  | error e' =>
    constructor
    · intro h
      cases h
      exact .inl rfl
    · rintro (h | ⟨a, s', h, -⟩)
      · cases h
        rfl
      · cases h
  | ok p =>
    constructor
    · intro h
      exact .inr ⟨p.1, p.2, rfl, h⟩
    · rintro (h | ⟨a, s', h, hf⟩)
      · cases h
      · cases h
        exact hf

theorem map_ok {x : StateT σ (Except ε) α} {f : α → β} {s s' : σ} {b : β} :
    (f <$> x) s = .ok (b, s') ↔ ∃ a, x s = .ok (a, s') ∧ b = f a := by
  rw [← bind_pure_comp, bind_ok]
  constructor
  · rintro ⟨a, s₁, h, hp⟩
    cases hp
    exact ⟨a, h, rfl⟩
  · rintro ⟨a, h, rfl⟩
    exact ⟨a, s', h, rfl⟩

theorem pure_ok {a a' : α} {s s' : σ} :
    (pure a : StateT σ (Except ε) α) s = .ok (a', s') ↔ a' = a ∧ s' = s := by
  constructor
  · intro h
    cases h
    exact ⟨rfl, rfl⟩
  · rintro ⟨rfl, rfl⟩
    rfl

theorem get_ok {s s' t : σ} :
    (get : StateT σ (Except ε) σ) s = .ok (t, s') ↔ t = s ∧ s' = s := pure_ok (a := s)

theorem set_ok {s s' t : σ} {u : PUnit} :
    (set t : StateT σ (Except ε) PUnit) s = .ok (u, s') ↔ s' = t := by
  constructor
  · intro h
    cases h
    rfl
  · rintro rfl
    rfl

theorem modify_ok {f : σ → σ} {s s' : σ} {u : PUnit} :
    (modify f : StateT σ (Except ε) PUnit) s = .ok (u, s') ↔ s' = f s := by
  constructor
  · intro h
    cases h
    rfl
  · rintro rfl
    rfl

theorem throw_ok {e : ε} {s : σ} {r : α × σ} :
    (throw e : StateT σ (Except ε) α) s = .ok r ↔ False := by
  constructor <;> intro h <;> cases h

theorem ite_ok {c : Prop} [Decidable c] {x y : StateT σ (Except ε) α} {s : σ} {r : α × σ} :
    (if c then x else y) s = .ok r ↔ (c ∧ x s = .ok r) ∨ (¬ c ∧ y s = .ok r) := by
  split_ifs with hc <;> simp [hc]

end ProtoClojure.StateExcept
