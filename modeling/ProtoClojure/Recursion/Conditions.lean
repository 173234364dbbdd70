import ProtoClojure.Recursion.Effects

/-! Weakest preconditions of computations that keep a state and may end early: what holds
of every outcome, whatever the calls answer. -/
namespace ProtoClojure.Recursion

variable {Q : Type} {A : Q → Type} {ε W V χ α β : Type}

/-- From the state `w` every value is as `G` says, and so is the state left with it; every early
end is as `B` says. -/
def Effect.Ensures (R : (q : Q) → A q → Prop) (x : Effect Q A ε W χ α) (w : W) (G : α → W → Prop)
    (B : χ → W → Prop) : Prop :=
  (∀ a w', (x w).Returns R (.ok a, w') → G a w') ∧ ∀ t w', (x w).Returns R (.error t, w') → B t w'

namespace Effect
variable {R : (q : Q) → A q → Prop} {w w' : W} {v : V} {G : α → W → Prop} {B : χ → W → Prop}

theorem ensures_pure {a : α} : Ensures R (pure a : Effect Q A ε W χ α) w G B ↔ G a w := by
  refine ⟨fun h => h.1 a w (returns_pure.mpr ⟨rfl, rfl⟩), fun h => ⟨fun a' w' hr => ?_, fun t w' hr => ?_⟩⟩
  · obtain ⟨heq, rfl⟩ := returns_pure.mp hr
    cases heq
    exact h
  · cases (returns_pure.mp hr).1

theorem ensures_throw {t : χ} : Ensures R (throw t : Effect Q A ε W χ α) w G B ↔ B t w := by
  refine ⟨fun h => h.2 t w (returns_throw.mpr ⟨rfl, rfl⟩), fun h => ⟨fun a w' hr => ?_, fun t' w' hr => ?_⟩⟩
  · cases (returns_throw.mp hr).1
  · obtain ⟨heq, rfl⟩ := returns_throw.mp hr
    cases heq
    exact h

theorem ensures_fault (e : ε) : Ensures R (fault e : Effect Q A ε W χ α) w G B :=
  ⟨fun _ _ h => h.elim, fun _ _ h => h.elim⟩

theorem ensures_bind {x : Effect Q A ε W χ β} {f : β → Effect Q A ε W χ α} :
    Ensures R (x >>= f) w G B ↔ Ensures R x w (fun b w' => Ensures R (f b) w' G B) B := by
  constructor
  · intro h
    refine ⟨fun b w₁ hx => ⟨fun a w' hf => ?_, fun t w' hf => ?_⟩, fun t w' hx => ?_⟩
    · exact h.1 a w' (returns_bind.mpr (.inl ⟨b, w₁, hx, hf⟩))
    · exact h.2 t w' (returns_bind.mpr (.inl ⟨b, w₁, hx, hf⟩))
    · exact h.2 t w' (returns_bind.mpr (.inr ⟨t, hx, rfl⟩))
  · intro h
    refine ⟨fun a w' hr => ?_, fun t w' hr => ?_⟩
    · obtain ⟨b, w₁, hx, hf⟩ := returns_bind_ok.mp hr
      exact (h.1 b w₁ hx).1 a w' hf
    · rcases returns_bind.mp hr with ⟨b, w₁, hx, hf⟩ | ⟨t', hx, heq⟩
      · exact (h.1 b w₁ hx).2 t w' hf
      · cases heq
        exact h.2 t w' hx

theorem ensures_get {G : W → W → Prop} :
    Ensures R (get : Effect Q A ε W χ W) w G B ↔ G w w := by
  show Ensures R (pure w : Effect Q A ε W χ W) w G B ↔ _
  exact ensures_pure

theorem ensures_modify {f : W → W} {G : Unit → W → Prop} :
    Ensures R (modify f : Effect Q A ε W χ Unit) w G B ↔ G () (f w) := by
  refine ⟨fun h => h.1 () (f w) rfl, fun h => ⟨fun a w' hr => ?_, fun t w' hr => ?_⟩⟩
  · obtain ⟨-, rfl⟩ := Prod.mk.inj hr
    exact h
  · cases (Prod.mk.inj hr).1

theorem ensures_zoom {get : V → W} {put : V → W → V} {x : Effect Q A ε W χ α} {G : α → V → Prop}
    {B : χ → V → Prop} :
    Ensures R (x.zoom get put) v G B ↔
      Ensures R x (get v) (fun a w => G a (put v w)) fun t w => B t (put v w) := by
  constructor
  · intro h
    exact ⟨fun a w hx => h.1 a _ (returns_zoom.mpr ⟨w, hx, rfl⟩),
      fun t w hx => h.2 t _ (returns_zoom.mpr ⟨w, hx, rfl⟩)⟩
  · intro h
    refine ⟨fun a w' hr => ?_, fun t w' hr => ?_⟩
    · obtain ⟨w, hx, rfl⟩ := returns_zoom.mp hr
      exact h.1 a w hx
    · obtain ⟨w, hx, rfl⟩ := returns_zoom.mp hr
      exact h.2 t w hx

/-- A computation of which only the state's part that it works on is known. -/
theorem Ensures.of_forall (x : Effect Q A ε W χ α) (hG : ∀ a w', G a w') (hB : ∀ t w', B t w') :
    Ensures R x w G B := ⟨fun a w' _ => hG a w', fun t w' _ => hB t w'⟩

theorem Ensures.mono {x : Effect Q A ε W χ α} {G' : α → W → Prop} {B' : χ → W → Prop}
    (h : Ensures R x w G B) (hG : ∀ a w', G a w' → G' a w') (hB : ∀ t w', B t w' → B' t w') :
    Ensures R x w G' B' := ⟨fun a w' hr => hG a w' (h.1 a w' hr), fun t w' hr => hB t w' (h.2 t w' hr)⟩

end Effect

end ProtoClojure.Recursion
