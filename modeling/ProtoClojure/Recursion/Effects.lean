import ProtoClojure.Recursion.Calls

/-! Computations that keep a state and may end early, and computations of one kind carried
out by those of another. -/
namespace ProtoClojure.Recursion

variable {Q : Type} {A : Q → Type} {ε W χ α β : Type}

/-- A computation on a state: it ends in a value or early, and keeps the state either way. -/
def Effect (Q : Type) (A : Q → Type) (ε W χ α : Type) : Type := W → Comp Q A ε (Except χ α × W)

namespace Effect

def bind (x : Effect Q A ε W χ α) (f : α → Effect Q A ε W χ β) : Effect Q A ε W χ β := fun w =>
  (x w).bind fun
    | (.ok a, w) => f a w
    | (.error t, w) => .done (.error t, w)

instance : Monad (Effect Q A ε W χ) where
  pure a := fun w => .done (.ok a, w)
  bind := bind

instance : MonadStateOf W (Effect Q A ε W χ) where
  get := fun w => .done (.ok w, w)
  set w := fun _ => .done (.ok (), w)
  modifyGet f := fun w => .done (.ok (f w).1, (f w).2)

instance : MonadExceptOf χ (Effect Q A ε W χ) where
  throw t := fun w => .done (.error t, w)
  tryCatch x f := fun w => (x w).bind fun
    | (.ok a, w) => .done (.ok a, w)
    | (.error t, w) => f t w

/-- The computation is stuck: it has no outcome at all. -/
def fault (e : ε) : Effect Q A ε W χ α := fun _ => .throw e

/-- The same computation with other reasons to end early, some of which are faults. -/
def settle {χ' : Type} (f : χ → Except ε χ') (x : Effect Q A ε W χ α) : Effect Q A ε W χ' α := fun w =>
  (x w).bind fun
    | (.ok a, w) => .done (.ok a, w)
    | (.error t, w) =>
      match f t with
      | .ok t' => .done (.error t', w)
      | .error e => .throw e

/-- A computation on a part of the state. -/
def zoom {V : Type} (get : V → W) (put : V → W → V) (x : Effect Q A ε W χ α) : Effect Q A ε V χ α :=
  fun v => (x (get v)).bind fun (r, w) => .done (r, put v w)

theorem get_bind (f : W → Effect Q A ε W χ α) : ((get : Effect Q A ε W χ W) >>= f) = fun w => f w w := rfl

/-- Nothing done after a computation. -/
theorem bind_unit (x : Effect Q A ε W χ Unit) : (x >>= fun _ => pure ()) = x := by
  funext w
  refine Eq.trans ?_ (Comp.bind_done (x w))
  show (x w).bind _ = _
  refine congrArg _ (funext fun r => ?_)
  rcases r with ⟨_ | _, _⟩ <;> rfl

theorem bind_assoc {γ : Type} (x : Effect Q A ε W χ α) (f : α → Effect Q A ε W χ β)
    (g : β → Effect Q A ε W χ γ) : x >>= f >>= g = x >>= fun a => f a >>= g := by
  funext w
  refine Eq.trans (Comp.bind_assoc (x w) _ _) ?_
  show (x w).bind _ = (x w).bind _
  refine congrArg _ (funext fun r => ?_)
  rcases r with ⟨_ | _, _⟩ <;> rfl

section Returns
variable {R : (q : Q) → A q → Prop} {w w' : W} {r : Except χ β}

@[simp] theorem returns_pure {a : α} {r : Except χ α} :
    ((pure a : Effect Q A ε W χ α) w).Returns R (r, w') ↔ .ok a = r ∧ w = w' := by
  show (Except.ok a, w) = (r, w') ↔ _
  rw [Prod.mk.injEq]

@[simp] theorem returns_throw {t : χ} {r : Except χ α} :
    ((throw t : Effect Q A ε W χ α) w).Returns R (r, w') ↔ .error t = r ∧ w = w' := by
  show (Except.error t, w) = (r, w') ↔ _
  rw [Prod.mk.injEq]

theorem returns_bind {x : Effect Q A ε W χ α} {f : α → Effect Q A ε W χ β} :
    ((x >>= f) w).Returns R (r, w') ↔
      (∃ a w₁, (x w).Returns R (.ok a, w₁) ∧ (f a w₁).Returns R (r, w')) ∨
        ∃ t, (x w).Returns R (.error t, w') ∧ r = .error t := by
  show (Comp.bind (x w) _).Returns R (r, w') ↔ _
  refine Comp.returns_bind.trans ?_
  constructor
  · rintro ⟨⟨_ | _, w₁⟩, hx, hf⟩
    · cases hf
      exact .inr ⟨_, hx, rfl⟩
    · exact .inl ⟨_, w₁, hx, hf⟩
  · rintro (⟨a, w₁, hx, hf⟩ | ⟨t, hx, rfl⟩)
    · exact ⟨_, hx, hf⟩
    · exact ⟨_, hx, rfl⟩

theorem returns_bind_ok {x : Effect Q A ε W χ α} {f : α → Effect Q A ε W χ β} {b : β} :
    ((x >>= f) w).Returns R (.ok b, w') ↔
      ∃ a w₁, (x w).Returns R (.ok a, w₁) ∧ (f a w₁).Returns R (.ok b, w') := by
  rw [returns_bind]
  refine or_iff_left ?_
  rintro ⟨t, -, h⟩
  cases h

theorem returns_settle {χ' : Type} {f : χ → Except ε χ'} {x : Effect Q A ε W χ β} {r : Except χ' β} :
    (x.settle f w).Returns R (r, w') ↔
      (∃ b, (x w).Returns R (.ok b, w') ∧ r = .ok b) ∨
        ∃ t t', (x w).Returns R (.error t, w') ∧ f t = .ok t' ∧ r = .error t' := by
  refine Comp.returns_bind.trans ?_
  constructor
  · rintro ⟨⟨t | b, w₁⟩, hx, h⟩
    · cases hf : f t with
      | error e =>
        simp only [hf] at h
        exact h.elim
      | ok t' =>
        simp only [hf] at h
        cases h
        exact .inr ⟨t, t', hx, hf, rfl⟩
    · cases h
      exact .inl ⟨b, hx, rfl⟩
  · rintro (⟨b, hx, rfl⟩ | ⟨t, t', hx, hf, rfl⟩)
    · exact ⟨_, hx, rfl⟩
    · refine ⟨_, hx, ?_⟩
      simp only [hf]
      rfl

theorem returns_zoom {V : Type} {get : V → W} {put : V → W → V} {x : Effect Q A ε W χ β} {v v' : V} :
    (x.zoom get put v).Returns R (r, v') ↔
      ∃ w, (x (get v)).Returns R (r, w) ∧ put v w = v' := by
  refine Comp.returns_bind.trans ?_
  constructor
  · rintro ⟨⟨r', w⟩, hx, h⟩
    cases h
    exact ⟨w, hx, rfl⟩
  · rintro ⟨w, hx, rfl⟩
    exact ⟨_, hx, rfl⟩

end Returns

end Effect

/-! ### Computations carried out by others -/

section Interpret
variable {Q' : Type} {A' : Q' → Type} {ε' W' : Type}

/-- Every call of the computation is carried out by `h`. -/
def Comp.interpret (h : (q : Q) → Effect Q' A' ε' W χ (A q)) :
    Comp Q A χ α → Effect Q' A' ε' W χ α
  | .done a => pure a
  | .throw t => fun w => .done (.error t, w)
  | .call q next => h q >>= fun a => (next a).interpret h

/-- Where what carries out the calls is simulated, so are the computations made of them. -/
theorem Comp.interpret_simulates {Q₁ Q₂ : Type} {A₁ : Q₁ → Type} {A₂ : Q₂ → Type} {ε₁ ε₂ W₁ W₂ : Type}
    {R₁ : (q : Q₁) → A₁ q → Prop} {R₂ : (q : Q₂) → A₂ q → Prop} {E : W₁ → W₂ → Prop}
    {h₁ : (q : Q) → Effect Q₁ A₁ ε₁ W₁ χ (A q)} {h₂ : (q : Q) → Effect Q₂ A₂ ε₂ W₂ χ (A q)}
    (hsim : ∀ q w₁ w₂ r v₁, E w₁ w₂ → (h₁ q w₁).Returns R₁ (r, v₁) →
      ∃ v₂, E v₁ v₂ ∧ (h₂ q w₂).Returns R₂ (r, v₂))
    (c : Comp Q A χ α) {w₁ v₁ : W₁} {w₂ : W₂} {r : Except χ α} (hw : E w₁ w₂)
    (h : (c.interpret h₁ w₁).Returns R₁ (r, v₁)) :
    ∃ v₂, E v₁ v₂ ∧ (c.interpret h₂ w₂).Returns R₂ (r, v₂) := by
  induction c generalizing w₁ w₂ with
  | done a =>
    obtain ⟨rfl, rfl⟩ := Effect.returns_pure.mp h
    exact ⟨w₂, hw, Effect.returns_pure.mpr ⟨rfl, rfl⟩⟩
  | throw t =>
    obtain ⟨rfl, rfl⟩ := Effect.returns_throw.mp h
    exact ⟨w₂, hw, Effect.returns_throw.mpr ⟨rfl, rfl⟩⟩
  | call q next ih =>
    rcases Effect.returns_bind.mp h with ⟨a, u₁, hq, hn⟩ | ⟨t, hq, rfl⟩
    · obtain ⟨u₂, hu, hq⟩ := hsim q w₁ w₂ _ u₁ hw hq
      obtain ⟨v₂, hv, hn⟩ := ih a hu hn
      exact ⟨v₂, hv, Effect.returns_bind.mpr (.inl ⟨a, u₂, hq, hn⟩)⟩
    · obtain ⟨v₂, hv, hq⟩ := hsim q w₁ w₂ _ v₁ hw hq
      exact ⟨v₂, hv, Effect.returns_bind.mpr (.inr ⟨t, hq, rfl⟩)⟩

end Interpret

/-! ### One computation after another -/

section Successive
variable {C C' S S' P P' : Type}

/-- Every one starts in the state the one before ended in. -/
def Successive (ends : C → S → P → S → Prop) : List C → S → List P → S → Prop
  | [], s, rs, s' => rs = [] ∧ s = s'
  | c :: cs, s, rs, s' => ∃ r rest s₁, rs = r :: rest ∧ ends c s r s₁ ∧ Successive ends cs s₁ rest s'

theorem Successive.simulates {ends : C → S → P → S → Prop} {ends' : C' → S' → P' → S' → Prop}
    {K : C → C' → Prop} {E : S → S' → Prop} {D : P → P' → Prop}
    (hsim : ∀ c c' s t r s₁, K c c' → E s t → ends c s r s₁ → ∃ r' t₁, D r r' ∧ E s₁ t₁ ∧ ends' c' t r' t₁)
    {cs : List C} {cs' : List C'} (hc : List.Forall₂ K cs cs') {s s₁ : S} {t : S'} {rs : List P}
    (he : E s t) (h : Successive ends cs s rs s₁) :
    ∃ rs' t₁, List.Forall₂ D rs rs' ∧ E s₁ t₁ ∧ Successive ends' cs' t rs' t₁ := by
  induction hc generalizing s t rs with
  | nil =>
    obtain ⟨rfl, rfl⟩ := h
    exact ⟨[], t, .nil, he, rfl, rfl⟩
  | cons hk _ ih =>
    obtain ⟨r, rest, s₂, rfl, hr, hrest⟩ := h
    obtain ⟨r', t₂, hd, he₂, hr'⟩ := hsim _ _ _ _ _ _ hk he hr
    obtain ⟨rs', t₁, hds, he₁, hrest'⟩ := ih he₂ hrest
    exact ⟨r' :: rs', t₁, .cons hd hds, he₁, r', rs', t₂, rfl, hr', hrest'⟩

end Successive

end ProtoClojure.Recursion
