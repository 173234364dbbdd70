import ProtoClojure.Compiler.Meaning
import ProtoClojure.Compiler.Tails

/-! An expression that has a value is one that control can get past. -/
namespace ProtoClojure.Meaning
open Recursion
open Vm (Host truthy)

variable {σ : Type} {H : Host σ}

/-- Where an expression or a body ends in a value, it returns. -/
def Returning : (q : Query σ) → q.Answer → Prop
  | .exp _ e _, (r, _) => (∃ v, r = .ok v) → e.returns = true
  | .turns _ _ _ body _, (r, _) => (∃ v, r = .ok v) → body.returns = true
  | .apply _ _ _ _, _ => True

/-- The answers there are, with what is known of them. -/
abbrev Known (H : Host σ) (q : Query σ) (a : q.Answer) : Prop :=
  (meaning H).Answers q a ∧ Returning q a

variable {ρ : Locals} {w w' : Vm.World σ Closure} {v : Value}

theorem eval_returning {e : Exp} (h : (eval ρ e w).Returns (Known H) (.ok v, w')) :
    e.returns = true := (Comp.returns_ask.mp h).2 ⟨v, rfl⟩

theorem evalArgs_returning : ∀ {es : Exps} {vs : List Value} {w w' : Vm.World σ Closure},
    (evalArgs ρ es w).Returns (Known H) (.ok vs, w') → es.returns = true
  | .nil, _, _, _, _ => rfl
  | .cons e rest, _, _, _, h => by
    obtain ⟨v, w₁, hv, h⟩ := Effect.returns_bind_ok.mp h
    obtain ⟨vs, w₂, hvs, -⟩ := Effect.returns_bind_ok.mp h
    exact Bool.and_eq_true_iff.mpr ⟨eval_returning hv, evalArgs_returning hvs⟩

theorem evalEffects_returning : ∀ {es : Exps} {w : Vm.World σ Closure},
    (evalEffects ρ es w).Returns (Known H) (.ok (), w') → es.returns = true
  | .nil, _, _ => rfl
  | .cons e rest, w, h => by
    obtain ⟨v, w₁, hv, h⟩ := Effect.returns_bind_ok.mp h
    exact Bool.and_eq_true_iff.mpr ⟨eval_returning hv, evalEffects_returning h⟩

theorem evalBinds_returning : ∀ {bs : Binds} {ρ : Locals} {vs : List Value} {w w' : Vm.World σ Closure},
    (evalBinds ρ bs w).Returns (Known H) (.ok vs, w') → bs.returns = true
  | .nil, _, _, _, _, _ => rfl
  | .cons x init rest, _, _, _, _, h => by
    obtain ⟨v, w₁, hv, h⟩ := Effect.returns_bind_ok.mp h
    obtain ⟨vs, w₂, hvs, -⟩ := Effect.returns_bind_ok.mp h
    exact Bool.and_eq_true_iff.mpr ⟨eval_returning hv, evalBinds_returning hvs⟩

theorem evalClauses_returning {t : Vm.Thrown} {x : Value} : ∀ {cs : Clauses} {w : Vm.World σ Closure},
    (evalClauses H ρ t x cs w).Returns (Known H) (.ok v, w') → cs.returns = true
  | .nil, _, h => by
    obtain ⟨h, -⟩ := Effect.returns_throw.mp h
    cases h
  | .cons test y body rest, w, h => by
    obtain ⟨b, w₁, -, h⟩ := Effect.returns_bind_ok.mp h
    cases b with
    | true => exact Bool.or_eq_true_iff.mpr (.inl (eval_returning h))
    | false => exact Bool.or_eq_true_iff.mpr (.inr (evalClauses_returning h))

/-- Out of a `try` a value comes from its body, or from what is made of what is raised there. -/
theorem catching_ok {R : (q : Query σ) → q.Answer → Prop} {x : Eval σ Abrupt Value}
    {f : Vm.Thrown → Value → Eval σ Abrupt Value} (h : (catching H x f w).Returns R (.ok v, w')) :
    (x w).Returns R (.ok v, w') ∨ ∃ t u w₁, (f t u w₁).Returns R (.ok v, w') := by
  obtain ⟨⟨r, w₁⟩, hx, h⟩ := Comp.returns_bind.mp h
  rcases r with (t | args) | a
  · exact .inr ⟨t, _, _, h⟩
  · cases h
  · cases h
    exact .inl hx

theorem evalExp_returning {e : Exp} (h : (evalExp H ρ e w).Returns (Known H) (.ok v, w')) :
    e.returns = true := by
  cases e with
  | lit | sym | global | fn => rfl
  | recur args =>
    obtain ⟨vs, w₁, -, h⟩ := Effect.returns_bind_ok.mp h
    cases (Effect.returns_throw.mp h).1
  | throw e =>
    obtain ⟨v, w₁, -, h⟩ := Effect.returns_bind_ok.mp h
    obtain ⟨t, w₂, -, h⟩ := Effect.returns_bind_ok.mp h
    cases (Effect.returns_throw.mp h).1
  | member o m =>
    obtain ⟨v, w₁, hv, -⟩ := Effect.returns_bind_ok.mp h
    exact (eval_returning hv : o.returns = true)
  | ite test thn els =>
    obtain ⟨v, w₁, hv, h⟩ := Effect.returns_bind_ok.mp h
    refine Bool.and_eq_true_iff.mpr ⟨eval_returning hv, Bool.or_eq_true_iff.mpr ?_⟩
    cases ht : truthy v with
    | true => exact .inl (eval_returning (by simpa [ht] using h))
    | false => exact .inr (eval_returning (by simpa [ht] using h))
  | both a b | either a b =>
    obtain ⟨v, w₁, hv, -⟩ := Effect.returns_bind_ok.mp h
    exact (eval_returning hv : a.returns = true)
  | seq a b | bind x a b =>
    obtain ⟨v, w₁, hv, h⟩ := Effect.returns_bind_ok.mp h
    exact Bool.and_eq_true_iff.mpr ⟨eval_returning hv, eval_returning h⟩
  | loop bs body =>
    obtain ⟨vs, w₁, hvs, h⟩ := Effect.returns_bind_ok.mp h
    refine Bool.and_eq_true_iff.mpr ⟨evalBinds_returning hvs, ?_⟩
    rcases Effect.returns_settle.mp h with ⟨v', h, -⟩ | ⟨t, t', -, -, h⟩
    · exact (Comp.returns_ask.mp h).2 ⟨v', rfl⟩
    · cases h
  | call kw f args | callMember f m args =>
    obtain ⟨v, w₁, hv, h⟩ := Effect.returns_bind_ok.mp h
    obtain ⟨vs, w₂, hvs, -⟩ := Effect.returns_bind_ok.mp h
    exact Bool.and_eq_true_iff.mpr ⟨eval_returning hv, evalArgs_returning hvs⟩
  | apply f a =>
    obtain ⟨v, w₁, hv, h⟩ := Effect.returns_bind_ok.mp h
    obtain ⟨v₂, w₂, hv₂, -⟩ := Effect.returns_bind_ok.mp h
    exact Bool.and_eq_true_iff.mpr ⟨eval_returning hv, eval_returning hv₂⟩
  | operator op core a b =>
    obtain ⟨v, w₁, hv, h⟩ := Effect.returns_bind_ok.mp h
    obtain ⟨v₂, w₂, hv₂, -⟩ := Effect.returns_bind_ok.mp h
    exact Bool.and_eq_true_iff.mpr ⟨eval_returning hv, eval_returning hv₂⟩
  | setGlobal key e =>
    obtain ⟨v, w₁, hv, -⟩ := Effect.returns_bind_ok.mp h
    exact (eval_returning hv : e.returns = true)
  | tryPlain body =>
    have hv : (eval ρ body w).Returns (Known H) (.ok v, w') := h
    exact (eval_returning hv : body.returns = true)
  | tryCatch body clauses =>
    have hv : (catching H (eval ρ body) (fun t v => evalClauses H ρ t v clauses) w).Returns
        (Known H) (.ok v, w') := h
    rcases catching_ok hv with h | ⟨t, u, w₁, h⟩
    · exact Bool.or_eq_true_iff.mpr (.inl (eval_returning h))
    · exact Bool.or_eq_true_iff.mpr (.inr (evalClauses_returning h))
  | tryFinally body fin fin' =>
    obtain ⟨v, w₁, hv, h⟩ := Effect.returns_bind_ok.mp h
    obtain ⟨_, w₂, hf, -⟩ := Effect.returns_bind_ok.mp h
    refine Bool.and_eq_true_iff.mpr ⟨?_, evalEffects_returning hf⟩
    rcases catching_ok hv with h | ⟨t, u, w₁, h⟩
    · exact eval_returning h
    · obtain ⟨_, w₃, -, h⟩ := Effect.returns_bind_ok.mp h
      cases (Effect.returns_throw.mp h).1

/-- An expression that has a value returns. -/
theorem answers_returning {q : Query σ} {a : q.Answer} (h : (meaning H).Answers q a) :
    Returning q a := by
  refine Program.Answers.induct (fun q a h => ?_) h
  rcases q with ⟨ρ, e, w⟩ | ⟨names, vals, ρ, body, w⟩ | _
  · rintro ⟨v, hv⟩
    obtain ⟨r, w'⟩ := a
    cases hv
    exact evalExp_returning h
  · rintro ⟨v, hv⟩
    obtain ⟨r, w'⟩ := a
    cases hv
    obtain ⟨⟨r, w₁⟩, hx, h⟩ := Comp.returns_bind.mp h
    rcases r with (t | args) | u
    · cases h
    · exact (Comp.returns_ask.mp h).2 ⟨v, rfl⟩
    · exact (Comp.returns_ask.mp hx).2 ⟨u, rfl⟩
  · trivial

end ProtoClojure.Meaning
