import Mathlib.Tactic.Common

/-! Computations that call procedures of a recursive program, and what the program answers.
A call is a node with a continuation, so one induction over computations serves every
procedure body; fuel only bounds how deep the calls nest. -/
namespace ProtoClojure.Recursion

inductive Comp (Q : Type) (A : Q → Type) (ε α : Type) where
  | done (a : α)
  | throw (e : ε)
  | call (q : Q) (next : A q → Comp Q A ε α)

variable {Q : Type} {A : Q → Type} {ε α β γ : Type}

namespace Comp

def bind : Comp Q A ε α → (α → Comp Q A ε β) → Comp Q A ε β
  | .done a, f => f a
  | .throw e, _ => .throw e
  | .call q next, f => .call q fun b => (next b).bind f

instance : Monad (Comp Q A ε) where
  pure := .done
  bind := bind

/-- Call `q` and answer what it answers. -/
def ask (q : Q) : Comp Q A ε (A q) := .call q .done

theorem bind_done (c : Comp Q A ε α) : c.bind .done = c := by
  induction c with
  | done a => rfl
  | throw e => rfl
  | call q next ih => exact congrArg (Comp.call q) (funext ih)

theorem bind_assoc (c : Comp Q A ε α) (f : α → Comp Q A ε β) (g : β → Comp Q A ε γ) :
    (c.bind f).bind g = c.bind fun a => (f a).bind g := by
  induction c with
  | done a => rfl
  | throw e => rfl
  | call q next ih => exact congrArg (Comp.call q) (funext ih)

instance : LawfulMonad (Comp Q A ε) :=
  .mk' _ (fun c => bind_done c) (fun _ _ => rfl) fun c f g => bind_assoc c f g

/-- The outcome when every call is looked up; `none` when some call has no answer. -/
def run (answer : (q : Q) → Option (Except ε (A q))) : Comp Q A ε α → Option (Except ε α)
  | .done a => some (.ok a)
  | .throw e => some (.error e)
  | .call q next =>
    match answer q with
    | none => none
    | some (.error e) => some (.error e)
    | some (.ok b) => (next b).run answer

/-- The outcomes when a call may answer whatever `R` allows. -/
def Yields (R : (q : Q) → Except ε (A q) → Prop) : Comp Q A ε α → Except ε α → Prop
  | .done a, r => r = .ok a
  | .throw e, r => r = .error e
  | .call q next, r => (∃ b, R q (.ok b) ∧ (next b).Yields R r) ∨ ∃ e, R q (.error e) ∧ r = .error e

/-- The values among the outcomes. -/
def Returns (R : (q : Q) → A q → Prop) : Comp Q A ε α → α → Prop
  | .done b, a => b = a
  | .throw _, _ => False
  | .call q next, a => ∃ b, R q b ∧ (next b).Returns R a

section Returns
variable {R R' : (q : Q) → A q → Prop}

@[simp] theorem returns_pure {a b : α} : (pure a : Comp Q A ε α).Returns R b ↔ a = b := .rfl

@[simp] theorem returns_throw {e : ε} {a : α} : ¬ (throw e : Comp Q A ε α).Returns R a := id

@[simp] theorem returns_ask {q : Q} {b : A q} : (ask q : Comp Q A ε (A q)).Returns R b ↔ R q b :=
  ⟨fun ⟨_, hq, hb⟩ => hb ▸ hq, fun hq => ⟨b, hq, rfl⟩⟩

@[simp] theorem returns_bind {c : Comp Q A ε α} {f : α → Comp Q A ε β} {b : β} :
    (c >>= f).Returns R b ↔ ∃ a, c.Returns R a ∧ (f a).Returns R b := by
  show (c.bind f).Returns R b ↔ _
  induction c with
  | done a => exact ⟨fun h => ⟨a, rfl, h⟩, fun ⟨_, ha, h⟩ => ha ▸ h⟩
  | throw e => exact ⟨False.elim, fun ⟨_, h, _⟩ => h⟩
  | call q next ih =>
    constructor
    · rintro ⟨d, hd, h⟩
      obtain ⟨a, ha, hb⟩ := (ih d).mp h
      exact ⟨a, ⟨d, hd, ha⟩, hb⟩
    · rintro ⟨a, ⟨d, hd, ha⟩, hb⟩
      exact ⟨d, hd, (ih d).mpr ⟨a, ha, hb⟩⟩

@[simp] theorem returns_map {c : Comp Q A ε α} {f : α → β} {b : β} :
    (f <$> c).Returns R b ↔ ∃ a, c.Returns R a ∧ f a = b := by
  rw [← bind_pure_comp, returns_bind]
  exact .rfl

theorem Returns.mono {c : Comp Q A ε α} {a : α} (hR : ∀ q b, R q b → R' q b)
    (h : c.Returns R a) : c.Returns R' a := by
  induction c with
  | done b => exact h
  | throw e => exact h
  | call q next ih =>
    obtain ⟨b, hb, h⟩ := h
    exact ⟨b, hR q b hb, ih b h⟩

theorem Returns.unique {c : Comp Q A ε α} {a a' : α} (hR : ∀ q b b', R q b → R q b' → b = b')
    (h : c.Returns R a) (h' : c.Returns R a') : a = a' := by
  induction c with
  | done b => exact h.symm.trans h'
  | throw e => exact h.elim
  | call q next ih =>
    obtain ⟨b, hb, h⟩ := h
    obtain ⟨b', hb', h'⟩ := h'
    obtain rfl := hR q b b' hb hb'
    exact ih b h h'

end Returns

section Yields
variable {R : (q : Q) → Except ε (A q) → Prop}

theorem yields_ask {q : Q} {r : Except ε (A q)} :
    (ask q : Comp Q A ε (A q)).Yields R r ↔ R q r := by
  constructor
  · rintro (⟨b, hb, rfl⟩ | ⟨e, he, rfl⟩)
    · exact hb
    · exact he
  · intro h
    cases r with
    | ok b => exact .inl ⟨b, h, rfl⟩
    | error e => exact .inr ⟨e, h, rfl⟩

theorem yields_bind {c : Comp Q A ε α} {f : α → Comp Q A ε β} {r : Except ε β} :
    (c >>= f).Yields R r ↔ (∃ a, c.Yields R (.ok a) ∧ (f a).Yields R r) ∨
      ∃ e, c.Yields R (.error e) ∧ r = .error e := by
  show (c.bind f).Yields R r ↔ _
  induction c with
  | done a =>
    constructor
    · exact fun h => .inl ⟨a, rfl, h⟩
    · rintro (⟨b, hb, h⟩ | ⟨e, he, -⟩)
      · obtain rfl := Except.ok.inj hb
        exact h
      · cases he
  | throw e =>
    constructor
    · exact fun h => .inr ⟨e, rfl, h⟩
    · rintro (⟨a, ha, -⟩ | ⟨e', he, rfl⟩)
      · cases ha
      · obtain rfl := Except.error.inj he
        rfl
  | call q next ih =>
    constructor
    · rintro (⟨d, hd, h⟩ | ⟨e, he, rfl⟩)
      · rcases (ih d).mp h with ⟨a, ha, hb⟩ | ⟨e, he, rfl⟩
        · exact .inl ⟨a, .inl ⟨d, hd, ha⟩, hb⟩
        · exact .inr ⟨e, .inl ⟨d, hd, he⟩, rfl⟩
      · exact .inr ⟨e, .inr ⟨e, he, rfl⟩, rfl⟩
    · rintro (⟨a, ⟨d, hd, ha⟩ | ⟨e, -, he⟩, hb⟩ | ⟨e, ⟨d, hd, he⟩ | ⟨e', he', he⟩, rfl⟩)
      · exact .inl ⟨d, hd, (ih d).mpr (.inl ⟨a, ha, hb⟩)⟩
      · cases he
      · exact .inl ⟨d, hd, (ih d).mpr (.inr ⟨e, he, rfl⟩)⟩
      · obtain rfl := Except.error.inj he
        exact .inr ⟨e, he', rfl⟩

theorem yields_bind_congr {c : Comp Q A ε α} {f g : α → Comp Q A ε β} {r : Except ε β}
    (h : ∀ a, c.Yields R (.ok a) → ((f a).Yields R r ↔ (g a).Yields R r)) :
    (c >>= f).Yields R r ↔ (c >>= g).Yields R r := by
  rw [yields_bind, yields_bind]
  exact or_congr_left (exists_congr fun a => and_congr_right (h a))

theorem yields_ok {c : Comp Q A ε α} {a : α} :
    c.Yields R (.ok a) ↔ c.Returns (fun q b => R q (.ok b)) a := by
  induction c with
  | done b => exact ⟨fun h => (Except.ok.inj h).symm, fun h => congrArg Except.ok (Eq.symm h)⟩
  | throw e => exact ⟨nofun, False.elim⟩
  | call q next ih =>
    constructor
    · rintro (⟨b, hb, h⟩ | ⟨e, -, he⟩)
      · exact ⟨b, hb, (ih b).mp h⟩
      · cases he
    · rintro ⟨b, hb, h⟩
      exact .inl ⟨b, hb, (ih b).mpr h⟩

theorem Yields.mono {R' : (q : Q) → Except ε (A q) → Prop} {c : Comp Q A ε α} {r : Except ε α}
    (hR : ∀ q s, R q s → R' q s) (h : c.Yields R r) : c.Yields R' r := by
  induction c with
  | done a => exact h
  | throw e => exact h
  | call q next ih =>
    rcases h with ⟨b, hb, h⟩ | ⟨e, he, rfl⟩
    · exact .inl ⟨b, hR q _ hb, ih b h⟩
    · exact .inr ⟨e, hR q _ he, rfl⟩

theorem Yields.unique {c : Comp Q A ε α} {r r' : Except ε α}
    (hR : ∀ q s s', R q s → R q s' → s = s') (h : c.Yields R r) (h' : c.Yields R r') : r = r' := by
  induction c with
  | done b => exact Eq.trans h h'.symm
  | throw e => exact Eq.trans h h'.symm
  | call q next ih =>
    rcases h with ⟨b, hb, h⟩ | ⟨e, he, rfl⟩ <;> rcases h' with ⟨b', hb', h'⟩ | ⟨e', he', rfl⟩
    · obtain rfl := Except.ok.inj (hR q _ _ hb hb')
      exact ih b h h'
    · cases hR q _ _ hb he'
    · cases hR q _ _ he hb'
    · exact congrArg Except.error (Except.error.inj (hR q _ _ he he'))

/-- Where calls have one outcome, a computation known to answer `a` may be left out. -/
theorem Yields.bind_iff {c : Comp Q A ε α} {a : α} {f : α → Comp Q A ε β} {r : Except ε β}
    (hR : ∀ q s s', R q s → R q s' → s = s') (h : c.Yields R (.ok a)) :
    (c >>= f).Yields R r ↔ (f a).Yields R r := by
  rw [yields_bind]
  constructor
  · rintro (⟨a', ha', hf⟩ | ⟨e, he, -⟩)
    · obtain rfl := Except.ok.inj (h.unique hR ha')
      exact hf
    · cases h.unique hR he
  · exact fun hf => .inl ⟨a, h, hf⟩

end Yields

theorem run_eq_some {answer : (q : Q) → Option (Except ε (A q))} {c : Comp Q A ε α}
    {r : Except ε α} : c.run answer = some r ↔ c.Yields (fun q s => answer q = some s) r := by
  induction c with
  | done a => exact ⟨fun h => (Option.some.inj h).symm, fun h => congrArg some (Eq.symm h)⟩
  | throw e => exact ⟨fun h => (Option.some.inj h).symm, fun h => congrArg some (Eq.symm h)⟩
  | call q next ih =>
    unfold run Yields
    cases hq : answer q with
    | none => simp
    | some s =>
      cases s with
      | error e => simp [eq_comm]
      | ok b => simpa using ih b

theorem run_mono {answer answer' : (q : Q) → Option (Except ε (A q))} {c : Comp Q A ε α}
    {r : Except ε α} (ha : ∀ q s, answer q = some s → answer' q = some s)
    (h : c.run answer = some r) : c.run answer' = some r := by
  induction c with
  | done a => exact h
  | throw e => exact h
  | call q next ih =>
    unfold run at h ⊢
    cases hq : answer q with
    | none =>
      rw [hq] at h
      cases h
    | some s =>
      rw [hq] at h
      rw [ha q s hq]
      cases s with
      | error e => exact h
      | ok b => exact ih b h

/-! #### Among more calls -/

section Embed
variable {Q' : Type} {A' : Q' → Type}

/-- What calls of either kind answer. -/
@[reducible] def Either (A : Q → Type) (A' : Q' → Type) : Q ⊕ Q' → Type
  | .inl q => A q
  | .inr q => A' q

/-- The computation where other calls may be made besides. -/
def embed : Comp Q A ε α → Comp (Q ⊕ Q') (Either A A') ε α
  | .done a => .done a
  | .throw e => .throw e
  | .call q next => .call (.inl q) fun a => (next a).embed

@[simp] theorem embed_pure (a : α) :
    (pure a : Comp Q A ε α).embed = (pure a : Comp (Q ⊕ Q') (Either A A') ε α) := rfl

end Embed

/-- What answers without a call after a function was applied did so before. -/
theorem map_eq_pure {c : Comp Q A ε α} {f : α → β} {b : β} (h : f <$> c = pure b) :
    ∃ a, c = pure a ∧ f a = b := by
  rw [← bind_pure_comp] at h
  cases c with
  | done a => exact ⟨a, rfl, Comp.done.inj h⟩
  | throw e => cases h
  | call q next => cases h

end Comp

/-! ### Programs -/

/-- The body of every procedure. -/
abbrev Program (Q : Type) (A : Q → Type) (ε : Type) := (q : Q) → Comp Q A ε (A q)

namespace Program
variable (P : Program Q A ε)

/-- Calls nested at most `fuel` deep. -/
def eval : Nat → (q : Q) → Option (Except ε (A q))
  | 0, _ => none
  | fuel + 1, q => (P q).run (eval fuel)

def Outcome (q : Q) (r : Except ε (A q)) : Prop := ∃ fuel, P.eval fuel q = some r

def Answers (q : Q) (a : A q) : Prop := P.Outcome q (.ok a)

variable {P}

theorem eval_succ {fuel : Nat} {q : Q} {r : Except ε (A q)} (h : P.eval fuel q = some r) :
    P.eval (fuel + 1) q = some r := by
  induction fuel generalizing q r with
  | zero => cases h
  | succ fuel ih => exact Comp.run_mono (fun _ _ => ih) h

theorem eval_mono {fuel fuel' : Nat} {q : Q} {r : Except ε (A q)} (hle : fuel ≤ fuel')
    (h : P.eval fuel q = some r) : P.eval fuel' q = some r := by
  induction hle with
  | refl => exact h
  | step _ ih => exact eval_succ ih

theorem Outcome.unique {q : Q} {r r' : Except ε (A q)} (h : P.Outcome q r)
    (h' : P.Outcome q r') : r = r' := by
  obtain ⟨fuel, h⟩ := h
  obtain ⟨fuel', h'⟩ := h'
  have hr := eval_mono (Nat.le_max_left fuel fuel') h
  have hr' := eval_mono (Nat.le_max_right fuel fuel') h'
  exact Option.some.inj (hr.symm.trans hr')

theorem Answers.unique {q : Q} {a a' : A q} (h : P.Answers q a) (h' : P.Answers q a') : a = a' :=
  Except.ok.inj (Outcome.unique h h')

/-- One amount of fuel is enough for all the calls a computation makes. -/
theorem run_of_yields {c : Comp Q A ε α} {r : Except ε α} (h : c.Yields P.Outcome r) :
    ∃ fuel, c.run (P.eval fuel) = some r := by
  induction c with
  | done a => exact ⟨0, congrArg some (Eq.symm h)⟩
  | throw e => exact ⟨0, congrArg some (Eq.symm h)⟩
  | call q next ih =>
    rcases h with ⟨b, ⟨fuel, hb⟩, h⟩ | ⟨e, ⟨fuel, he⟩, rfl⟩
    · obtain ⟨fuel', h⟩ := ih b h
      refine ⟨max fuel fuel', ?_⟩
      unfold Comp.run
      rw [eval_mono (Nat.le_max_left fuel fuel') hb]
      exact Comp.run_mono (fun _ _ => eval_mono (Nat.le_max_right fuel fuel')) h
    · refine ⟨fuel, ?_⟩
      unfold Comp.run
      rw [he]

/-- A call has the outcomes of the procedure's body. -/
theorem outcome_iff {q : Q} {r : Except ε (A q)} :
    P.Outcome q r ↔ (P q).Yields P.Outcome r := by
  constructor
  · rintro ⟨fuel, h⟩
    cases fuel with
    | zero => cases h
    | succ fuel => exact (Comp.run_eq_some.mp h).mono fun q' s hs => ⟨fuel, hs⟩
  · intro h
    obtain ⟨fuel, h⟩ := run_of_yields h
    exact ⟨fuel + 1, h⟩

theorem answers_iff {q : Q} {a : A q} : P.Answers q a ↔ (P q).Returns P.Answers a :=
  outcome_iff.trans Comp.yields_ok

/-- Induction over the calls behind an outcome. -/
theorem Outcome.induct {motive : (q : Q) → Except ε (A q) → Prop}
    (step : ∀ q r, (P q).Yields (fun q' s => P.Outcome q' s ∧ motive q' s) r → motive q r)
    {q : Q} {r : Except ε (A q)} (h : P.Outcome q r) : motive q r := by
  obtain ⟨fuel, h⟩ := h
  induction fuel generalizing q r with
  | zero => cases h
  | succ fuel ih =>
    exact step q r ((Comp.run_eq_some.mp h).mono fun q' s hs => ⟨⟨fuel, hs⟩, ih hs⟩)

/-- Induction over the calls behind an answer. -/
theorem Answers.induct {motive : (q : Q) → A q → Prop}
    (step : ∀ q a, (P q).Returns (fun q' b => P.Answers q' b ∧ motive q' b) a → motive q a)
    {q : Q} {a : A q} (h : P.Answers q a) : motive q a := by
  obtain ⟨fuel, h⟩ := h
  induction fuel generalizing q a with
  | zero => cases h
  | succ fuel ih =>
    have hrun := Comp.yields_ok.mp (Comp.run_eq_some.mp h)
    exact step q a (hrun.mono fun q' b hb => ⟨⟨fuel, hb⟩, ih hb⟩)

theorem returns_unique {c : Comp Q A ε α} {a a' : α} (h : c.Returns P.Answers a)
    (h' : c.Returns P.Answers a') : a = a' :=
  h.unique (fun _ _ _ => Answers.unique) h'

end Program
end ProtoClojure.Recursion
