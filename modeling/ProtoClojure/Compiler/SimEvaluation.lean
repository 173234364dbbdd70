import ProtoClojure.Compiler.ClearSafety
import ProtoClojure.Compiler.Returning
import ProtoClojure.Compiler.SimInstructions

/-! What it is for the code of an expression, of a loop's turns and of a call to do what they
mean, and how stretches of it follow one another. -/
namespace ProtoClojure.Simulation
open Recursion
open Meaning (Locals Closure Abrupt Query Eval meaning)
open Vm (Host Thrown InWorld Site Service)

/-- The tables are the module's, and what locals clearing did to its code is safe. -/
structure Laid (X : Ctx) : Prop where
  consts : X.T.consts = X.m.consts
  blocks : X.T.blocks = X.m.blocks
  groups : X.T.groups = X.m.arityGroups
  handlers : ∀ i n : Nat, X.m.code[i]? = some ⟨.tryBegin, n⟩ → X.m.hasHandlers = true
  safe : ClearSafe X.T X.m.code

variable {σ α : Type}

/-- Where the code of an expression starts, `k` instructions into its loop. -/
structure Here (X : Ctx) (β : Names) (ρ : Locals) (lo : Nat) (s : St σ) (k : Nat)
    (pending : Bool) (w : Vm.World σ Closure) : Prop where
  laid : Laid X
  agrees : Agrees X.T X.m.code β ρ lo s.p s.slots
  world : WorldRel w s.world
  nodup : ∀ slots, X.L = some slots → slots.Nodup
  loop : X.L ≠ none → X.head + k = s.p
  floor : X.L ≠ none → pending = false → s.stack = X.floor

/-- Where the turns of a loop or a body start: the slots of its names, of which `recur` sets
`slots`, hold their values. -/
structure Turn (X : Ctx) (β : Names) (ρ : Locals) (lo : Nat) (slots rest : List Nat)
    (names : List String) (vals : List Value) (s : St σ) (w : Vm.World σ Closure) : Prop where
  laid : Laid X
  loop : X.L = some slots
  head : X.head = s.p
  floor : X.floor = s.stack
  agrees : Agrees X.T X.m.code β ρ lo s.p s.slots
  world : WorldRel w s.world
  namesLength : names.length = (slots ++ rest).length
  valsLength : vals.length = (slots ++ rest).length
  nodup : (slots ++ rest).Nodup
  own : ∀ x ∈ slots ++ rest, lo ≤ x ∧ ¬ X.T.Captures x
  kept : ∀ x ∈ rest, ∀ r, ¬ Clears X.m.code r x
  holds : ∀ p ∈ (slots ++ rest).zip vals, Unread X.m.code s.p p.1 → s.slots p.1 = some p.2

section
variable (H : Host σ)

def ExpSim (ρ : Locals) (e : Exp) (w : Vm.World σ Closure) (r : Except Abrupt Value)
    (w' : Vm.World σ Closure) : Prop :=
  ∀ ⦃env : Env⦄ ⦃X : Ctx⦄ ⦃β lo hi c k pending⦄ ⦃s : St σ⦄, Compiles env X.T β X.L lo hi e c →
    Code.At X.m.code s.p k c → Here X β ρ lo s k pending w → e.steady pending = true →
    Runs H X lo s.stack s (s.p + c.len) (fun v => v :: s.stack) r w'

def TurnsSim (names : List String) (vals : List Value) (ρ : Locals) (body : Exp) (w : Vm.World σ Closure)
    (r : Except Thrown Value) (w' : Vm.World σ Closure) : Prop :=
  ∀ ⦃env : Env⦄ ⦃X : Ctx⦄ ⦃β lo slots rest mid hi c⦄ ⦃s : St σ⦄, Turn X β ρ lo slots rest names vals s w →
    Compiles env X.T ((names.zip (slots ++ rest)).reverse ++ β) X.L mid hi body c →
    Code.At X.m.code s.p 0 c → lo ≤ mid → (∀ x ∈ slots ++ rest, x < mid) → body.steady false = true →
    Runs H X lo s.stack s (s.p + c.len) (fun v => v :: s.stack) (r.mapError .raise) w'

def ApplySim (site : Site) (f : Value) (args : List Value) (w : Vm.World σ Closure)
    (r : Except Thrown Value) (w' : Vm.World σ Closure) : Prop :=
  ∀ ⦃wM⦄, WorldRel w wM → ∃ wM', WorldRel w' wM' ∧
    (Vm.apply H site f args wM).Returns (Vm.vm H).Answers (r, wM')

def Motive : (q : Query σ) → q.Answer → Prop
  | .exp ρ e w, (r, w') => ExpSim H ρ e w r w'
  | .turns names vals ρ body w, (r, w') => TurnsSim H names vals ρ body w r w'
  | .apply site f args w, (r, w') => ApplySim H site f args w r w'

/-- The answers there are, each simulated by the frames. -/
abbrev Simulated (q : Query σ) (a : q.Answer) : Prop := (meaning H).Answers q a ∧ Motive H q a

end

variable {H : Host σ} {env : Env} {X : Ctx} {β : Names} {ρ : Locals} {lo mid hi k q q' n : Nat}
  {s : St σ} {pending : Bool} {w w₁ w' : Vm.World σ Closure} {r : Except Abrupt α} {fin : α → List Value}
  {base : List Value} {e : Exp} {c : Code} {v : Value}

/-! ### Evaluation -/

theorem eval_sim {r : Except Abrupt Value} (h : (Meaning.eval ρ e w).Returns (Simulated H) (r, w')) :
    ExpSim H ρ e w r w' := (Comp.returns_ask.mp h).2

theorem eval_returns (h : (Meaning.eval ρ e w).Returns (Simulated H) (.ok v, w')) :
    e.returns = true := Meaning.answers_returning (Comp.returns_ask.mp h).1 ⟨v, rfl⟩

theorem turns_sim {names : List String} {vals : List Value} {r : Except Thrown Value}
    (h : (Meaning.turns names vals ρ e w).Returns (Simulated H) (r, w')) :
    TurnsSim H names vals ρ e w r w' := (Comp.returns_ask.mp h).2

/-! ### Places -/

/-- A stretch that leaves the slots around alone. -/
theorem Here.move {t : St σ} {lo' : Nat} {pending' : Bool} (h : Here X β ρ lo s k pending w)
    (hk : Keeps X lo t.p s t.slots t.caught) (hw : WorldRel w' t.world) (hp : t.p = s.p + n)
    (hl : lo ≤ lo') (hf : X.L ≠ none → pending' = false → t.stack = X.floor) :
    Here X β ρ lo' t (k + n) pending' w' :=
  ⟨h.laid, (h.agrees.move hk.slots (by omega)).mono hl, hw, h.nodup,
    fun hL => by have := h.loop hL; omega, hf⟩

/-- A stretch that changes nothing but the stack. -/
theorem Here.step {S : List Value} {pending' : Bool} (h : Here X β ρ lo s k pending w) (n : Nat)
    (hf : X.L ≠ none → pending' = false → S = X.floor) :
    Here X β ρ lo ⟨s.p + n, S, s.slots, s.caught, s.world⟩ (k + n) pending' w :=
  h.move (t := ⟨s.p + n, S, s.slots, s.caught, s.world⟩) .refl h.world rfl le_rfl hf

theorem Here.consts (h : Here X β ρ lo s k pending w) {i : Nat} {a : Const}
    (hi : X.T.consts[i]? = some a) : X.m.consts[i]? = some a := h.laid.consts ▸ hi

/-- A name is bound to the slot its value is stored in. -/
theorem Here.bind {p slot : Nat} {S : List Value} {l : Nat → Option Value} {cc : Nat → Option Thrown}
    {wM : Vm.World σ FnObject} {x : String} {pending' : Bool}
    (h : Here X β ρ lo ⟨p, v :: S, l, cc, wM⟩ k pending' w) (hl : lo ≤ slot)
    (hc : ¬ X.T.Captures slot) (hf : X.L ≠ none → pending = false → S = X.floor) :
    Here X ((x, slot) :: β) ((x, v) :: ρ) (slot + 1)
      ⟨p + 1, S, Function.update l slot (some v), cc, wM⟩ (k + 1) pending w := by
  refine ⟨h.laid, ?_, h.world, h.nodup, fun hL => by have := h.loop hL; simp at this ⊢; omega, hf⟩
  exact (h.agrees.move (.refl l) (Nat.le_succ p)).bind hl hc

/-! ### Stretches -/

theorem Runs.cast (h : Runs H X lo base s q fin r w) (hq : q = q') :
    Runs H X lo base s q' fin r w := hq ▸ h

/-- An instruction that changes nothing but the stack. -/
theorem Runs.step {p' : Nat} {S : List Value}
    (hl : X.Leads H s ⟨p', S, s.slots, s.caught, s.world⟩) (hp : s.p ≤ p') (hq : p' ≤ q)
    (h : Runs H X lo base ⟨p', S, s.slots, s.caught, s.world⟩ q fin r w) :
    Runs H X lo base s q fin r w := h.after hl .refl hp hq le_rfl

/-- Instructions after a value. -/
theorem Runs.follow {fin' : α → List Value} (h : Runs H X lo base s q fin r w) (hq : q ≤ q')
    (hl : ∀ a l c (wM : Vm.World σ FnObject), X.Leads H ⟨q, fin a, l, c, wM⟩ ⟨q', fin' a, l, c, wM⟩) :
    Runs H X lo base s q' fin' r w := by
  rcases r with a | a
  · exact h.error hq
  · obtain ⟨l, c, wM, hl', hk, hw⟩ := h
    exact ⟨l, c, wM, hl'.trans (hl a l c wM), hk.weaken hq le_rfl, hw⟩

/-- What ends the body of a `try` is no way back to a loop around it. -/
theorem Runs.sealed {L : Option (List Nat)} (h : Runs H { X with L := none } lo base s q fin r w) :
    Runs H { X with L } lo base s q fin r w := by
  rcases r with (t | args) | a
  · exact h
  · obtain ⟨_, _, _, _, hL, -⟩ := h
    cases hL
  · exact h

/-- A loop that ended is left. -/
theorem Runs.leave {L L' : Option (List Nat)} {head head' : Nat} {floor floor' : List Value}
    {r : Except Thrown α}
    (h : Runs H { X with L, head, floor } lo base s q fin (r.mapError Abrupt.raise) w) :
    Runs H { X with L := L', head := head', floor := floor' } lo base s q fin
      (r.mapError Abrupt.raise) w := by
  cases r <;> exact h

/-- A value that is there. -/
theorem Runs.value {R : (q : Query σ) → q.Answer → Prop} {a : α}
    (h : ((Pure.pure a : Eval σ Abrupt α) w).Returns R (r, w')) (hw : WorldRel w s.world)
    (hl : X.Leads H s ⟨q, fin a, s.slots, s.caught, s.world⟩) (hp : s.p ≤ q) :
    Runs H X lo base s q fin r w' :=
  .step hl hp le_rfl (.pure h hw rfl rfl)

/-- A subexpression, and what is done with its value. -/
theorem Runs.evalUnder {f : Value → Eval σ Abrupt α} {under lo' : Nat}
    (h : ((Meaning.eval ρ e >>= f) w).Returns (Simulated H) (r, w'))
    (hc : Compiles env X.T β X.L lo mid e c) (ha : Code.At X.m.code s.p k c)
    (hh : Here X β ρ lo s k pending w) (hs : e.steady pending = true) (hq : s.p + c.len ≤ q)
    (hb : base <:+ s.stack) (hl : under ≤ lo) (hl' : under ≤ lo')
    (hf : ∀ v w₁ l cc wM, e.returns = true → Keeps X lo (s.p + c.len) s l cc →
      (f v w₁).Returns (Simulated H) (r, w') →
      Here X β ρ mid ⟨s.p + c.len, v :: s.stack, l, cc, wM⟩ (k + c.len) true w₁ →
      Runs H X lo' base ⟨s.p + c.len, v :: s.stack, l, cc, wM⟩ q fin r w') :
    Runs H X under base s q fin r w' := by
  refine Runs.bind h (Nat.le_add_right ..) hq hl hl'
    (fun r₁ w₁ hx => (eval_sim hx hc ha hh hs).lower hb)
    fun v w₁ l cc wM hv hr hk hw => hf v w₁ l cc wM (eval_returns hv) hk hr ?_
  exact hh.move (t := ⟨s.p + c.len, v :: s.stack, l, cc, wM⟩) hk hw rfl hc.le
    fun _ hp => by cases hp

theorem Runs.evalThen {f : Value → Eval σ Abrupt α}
    (h : ((Meaning.eval ρ e >>= f) w).Returns (Simulated H) (r, w'))
    (hc : Compiles env X.T β X.L lo mid e c) (ha : Code.At X.m.code s.p k c)
    (hh : Here X β ρ lo s k pending w) (hs : e.steady pending = true) (hq : s.p + c.len ≤ q)
    (hb : base <:+ s.stack)
    (hf : ∀ v w₁ l cc wM, e.returns = true → Keeps X lo (s.p + c.len) s l cc →
      (f v w₁).Returns (Simulated H) (r, w') →
      Here X β ρ mid ⟨s.p + c.len, v :: s.stack, l, cc, wM⟩ (k + c.len) true w₁ →
      Runs H X mid base ⟨s.p + c.len, v :: s.stack, l, cc, wM⟩ q fin r w') :
    Runs H X lo base s q fin r w' := .evalUnder h hc ha hh hs hq hb le_rfl hc.le hf

theorem steady_then {a b : Bool} (h : (!a || b) = true) (ha : a = true) : b = true := by
  subst ha
  exact h

theorem evalArgs_cons_bind {rest : Exps} {f : List Value → Eval σ Abrupt α} :
    (Meaning.evalArgs ρ (.cons e rest) >>= f : Eval σ Abrupt α) =
      Meaning.eval ρ e >>= fun v => Meaning.evalArgs ρ rest >>= fun vs => f (v :: vs) := by
  refine (Effect.bind_assoc _ _ _).trans (congrArg _ (funext fun v => ?_))
  exact Effect.bind_assoc _ _ _

theorem evalEffects_cons_bind {rest : Exps} {f : Unit → Eval σ Abrupt α} :
    (Meaning.evalEffects ρ (.cons e rest) >>= f : Eval σ Abrupt α) =
      Meaning.eval ρ e >>= fun _ => Meaning.evalEffects ρ rest >>= f :=
  Effect.bind_assoc _ _ _

theorem len_seq (n : Nat) (a b : Code) : n + (Code.seq a b).len = n + a.len + b.len :=
  (Nat.add_assoc ..).symm

/-- Arguments, left on the stack. -/
theorem Runs.evalArgsThen : ∀ {es : Exps} {f : List Value → Eval σ Abrupt α} {lo k : Nat} {c : Code}
    {s : St σ} {pending : Bool} {w : Vm.World σ Closure},
    ((Meaning.evalArgs ρ es >>= f) w).Returns (Simulated H) (r, w') →
    CompilesArgs env X.T β X.L lo mid es c → Code.At X.m.code s.p k c →
    Here X β ρ lo s k pending w → es.steady pending = true → s.p + c.len ≤ q →
    base <:+ s.stack →
    (∀ vs w₁ l cc wM, es.returns = true → vs.length = es.length →
      Keeps X lo (s.p + c.len) s l cc → (f vs w₁).Returns (Simulated H) (r, w') →
      Here X β ρ mid ⟨s.p + c.len, vs.reverse ++ s.stack, l, cc, wM⟩ (k + c.len) true w₁ →
      Runs H X mid base ⟨s.p + c.len, vs.reverse ++ s.stack, l, cc, wM⟩ q fin r w') →
    Runs H X lo base s q fin r w'
  | .nil, f, lo, k, _, s, _, w, h, .nil hl, _, hh, _, _, _, hf =>
    (hf [] w s.slots s.caught s.world rfl rfl .refl h
      (hh.move (t := ⟨s.p + 0, s.stack, s.slots, s.caught, s.world⟩) .refl hh.world rfl hl
        fun _ hp => by cases hp)).weaken hl
  | .cons e rest, f, lo, k, _, s, _, w, h, .cons hc hcs, ha, hh, hs, hq, hb, hf => by
    rw [evalArgs_cons_bind] at h
    obtain ⟨hs, hrest⟩ := Bool.and_eq_true_iff.mp hs
    simp only [len_seq] at hq hf
    refine Runs.evalThen h hc ha.seq.1 hh hs (by omega) hb fun v w₁ l cc wM hv hk hr hh₁ => ?_
    refine Runs.evalArgsThen hr hcs ha.seq.2 hh₁ (steady_then hrest hv) hq
      (hb.trans (List.suffix_cons ..)) fun vs w₂ l₂ cc₂ wM₂ hvs hn hk₂ hr₂ hh₂ => ?_
    have hstack : (v :: vs).reverse ++ s.stack = vs.reverse ++ (v :: s.stack) := by simp
    have hrun := hf (v :: vs) w₂ l₂ cc₂ wM₂ (Bool.and_eq_true_iff.mpr ⟨hv, hvs⟩)
      (congrArg (· + 1) hn) (hk.trans hk₂ (Nat.le_add_right ..) (Nat.le_add_right ..) hc.le) hr₂
    rw [hstack] at hrun
    exact hrun hh₂

theorem len_dropped (n : Nat) (a b : Code) :
    n + (Code.seq a (.seq (.ins ⟨.pop, 0⟩) b)).len = n + a.len + 1 + b.len := by
  simp only [Code.len]
  omega

/-- Expressions whose values are dropped. -/
theorem Runs.evalEffectsThen : ∀ {es : Exps} {f : Unit → Eval σ Abrupt α} {lo k : Nat} {c : Code}
    {s : St σ} {pending : Bool} {w : Vm.World σ Closure}, X.L = none →
    ((Meaning.evalEffects ρ es >>= f) w).Returns (Simulated H) (r, w') →
    CompilesEffects env X.T β lo mid es c → Code.At X.m.code s.p k c →
    Here X β ρ lo s k pending w → es.effectsSteady pending = true → s.p + c.len ≤ q →
    base <:+ s.stack →
    (∀ w₁ l cc wM, Keeps X lo (s.p + c.len) s l cc → (f () w₁).Returns (Simulated H) (r, w') →
      Here X β ρ mid ⟨s.p + c.len, s.stack, l, cc, wM⟩ (k + c.len) pending w₁ →
      Runs H X mid base ⟨s.p + c.len, s.stack, l, cc, wM⟩ q fin r w') →
    Runs H X lo base s q fin r w'
  | .nil, f, lo, k, _, s, _, w, hL, h, .nil hl, _, hh, _, _, _, hf =>
    (hf w s.slots s.caught s.world .refl h
      (hh.move (t := ⟨s.p + 0, s.stack, s.slots, s.caught, s.world⟩) .refl hh.world rfl hl
        fun hne => absurd hL hne)).weaken hl
  | .cons e rest, f, lo, k, _, s, _, w, hL, h, .cons hc hcs, ha, hh, hs, hq, hb, hf => by
    rw [evalEffects_cons_bind] at h
    obtain ⟨hs, hrest⟩ := Bool.and_eq_true_iff.mp hs
    simp only [len_dropped] at hq hf
    refine Runs.evalThen h (hL ▸ hc) ha.seq.1 hh hs (by omega) hb fun v w₁ l cc wM hv hk hr hh₁ => ?_
    refine Runs.step (leads_pop (ha.seq.2.seq.1.ins (by simp))) (Nat.le_succ _) (by omega) ?_
    refine Runs.evalEffectsThen hL hr hcs ha.seq.2.seq.2 (hh₁.step 1 fun hne => absurd hL hne)
      (steady_then hrest hv) hq hb fun w₂ l₂ cc₂ wM₂ hk₂ hr₂ hh₂ => ?_
    have hk₁ := hk.weaken (Nat.le_succ _) le_rfl
    exact hf w₂ l₂ cc₂ wM₂ (hk₁.trans (t := ⟨_, s.stack, l, cc, wM⟩) hk₂
      (Nat.le_add_right s.p (_ + 1)) (Nat.le_add_right ..) hc.le) hr₂ hh₂

end ProtoClojure.Simulation
