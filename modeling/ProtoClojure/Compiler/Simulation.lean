import ProtoClojure.Compiler.Placement
import ProtoClojure.Compiler.Tails
import ProtoClojure.Runtime.FrameRuns

/-! The code of an expression against its meaning: what a stretch of a frame's run does where
the expression ends in a value, raises or goes back to its loop. -/
namespace ProtoClojure.Simulation
open Recursion
open Meaning (Locals Closure Abrupt Query Eval meaning)
open Vm (Host Thrown Service Frame TryHandler InWorld)

/-! ### Related worlds -/

/-- What captures hold: the values of the names that stand for their slots. -/
def Captured (T : Tables) (β : Names) (ρ : Locals) (specs : List CaptureSpec) (vals : List Value) : Prop :=
  vals.length = specs.length ∧
    ∀ p ∈ specs.zip vals, ∀ x, T.slotOf β x = some p.1.parentSlot → ρ.lookup x = some p.2

/-- A function object is made of the modules of its closure's arities, with what they capture. -/
def FnRel (c : Closure) (f : FnObject) : Prop :=
  ∃ env T β bodies, CompilesArities env T β c.arities (bodies.map Prod.fst) ∧
    (∀ x, T.sees β x = (c.scope.lookup x).isSome) ∧ c.arities.steady = true ∧
    (∀ b ∈ bodies, Captured T β c.scope b.1.captureSpecs b.2) ∧
    if c.multi then f = .multi bodies else ∃ m captures, bodies = [(m, captures)] ∧ f = .single m captures

structure WorldRel {σ : Type} (w : Vm.World σ Closure) (w' : Vm.World σ FnObject) : Prop where
  heap : w'.heap = w.heap
  fns : List.Forall₂ FnRel w.fns w'.fns

/-! ### Stretches -/

/-- What stays the same along an expression: the module and its tables, where its loop starts,
and the handlers around. -/
structure Ctx where
  m : BytecodeModule
  T : Tables
  L : Option (List Nat)
  head : Nat
  floor : List Value
  handlers : List TryHandler

structure St (σ : Type) where
  p : Nat
  stack : List Value
  slots : Nat → Option Value
  caught : Nat → Option Thrown
  world : Vm.World σ FnObject

section
variable {σ α β : Type} (H : Host σ) (X : Ctx)

def Ctx.frame (s : St σ) : Frame := ⟨s.p, s.stack, s.slots, X.handlers, s.caught, none⟩

def Ctx.Leads (s s' : St σ) : Prop := Vm.Leads H X.m (X.frame s) s.world (X.frame s') s'.world

/-- What is caught in the slots of handlers around is left alone. -/
def CaughtKept (lo : Nat) (c c' : Nat → Option Thrown) : Prop := ∀ s < lo, c' s = c s

/-- What a stretch of code leaves as it was. -/
structure KeptIn (T : Tables) (code : List Instr) (lo q : Nat) (s : St σ) (l : Nat → Option Value)
    (c : Nat → Option Thrown) : Prop where
  slots : Kept T code s.p q lo s.slots l
  caught : CaughtKept lo s.caught c

abbrev Keeps : Nat → Nat → St σ → (Nat → Option Value) → (Nat → Option Thrown) → Prop :=
  KeptIn X.T X.m.code

/-- The loop's slots hold the arguments of `recur`, and a jump leads back to its start: the
slots of other bindings around are left alone up to there. -/
structure Rebound (lo q : Nat) (s : St σ) (args : List Value) (slots : List Nat)
    (l : Nat → Option Value) (c : Nat → Option Thrown) : Prop where
  length : args.length = slots.length
  rebound : ∀ p ∈ slots.zip args, l p.1 = some p.2
  kept : ∃ j, X.m.code[j]? = some ⟨.jumpBack, j + 1 - X.head⟩ ∧ X.head ≤ j ∧ s.p ≤ j ∧ j < q ∧
    ∀ x, (x < lo ∨ X.T.Captures x) → x ∉ slots →
      l x = s.slots x ∨ ∃ r, s.p ≤ r ∧ r < j ∧ Clears X.m.code r x
  caught : CaughtKept lo s.caught c

/-- From `s` the code up to `q` does what ends in `r`: for a value it leaves `fin` of it as the
stack, for a raise what lies on `base`. -/
def Runs (lo : Nat) (base : List Value) (s : St σ) (q : Nat) (fin : α → List Value)
    (r : Except Abrupt α) (w : Vm.World σ Closure) : Prop :=
  match r with
  | .ok a => ∃ l c w', X.Leads H s ⟨q, fin a, l, c, w'⟩ ∧ Keeps X lo q s l c ∧ WorldRel w w'
  | .error (.raise t) => ∃ f w', Vm.Throws H X.m (X.frame s) s.world t f w' ∧
      f.handlers = X.handlers ∧ base <:+ f.stack ∧ Keeps X lo q s f.slots f.caught ∧
      WorldRel w w'
  | .error (.recur args) => ∃ slots l c w', X.L = some slots ∧
      X.Leads H s ⟨X.head, X.floor, l, c, w'⟩ ∧ Rebound X lo q s args slots l c ∧ WorldRel w w'

variable {H X} {lo lo' q q' : Nat} {base : List Value} {s t : St σ} {fin : α → List Value}
  {fin' : β → List Value} {r : Except Abrupt α} {w w₁ w' : Vm.World σ Closure}

theorem Ctx.Leads.trans {s₁ s₂ : St σ} (h : X.Leads H s s₁) (h' : X.Leads H s₁ s₂) :
    X.Leads H s s₂ := Vm.Leads.trans h h'

theorem Keeps.refl : Keeps X lo q s s.slots s.caught := ⟨.refl _, fun _ _ => rfl⟩

theorem Keeps.trans {l : Nat → Option Value} {c : Nat → Option Thrown}
    (h : Keeps X lo t.p s t.slots t.caught) (h' : Keeps X lo' q t l c) (hp : s.p ≤ t.p)
    (hq : t.p ≤ q) (hl : lo ≤ lo') : Keeps X lo q s l c :=
  ⟨h.slots.trans h'.slots hp hq hl, fun x hx => (h'.caught x (by omega)).trans (h.caught x hx)⟩

theorem Keeps.weaken {l : Nat → Option Value} {c : Nat → Option Thrown}
    (h : Keeps X lo q s l c) (hq : q ≤ q') (hl : lo' ≤ lo) : Keeps X lo' q' s l c :=
  ⟨h.slots.weaken le_rfl hq hl, fun x hx => h.caught x (by omega)⟩

/-- A stretch in front of another. -/
theorem Runs.after (hl : X.Leads H s t) (hk : Keeps X lo t.p s t.slots t.caught)
    (hp : s.p ≤ t.p) (hq : t.p ≤ q) (hlo : lo ≤ lo')
    (h : Runs H X lo' base t q fin r w) : Runs H X lo base s q fin r w := by
  rcases r with (e | args) | a
  · obtain ⟨f, w', ht, hh, hs, hk', hw⟩ := h
    exact ⟨f, w', Vm.Leads.throws hl ht, hh, hs, hk.trans hk' hp hq hlo, hw⟩
  · obtain ⟨slots, l, c, w', hL, hl', ⟨hlen, hreb, ⟨j, hj, hhj, hpj, hjq, hkept⟩, hc⟩, hw⟩ := h
    refine ⟨slots, l, c, w', hL, hl.trans hl', ⟨hlen, hreb,
      ⟨j, hj, hhj, hp.trans hpj, hjq, fun x hx hn => ?_⟩,
      fun x hx => (hc x (by omega)).trans (hk.caught x hx)⟩, hw⟩
    rcases hkept x (hx.imp_left hlo.trans_lt') hn with h₂ | ⟨i, hi, hij, hcl⟩
    · rcases hk.slots x hx with h₁ | ⟨i, hi, hi', hcl⟩
      · exact .inl (h₂.trans h₁)
      · exact .inr ⟨i, hi, hi'.trans_le hpj, hcl⟩
    · exact .inr ⟨i, hp.trans hi, hij, hcl⟩
  · obtain ⟨l, c, w', hl', hk', hw⟩ := h
    exact ⟨l, c, w', hl.trans hl', hk.trans hk' hp hq hlo, hw⟩

/-- What ends early ends the rest. -/
theorem Runs.error {a : Abrupt} (h : Runs H X lo base s q fin (.error a) w) (hq : q ≤ q') :
    Runs H X lo base s q' fin' (.error a) w := by
  rcases a with t | args
  · obtain ⟨f, w', ht, hh, hs, hk, hw⟩ := h
    exact ⟨f, w', ht, hh, hs, hk.weaken hq le_rfl, hw⟩
  · obtain ⟨slots, l, c, w', hL, hl, ⟨hlen, hreb, ⟨j, hj, hhj, hpj, hjq, hkept⟩, hc⟩, hw⟩ := h
    exact ⟨slots, l, c, w', hL, hl, ⟨hlen, hreb, ⟨j, hj, hhj, hpj, hjq.trans_le hq, hkept⟩, hc⟩, hw⟩

/-- Fewer slots are those of bindings around. -/
theorem Runs.weaken (h : Runs H X lo base s q fin r w) (hlo : lo' ≤ lo) :
    Runs H X lo' base s q fin r w := by
  rcases r with (t | args) | a
  · obtain ⟨f, w', ht, hh, hs, hk, hw⟩ := h
    exact ⟨f, w', ht, hh, hs, hk.weaken le_rfl hlo, hw⟩
  · obtain ⟨slots, l, c, w', hL, hl, ⟨hlen, hreb, ⟨j, hj, hhj, hpj, hjq, hkept⟩, hc⟩, hw⟩ := h
    refine ⟨slots, l, c, w', hL, hl, ⟨hlen, hreb, ⟨j, hj, hhj, hpj, hjq, fun x hx => ?_⟩,
      fun x hx => hc x (by omega)⟩, hw⟩
    exact hkept x (hx.imp_left hlo.trans_lt')
  · obtain ⟨l, c, w', hl, hk, hw⟩ := h
    exact ⟨l, c, w', hl, hk.weaken le_rfl hlo, hw⟩

theorem Runs.bind {R : (q : Query σ) → q.Answer → Prop} {x : Eval σ Abrupt α} {f : α → Eval σ Abrupt β}
    {r : Except Abrupt β} {under : Nat} (h : ((x >>= f) w).Returns R (r, w')) (hp : s.p ≤ q) (hq : q ≤ q')
    (hlo : under ≤ lo) (hlo' : under ≤ lo')
    (hx : ∀ r₁ w₁, (x w).Returns R (r₁, w₁) → Runs H X lo base s q fin r₁ w₁)
    (hf : ∀ a w₁ l c wM, (x w).Returns R (.ok a, w₁) → (f a w₁).Returns R (r, w') →
      Keeps X lo q s l c → WorldRel w₁ wM →
      Runs H X lo' base ⟨q, fin a, l, c, wM⟩ q' fin' r w') :
    Runs H X under base s q' fin' r w' := by
  rcases Effect.returns_bind.mp h with ⟨a, w₁, ha, hr⟩ | ⟨t, ht, rfl⟩
  · obtain ⟨l, c, wM, hl, hk, hw⟩ := hx _ _ ha
    exact (hf a w₁ l c wM ha hr hk hw).after hl (hk.weaken le_rfl hlo) hp hq hlo'
  · exact ((hx _ _ ht).error hq).weaken hlo

/-- A raise that keeps more of the stack keeps less of it. -/
theorem Runs.lower {base' : List Value} (h : Runs H X lo base' s q fin r w) (hb : base <:+ base') :
    Runs H X lo base s q fin r w := by
  rcases r with (t | args) | a
  · obtain ⟨f, w', ht, hh, hs, hk, hw⟩ := h
    exact ⟨f, w', ht, hh, hb.trans hs, hk, hw⟩
  · exact h
  · exact h

theorem Runs.pure {R : (q : Query σ) → q.Answer → Prop} {a : α}
    (h : ((Pure.pure a : Eval σ Abrupt α) w).Returns R (r, w')) (hw : WorldRel w s.world) (hq : s.p = q)
    (hs : s.stack = fin a) : Runs H X lo base s q fin r w' := by
  obtain ⟨rfl, rfl⟩ := Effect.returns_pure.mp h
  subst hq
  refine ⟨s.slots, s.caught, s.world, ?_, .refl, hw⟩
  rw [← hs]
  exact Vm.Leads.refl (X.frame s) s.world

/-- An instruction that changes nothing but the stack and where the frame is. -/
theorem Ctx.leads {op : Op} {n : Nat} (hc : X.m.code[s.p]? = some ⟨op, n⟩) (hr : op ≠ .ret)
    (hp : Vm.perform H X.m op n ⟨(X.frame s).next, s.world⟩ =
      .done (.ok (), ⟨X.frame t, t.world⟩)) : X.Leads H s t := Vm.leads_pure hc hr hp

/-! ### Asking the runtime -/

variable (H) in
/-- `x` does in the frames' world what `y` does in the closures'. -/
def Serves (R : (q : Query σ) → q.Answer → Prop) (y : Eval σ Thrown α) (x : InWorld σ α) : Prop :=
  ∀ ⦃w wM r w'⦄, WorldRel w wM → (y w).Returns R (r, w') →
    ∃ wM', WorldRel w' wM' ∧ (x wM).Returns (Vm.vm H).Answers (r, wM')

/-- The instruction at `s` asks the runtime `x`. -/
structure Asks (H : Host σ) (X : Ctx) (base : List Value) (s : St σ) (x : InWorld σ α) (q : Nat)
    (fin : α → List Value) : Prop where
  answered : ∀ a w', (x s.world).Returns (Vm.vm H).Answers (.ok a, w') →
    X.Leads H s ⟨q, fin a, s.slots, s.caught, w'⟩
  raised : ∀ t w', (x s.world).Returns (Vm.vm H).Answers (.error t, w') →
    ∃ p top, Vm.Throws H X.m (X.frame s) s.world t
      (X.frame ⟨p, top ++ base, s.slots, s.caught, w'⟩) w'

theorem Asks.intro {x : InWorld σ α} {op : Op} {n p : Nat} {u : List Value} {g : α → Frame → Frame}
    (hc : X.m.code[s.p]? = some ⟨op, n⟩) (hr : op ≠ .ret)
    (hp : Vm.perform H X.m op n ⟨(X.frame s).next, s.world⟩ =
      (Vm.onWorld x >>= fun a => Vm.modifyFrame (g a))
        ⟨X.frame ⟨p, u ++ base, s.slots, s.caught, s.world⟩, s.world⟩)
    (hg : ∀ a, g a (X.frame ⟨p, u ++ base, s.slots, s.caught, s.world⟩) =
      X.frame ⟨q, fin a, s.slots, s.caught, s.world⟩) : Asks H X base s x q fin := by
  constructor
  · intro a w' ha
    have hl := Vm.leads_asking hc hr hp ha
    rw [hg] at hl
    exact hl
  · intro t w' ht
    exact ⟨p, u, Vm.throws_asking hc hr hp ht⟩

theorem Runs.asking {R : (q : Query σ) → q.Answer → Prop} {y : Eval σ Thrown α} {x : InWorld σ α}
    (h : (Meaning.raising y w).Returns R (r, w')) (hy : Serves H R y x)
    (hw : WorldRel w s.world) (hx : Asks H X base s x q fin) :
    Runs H X lo base s q fin r w' := by
  rcases Effect.returns_settle.mp h with ⟨a, ha, rfl⟩ | ⟨t, t', ht, ht', rfl⟩
  · obtain ⟨wM', hw', ha⟩ := hy hw ha
    exact ⟨s.slots, s.caught, wM', hx.answered a wM' ha, .refl, hw'⟩
  · cases ht'
    obtain ⟨wM', hw', ht⟩ := hy hw ht
    obtain ⟨p, top, hthrow⟩ := hx.raised t wM' ht
    exact ⟨_, wM', hthrow, rfl, List.suffix_append .., .refl, hw'⟩

end

end ProtoClojure.Simulation
