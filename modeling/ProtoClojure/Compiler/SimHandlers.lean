import ProtoClojure.Compiler.SimLoops

/-! `try`: what a handler is entered with, its clauses, and the forms run on the way out. -/
namespace ProtoClojure.Simulation
open Recursion
open Meaning (Locals Closure Abrupt Query Eval meaning)
open Vm (Host Thrown TryHandler truthy)

variable {σ α : Type} {H : Host σ} {env : Env} {X : Ctx} {β : Names} {ρ : Locals}
  {lo mid hi k q ex : Nat} {s : St σ} {pending : Bool} {w w₁ w' : Vm.World σ Closure} {base : List Value}
  {r : Except Abrupt Value} {v : Value}

/-! ### Protected code -/

theorem Here.closed (h : Here X β ρ lo s k pending w) (hs : List TryHandler) (j : Nat) (pending' : Bool) :
    Here { X with L := none, handlers := hs } β ρ lo s j pending' w :=
  ⟨⟨h.laid.consts, h.laid.blocks, h.laid.groups, h.laid.handlers, h.laid.safe⟩, h.agrees, h.world,
    (fun _ hL => by cases hL), fun hL => absurd rfl hL, fun hL => absurd rfl hL⟩

/-- The body of a `try` ends in a value and its handler is taken away, or it raises and the
handler has stored what. -/
theorem Runs.protect {n e slot target : Nat} {r : Except Abrupt Value}
    (h : Runs H (X.guarded target s.stack) lo s.stack ⟨s.p + 1, s.stack, s.slots, s.caught, s.world⟩ e
      (fun v => v :: s.stack) r w)
    (hbegin : X.m.code[s.p]? = some ⟨.tryBegin, n⟩) (ht : s.p + 1 + n = target)
    (hend : X.m.code[e]? = some ⟨.tryEnd, 0⟩) (hm : X.m.hasHandlers = true)
    (hcatch : X.m.code[target]? = some ⟨.storeCaught, slot⟩) :
    (∃ v l c z, r = .ok v ∧ X.Leads H s ⟨e + 1, v :: s.stack, l, c, z⟩ ∧ Keeps X lo e s l c ∧
      WorldRel w z) ∨
    ∃ t l c z, r = .error (.raise t) ∧
      X.Leads H s ⟨target + 1, s.stack, Function.update l slot (some (Vm.caughtValue H t w.heap).1),
        Function.update c slot (Vm.kept t), z⟩ ∧ Keeps X lo e s l c ∧
      WorldRel { w with heap := (Vm.caughtValue H t w.heap).2 } z := by
  have hin := leads_tryBegin (H := H) (X := X) (S := s.stack) (l := s.slots) (c := s.caught) (w := s.world)
    hbegin hm
  rw [ht] at hin
  have hkeep : ∀ {l c}, Keeps X lo e ⟨s.p + 1, s.stack, s.slots, s.caught, s.world⟩ l c →
      Keeps X lo e s l c := fun hk => ⟨hk.slots.weaken (Nat.le_succ _) le_rfl le_rfl, hk.caught⟩
  rcases r with (t | args) | v
  · obtain ⟨f, z, hthrow, hh, hs, hk, hw⟩ := h
    have hlead := leads_caught (Vm.Leads.throws hin hthrow) hm hh hs hcatch
    rw [hw.heap] at hlead
    exact .inr ⟨t, f.slots, f.caught, { z with heap := (Vm.caughtValue H t w.heap).2 }, rfl, hlead, hkeep hk,
      ⟨rfl, hw.fns⟩⟩
  · obtain ⟨_, _, _, _, hL, -⟩ := h
    cases hL
  · obtain ⟨l, c, z, hlead, hk, hw⟩ := h
    exact .inl ⟨v, l, c, z, rfl, (hin.trans hlead).trans (leads_tryEnd hend), hkeep hk, hw⟩

theorem returns_catching {R : (q : Query σ) → q.Answer → Prop} {x : Eval σ Abrupt Value}
    {f : Thrown → Value → Eval σ Abrupt Value} (h : (Meaning.catching H x f w).Returns R (r, w')) :
    ∃ r₁ w₁, (x w).Returns R (r₁, w₁) ∧
      ((∀ v, r₁ = .ok v → r = .ok v ∧ w' = w₁) ∧
        ∀ t, r₁ = .error (.raise t) → (f t (Vm.caughtValue H t w₁.heap).1
          { w₁ with heap := (Vm.caughtValue H t w₁.heap).2 }).Returns R (r, w')) := by
  obtain ⟨⟨r₁, w₁⟩, hx, h⟩ := Comp.returns_bind.mp h
  refine ⟨r₁, w₁, hx, fun v hv => ?_, fun t ht => ?_⟩
  · subst hv
    cases h
    exact ⟨rfl, rfl⟩
  · subst ht
    exact h

/-! ### Clauses -/

section Clauses
variable (hex : ∀ r, ¬ Clears X.m.code r ex) (hv : s.slots ex = some v)
include hex hv

theorem leads_exception {ws : List Instr} {S : List Value} {c : Nat → Option Thrown}
    {z : Vm.World σ FnObject} (hp : Placed X.m.code s.p (⟨.pushLocal, ex⟩ :: ws)) :
    X.Leads H ⟨s.p, S, s.slots, c, z⟩ ⟨s.p + 1, v :: S, s.slots, c, z⟩ := by
  rcases hp.read with hc | hc
  · exact leads_pushLocal hc hv
  · exact absurd hc (hex _)

theorem sim_test {test : CatchTest} {c : Code} {r : Except Abrupt Bool} (ht : CompilesTest X.T β ex test c)
    (ha : Code.At X.m.code s.p k c) (hh : Here X β ρ lo s k pending w)
    (h : (Meaning.takes H ρ v test w).Returns (Simulated H) (r, w')) :
    Runs H X lo s.stack s (s.p + c.len) (fun b => .bool b :: s.stack) r w' := by
  have hh₁ : Here X β ρ lo ⟨s.p + 1, v :: s.stack, s.slots, s.caught, s.world⟩ (k + 1) true w :=
    hh.step 1 fun _ hp => by cases hp
  have hsuf : s.stack <:+ v :: s.stack := List.suffix_cons ..
  cases ht with
  | builtin id =>
    have hp := ha.block
    refine .step (leads_exception hex hv hp) (Nat.le_succ _) (by simp [Code.block, Code.len]) ?_
    exact .asking h (serves_service _) hh.world (asks_excMatch (hp.tail.instr (by simp)))
  | bound hs hi =>
    have hp := ha.block
    refine .step (leads_exception hex hv hp) (Nat.le_succ _) (by simp [Code.block, Code.len]) ?_
    refine .bind h (Nat.le_succ _) (by simp [Code.block, Code.len]) le_rfl le_rfl
      (fun _ _ hx => (sim_symLocal hh₁ hs hp.tail.head hx).lower hsuf) fun u w₁ l c z _ hr _ hw => ?_
    exact .asking hr (serves_service _) hw
      (asks_excMatchType (hp.tail.tail.instr (by simp)) (hh.consts hi))
  | boundMember hs hj hi =>
    have hp := ha.block
    refine .step (leads_exception hex hv hp) (Nat.le_succ _) (by simp [Code.block, Code.len]) ?_
    refine .bind h (Nat.le_succ _) (by simp [Code.block, Code.len]) le_rfl le_rfl
      (fun _ _ hx => (sim_symLocal hh₁ hs hp.tail.head hx).lower hsuf) fun o w₁ l c z _ hr _ hw => ?_
    refine .bind hr (Nat.le_succ _) (by simp [Code.block, Code.len]) le_rfl le_rfl
      (fun _ _ hx => (Runs.asking hx (serves_service _) hw
        (asks_getMember (hp.tail.tail.instr (by simp)) (hh.consts hj))).lower hsuf)
      fun u w₂ l c z _ hr _ hw => ?_
    exact .asking hr (serves_service _) hw
      (asks_excMatchType (hp.tail.tail.tail.instr (by simp)) (hh.consts hi))
  | resolved hj hi =>
    have hp := ha.block
    refine .step (leads_exception hex hv hp) (Nat.le_succ _) (by simp [Code.block, Code.len]) ?_
    refine .bind h (Nat.le_succ _) (by simp [Code.block, Code.len]) le_rfl le_rfl
      (fun _ _ hx => (Runs.asking hx (serves_service _) hh₁.world
        (asks_resolveClass (hp.tail.instr (by simp)) (hh.consts hj))).lower hsuf)
      fun u w₁ l c z _ hr _ hw => ?_
    exact .asking hr (serves_service _) hw
      (asks_excMatchType (hp.tail.tail.instr (by simp)) (hh.consts hi))

end Clauses

theorem again_eq (t : Thrown) (v : Value) :
    Meaning.again t v = (Vm.kept t).getD (.exception v) := by cases t <;> rfl

theorem sim_clauses {t : Thrown} (hL : X.L = none) (hex : ∀ r, ¬ Clears X.m.code r ex) :
    ∀ {cs : Clauses} {lo k : Nat} {c : Code} {s : St σ} {w : Vm.World σ Closure}, s.slots ex = some v →
    s.caught ex = Vm.kept t → ex < lo → CompilesClauses env X.T β ex lo hi cs c →
    Code.At X.m.code s.p k c → Here X β ρ lo s k pending w → cs.steady pending = true →
    (Meaning.evalClauses H ρ t v cs w).Returns (Simulated H) (r, w') →
    Runs H X lo s.stack s (s.p + c.len) (fun v => v :: s.stack) r w'
  | .nil, lo, k, _, s, w, hv, ht, _, .nil _, ha, hh, _, h => by
    obtain ⟨rfl, rfl⟩ := Effect.returns_throw.mp h
    have hthrow := throws_rethrow (H := H) (X := X) (S := s.stack) (c := s.caught) (w := s.world)
      (ha.ins (by simp)) hv
    rw [ht, ← again_eq] at hthrow
    exact ⟨_, s.world, hthrow, rfl, List.suffix_rfl, ⟨.refl _, fun _ _ => rfl⟩, hh.world⟩
  | .cons test x body rest, lo, k, _, s, w, hv, ht, hlt, .cons hl hct hb hcs, ha, hh, hs, h => by
    rename_i mid mid' ct cb cs
    obtain ⟨hsb, hsr⟩ := Bool.and_eq_true_iff.mp hs
    obtain ⟨hjf, hat, hj, hae⟩ := ha.seq.2.branch
    refine .bind h (Nat.le_add_right ..) (by rw [len_seq]; omega) le_rfl le_rfl
      (fun _ _ hx => sim_test hex hv hct ha.seq.1 hh hx) fun b w₁ l u z _ hr hk hw => ?_
    have hex₁ : l ex = some v := by
      rcases hk.slots ex (.inl hlt) with heq | ⟨i, -, -, hclear⟩
      · exact heq.trans hv
      · exact absurd hclear (hex i)
    have hh₁ : Here X β ρ lo ⟨s.p + ct.len, .bool b :: s.stack, l, u, z⟩ (k + ct.len) true w₁ :=
      hh.move hk hw rfl le_rfl fun hne => absurd hL hne
    cases b with
    | true =>
      refine .step (leads_jumpIfFalse hjf rfl) (Nat.le_succ _) (by simp only [Code.len]; omega) ?_
      have hh₂ : Here X β ρ lo ⟨s.p + ct.len + 1, s.stack, l, u, z⟩ (k + ct.len + 1) pending w₁ :=
        hh₁.step 1 fun hne => absurd hL hne
      have hh₃ : Here X ((x, ex) :: β) ((x, v) :: ρ) mid ⟨s.p + ct.len + 1, s.stack, l, u, z⟩
          (k + ct.len + 1) pending w₁ :=
        ⟨hh₂.laid, hh₂.agrees.extend hl (hlt.trans_le hl) fun _ => hex₁, hh₂.world, hh₂.nodup, hh₂.loop,
          hh₂.floor⟩
      have hrun := (eval_sim hr (by rwa [hL]) hat hh₃ hsb).weaken hl
      exact hrun.follow (by simp [Code.len]; omega) fun _ _ _ _ => leads_jump hj (by simp [Code.len]; omega)
    | false =>
      refine .step (jumps_jumpIfFalse (q := s.p + ct.len + (cb.len + 2)) hjf rfl (by omega))
        (Nat.le_add_right ..) (by simp [Code.len]; omega) ?_
      have hh₂ : Here X β ρ mid' ⟨s.p + ct.len + (cb.len + 2), s.stack, l, u, z⟩
          (k + ct.len + (cb.len + 2)) pending w₁ := by
        have h₂ := hh₁.step (S := s.stack) (cb.len + 2) fun (hne : X.L ≠ none) (_ : pending = false) =>
          absurd hL hne
        exact ⟨h₂.laid, h₂.agrees.mono (hl.trans hb.le), h₂.world, h₂.nodup, h₂.loop, h₂.floor⟩
      have hrun := (sim_clauses hL hex hex₁ ((hk.caught ex hlt).trans ht) (hlt.trans_le (hl.trans hb.le)) hcs
        hae hh₂ hsr hr).weaken (hl.trans hb.le)
      exact hrun.cast (by simp [Code.len]; omega)

/-! ### The forms -/

/-- What is caught is kept in a slot of its own. -/
theorem Keeps.store {e slot : Nat} {l : Nat → Option Value} {u : Nat → Option Thrown}
    (h : Keeps X lo e s l u) (hp : s.p ≤ e) (he : e ≤ q) (hl : lo ≤ slot) (hc : ¬ X.T.Captures slot)
    (v : Option Value) (t : Option Thrown) :
    Keeps X lo q s (Function.update l slot v) (Function.update u slot t) := by
  refine ⟨h.slots.trans (.set l v hl hc) hp he le_rfl, fun x hx => ?_⟩
  rw [Function.update_of_ne (by omega)]
  exact h.caught x hx

/-- The forms of a `finally` after a value, and the jump over the handler. -/
theorem sim_leaving {fin : Exps} {cf : Code} {p n : Nat} {S : List Value} {l : Nat → Option Value}
    {u : Nat → Option Thrown} {z : Vm.World σ FnObject}
    (hh : Here X β ρ lo ⟨p, v :: S, l, u, z⟩ k pending w)
    (hc : CompilesEffects env X.T β lo hi fin cf) (ha : Code.At X.m.code p k cf)
    (hj : X.m.code[p + cf.len]? = some ⟨.jump, n⟩) (hs : fin.effectsSteady pending = true)
    (h : ((Meaning.evalEffects ρ fin >>= fun _ => pure v) w).Returns (Simulated H) (r, w')) :
    Runs H X lo S ⟨p, v :: S, l, u, z⟩ (p + cf.len + 1 + n) (fun v => v :: S) r w' := by
  have hrun : Runs H { X with L := none } lo S ⟨p, v :: S, l, u, z⟩ (p + cf.len + 1 + n)
      (fun v => v :: S) r w' := by
    refine .evalEffectsThen rfl h hc ha (hh.closed X.handlers k pending) hs (by simp; omega)
      (List.suffix_cons ..) fun w₁ l₁ u₁ z₁ _ hr hh₁ => ?_
    exact .value hr hh₁.world (leads_jump hj rfl) (by simp; omega)
  exact hrun.sealed

/-- The forms of a `finally` after a raise, and the raise again. -/
theorem sim_reraising {fin : Exps} {cf : Code} {fx : Nat} {t : Thrown}
    (hh : Here X β ρ (fx + 1) s k pending w) (hc : CompilesEffects env X.T β (fx + 1) hi fin cf)
    (ha : Code.At X.m.code s.p k (.seq cf (.ins ⟨.rethrow, fx⟩)))
    (hex : ∀ r, ¬ Clears X.m.code r fx) (hv : s.slots fx = some v) (ht : s.caught fx = Vm.kept t)
    (hs : fin.effectsSteady pending = true)
    (h : ((Meaning.evalEffects ρ fin >>= fun _ => throw (.raise (Meaning.again t v)) :
      Eval σ Abrupt Value) w).Returns (Simulated H) (r, w')) :
    Runs H X (fx + 1) s.stack s (s.p + (cf.len + 1)) (fun v => v :: s.stack) r w' := by
  have hrun : Runs H { X with L := none } (fx + 1) s.stack s (s.p + (cf.len + 1))
      (fun v => v :: s.stack) r w' := by
    refine .evalEffectsThen rfl h hc ha.seq.1 (hh.closed X.handlers k pending) hs (by omega)
      List.suffix_rfl fun w₁ l u z hk hr hh₁ => ?_
    obtain ⟨rfl, rfl⟩ := Effect.returns_throw.mp hr
    have hl : l fx = some v := by
      rcases hk.slots fx (.inl (Nat.lt_succ_self fx)) with heq | ⟨i, -, -, hclear⟩
      · exact heq.trans hv
      · exact absurd hclear (hex i)
    have hthrow := throws_rethrow (H := H) (X := { X with L := none }) (S := s.stack) (c := u) (w := z)
      (ha.seq.2.ins (by simp)) hl
    rw [hk.caught fx (Nat.lt_succ_self fx), ht, ← again_eq] at hthrow
    exact ⟨_, z, hthrow, rfl, List.suffix_rfl, ⟨.refl _, fun _ _ => rfl⟩, hh₁.world⟩
  exact hrun.sealed

section Forms
variable (hh : Here X β ρ lo s k pending w)
include hh

theorem sim_tryPlain {e : Exp} {c : Code} (hc : Compiles env X.T β none lo hi e c)
    (ha : Code.At X.m.code s.p k c) (hs : e.steady pending = true)
    (h : (Meaning.evalExp H ρ (.tryPlain e) w).Returns (Simulated H) (r, w')) :
    Runs H X lo s.stack s (s.p + c.len) (fun v => v :: s.stack) r w' := by
  have hrun : Runs H { X with L := none } lo s.stack s (s.p + c.len) (fun v => v :: s.stack) r w' :=
    eval_sim h hc ha (hh.closed X.handlers k pending) hs
  exact hrun.sealed

/-- The body of a `try`, inside its handler. -/
theorem Here.within (target : Nat) :
    Here (X.guarded target s.stack) β ρ lo ⟨s.p + 1, s.stack, s.slots, s.caught, s.world⟩ (k + 1)
      pending w :=
  (hh.closed _ k pending).move .refl hh.world rfl le_rfl fun hne => absurd rfl hne

theorem sim_tryCatch {e : Exp} {clauses : Clauses} {cb cc : Code}
    (h₁ : Compiles env X.T β none lo ex e cb) (hx : ¬ X.T.Captures ex)
    (h₂ : CompilesClauses env X.T β ex (ex + 1) hi clauses cc)
    (ha : Code.At X.m.code s.p k (.protect cb .nil (.seq (.ins ⟨.storeCaught, ex⟩) cc)))
    (hs : (Exp.tryCatch e clauses).steady pending = true)
    (h : (Meaning.evalExp H ρ (.tryCatch e clauses) w).Returns (Simulated H) (r, w')) :
    Runs H X lo s.stack s (s.p + (cb.len + 0 + (1 + cc.len) + 3)) (fun v => v :: s.stack) r w' := by
  obtain ⟨hse, hsc⟩ := Bool.and_eq_true_iff.mp hs
  obtain ⟨hbegin, hbody, hend, -, hjump, hcatch⟩ := ha.protect
  have hjump : X.m.code[s.p + 1 + cb.len + 1]? = some ⟨.jump, 1 + cc.len⟩ := by
    rwa [show s.p + cb.len + 2 + Code.nil.len = s.p + 1 + cb.len + 1 by simp [Code.len]; omega] at hjump
  have hstore := hcatch.seq.1.ins (by simp)
  have h : (Meaning.catching H (Meaning.eval ρ e) (fun t v => Meaning.evalClauses H ρ t v clauses) w).Returns
      (Simulated H) (r, w') := h
  obtain ⟨r₁, w₁, hx₁, hok, hraise⟩ := returns_catching h
  have hrun := eval_sim hx₁ h₁ hbody (hh.within (s.p + cb.len + 3)) hse
  have hlo := h₁.le
  rcases Runs.protect (e := s.p + 1 + cb.len) hrun hbegin (by simp [Code.len]; omega) hend
    (hh.laid.handlers _ _ hbegin) hstore with
    ⟨v, l, u, z, rfl, hlead, hk, hw⟩ | ⟨t, l, u, z, rfl, hlead, hk, hw⟩
  · obtain ⟨rfl, rfl⟩ := hok v rfl
    exact ⟨l, u, z, hlead.trans (leads_jump hjump (by omega)), hk.weaken (by omega) le_rfl, hw⟩
  · have hkeep := hk.store (q := s.p + cb.len + 3 + 1) (by omega) (by omega) hlo hx
      (some (Vm.caughtValue H t w₁.heap).1) (Vm.kept t)
    have hin : Here { X with L := none } β ρ (ex + 1)
        ⟨s.p + cb.len + 3 + 1, s.stack, Function.update l ex (some (Vm.caughtValue H t w₁.heap).1),
          Function.update u ex (Vm.kept t), z⟩
        (k + (cb.len + 3 + 1)) pending { w₁ with heap := (Vm.caughtValue H t w₁.heap).2 } :=
      (hh.closed X.handlers k pending).move hkeep hw rfl (by omega) fun hne => absurd rfl hne
    have hclauses := sim_clauses (X := { X with L := none }) rfl (fun r hr => hh.laid.safe.caught r ex _ hr hstore)
      (Function.update_self ..) (Function.update_self ..) (Nat.lt_succ_self ex) h₂
      (show Code.At X.m.code (s.p + cb.len + 3 + 1) (k + (cb.len + 3 + 1)) cc from hcatch.seq.2) hin hsc
      (hraise t rfl)
    exact ((Runs.after hlead hkeep (by simp; omega) (Nat.le_add_right ..) (by omega)
      hclauses.sealed)).cast (by simp; omega)

theorem sim_tryFinally {e : Exp} {fin fin' : Exps} {fx : Nat} {cb cf cf' : Code}
    (h₁ : Compiles env X.T β none lo mid e cb) (h₂ : CompilesEffects env X.T β mid fx fin cf)
    (hx : ¬ X.T.Captures fx) (h₃ : CompilesEffects env X.T β (fx + 1) hi fin' cf')
    (ha : Code.At X.m.code s.p k
      (.protect cb cf (.seq (.ins ⟨.storeCaught, fx⟩) (.seq cf' (.ins ⟨.rethrow, fx⟩)))))
    (hs : (Exp.tryFinally e fin fin').steady pending = true)
    (h : (Meaning.evalExp H ρ (.tryFinally e fin fin') w).Returns (Simulated H) (r, w')) :
    Runs H X lo s.stack s (s.p + (cb.len + cf.len + (1 + (cf'.len + 1)) + 3))
      (fun v => v :: s.stack) r w' := by
  obtain ⟨hs, hsf'⟩ := Bool.and_eq_true_iff.mp hs
  obtain ⟨hse, hsf⟩ := Bool.and_eq_true_iff.mp hs
  obtain ⟨hbegin, hbody, hend, hafter, hjump, hcatch⟩ := ha.protect
  rw [show s.p + cb.len + 2 = s.p + 1 + cb.len + 1 by omega,
    show k + cb.len + 2 = k + (cb.len + 2) by omega] at hafter
  rw [show s.p + cb.len + 2 = s.p + 1 + cb.len + 1 by omega] at hjump
  have hstore := hcatch.seq.1.ins (by simp)
  have hlo := h₁.le
  have hlo' := h₂.le
  obtain ⟨rc, wc, hcatching, hrest⟩ : ∃ rc wc,
      (Meaning.catching H (Meaning.eval ρ e) (fun t v => Meaning.evalEffects ρ fin' >>= fun _ =>
        throw (.raise (Meaning.again t v))) w).Returns (Simulated H) (rc, wc) ∧
        ((∃ v, rc = .ok v ∧
          ((Meaning.evalEffects ρ fin >>= fun _ => pure v) wc).Returns (Simulated H) (r, w')) ∨
          ∃ a, rc = .error a ∧ r = .error a ∧ wc = w') := by
    rcases Effect.returns_bind.mp h with ⟨v, w₁, hv, hr⟩ | ⟨t, ht, rfl⟩
    · exact ⟨_, _, hv, .inl ⟨v, rfl, hr⟩⟩
    · exact ⟨_, _, ht, .inr ⟨t, rfl, rfl, rfl⟩⟩
  obtain ⟨r₁, w₁, hx₁, hok, hraise⟩ := returns_catching hcatching
  have hrun := eval_sim hx₁ h₁ hbody (hh.within (s.p + cb.len + cf.len + 3)) hse
  rcases Runs.protect (e := s.p + 1 + cb.len) hrun hbegin (by omega) hend
    (hh.laid.handlers _ _ hbegin) hstore with
    ⟨v, l, u, z, rfl, hlead, hk, hw⟩ | ⟨t, l, u, z, rfl, hlead, hk, hw⟩
  · obtain ⟨rfl, rfl⟩ := hok v rfl
    rcases hrest with ⟨_, hv, hr⟩ | ⟨_, hv, -⟩
    · cases hv
      have hkeep := hk.weaken (Nat.le_succ _) (le_refl lo)
      have hin : Here X β ρ mid ⟨s.p + 1 + cb.len + 1, v :: s.stack, l, u, z⟩ (k + (cb.len + 2)) true _ :=
        hh.move hkeep hw (by simp; omega) hlo fun _ hp => by cases hp
      have hleave := sim_leaving hin h₂ hafter hjump (steady_then hsf (eval_returns hx₁)) hr
      exact (Runs.after hlead hkeep (by simp; omega) (by simp; omega) hlo hleave).cast
        (by simp only [Code.len]; omega)
    · cases hv
  · have hr := hraise t rfl
    rcases hrest with ⟨v, rfl, -⟩ | ⟨a, rfl, rfl, rfl⟩
    · obtain ⟨_, _, -, hr⟩ := Effect.returns_bind_ok.mp hr
      cases (Effect.returns_throw.mp hr).1
    · have hkeep := hk.store (q := s.p + cb.len + cf.len + 3 + 1) (by omega) (by omega) (hlo.trans hlo') hx
        (some (Vm.caughtValue H t w₁.heap).1) (Vm.kept t)
      have hin : Here X β ρ (fx + 1)
          ⟨s.p + cb.len + cf.len + 3 + 1, s.stack,
            Function.update l fx (some (Vm.caughtValue H t w₁.heap).1),
            Function.update u fx (Vm.kept t), z⟩
          (k + (cb.len + cf.len + 3 + 1)) pending { w₁ with heap := (Vm.caughtValue H t w₁.heap).2 } :=
        hh.move hkeep hw (by simp; omega) (by omega) hh.floor
      have hreraise := sim_reraising hin h₃
        (show Code.At X.m.code (s.p + cb.len + cf.len + 3 + 1) (k + (cb.len + cf.len + 3 + 1)) _ by
          have hat := hcatch.seq.2
          rwa [show k + cb.len + cf.len + 3 + (Code.ins ⟨.storeCaught, fx⟩).len =
            k + (cb.len + cf.len + 3 + 1) by simp [Code.len]; omega] at hat)
        (fun r hr => hh.laid.safe.caught r fx _ hr hstore) (Function.update_self ..)
        (Function.update_self ..) hsf' hr
      exact (Runs.after hlead hkeep (by simp; omega) (by simp) (by omega) hreraise).cast (by simp; omega)

end Forms

end ProtoClojure.Simulation
