import ProtoClojure.Compiler.Simulation

/-! The stretches of one instruction. -/
namespace ProtoClojure.Simulation
open Recursion
open Meaning (Locals Closure Abrupt Query Eval)
open Vm (Host Thrown Service Frame TryHandler InWorld truthy)

variable {σ : Type} {H : Host σ} {X : Ctx} {p n i slot : Nat} {S : List Value}
  {l : Nat → Option Value} {c : Nat → Option Thrown} {w : Vm.World σ FnObject} {v v' : Value}

/-! ### Instructions that ask nothing -/

theorem leads_line (hc : X.m.code[p]? = some ⟨.line, n⟩) :
    X.Leads H ⟨p, S, l, c, w⟩ ⟨p + 1, S, l, c, w⟩ := Ctx.leads hc (by decide) rfl

theorem leads_pushNil (hc : X.m.code[p]? = some ⟨.pushNil, n⟩) :
    X.Leads H ⟨p, S, l, c, w⟩ ⟨p + 1, .nil :: S, l, c, w⟩ := Ctx.leads hc (by decide) rfl

theorem leads_pushBool {b : Bool} (hc : X.m.code[p]? = some ⟨if b then .pushTrue else .pushFalse, n⟩) :
    X.Leads H ⟨p, S, l, c, w⟩ ⟨p + 1, .bool b :: S, l, c, w⟩ := by
  cases b <;> exact Ctx.leads hc (by decide) rfl

theorem leads_pop (hc : X.m.code[p]? = some ⟨.pop, n⟩) :
    X.Leads H ⟨p, v :: S, l, c, w⟩ ⟨p + 1, S, l, c, w⟩ := Ctx.leads hc (by decide) rfl

theorem leads_dup (hc : X.m.code[p]? = some ⟨.dup, n⟩) :
    X.Leads H ⟨p, v :: S, l, c, w⟩ ⟨p + 1, v :: v :: S, l, c, w⟩ := Ctx.leads hc (by decide) rfl

theorem leads_storeLocal (hc : X.m.code[p]? = some ⟨.storeLocal, slot⟩) :
    X.Leads H ⟨p, v :: S, l, c, w⟩ ⟨p + 1, S, Function.update l slot (some v), c, w⟩ :=
  Ctx.leads hc (by decide) rfl

theorem leads_pushLocal (hc : X.m.code[p]? = some ⟨.pushLocal, slot⟩) (hl : l slot = some v) :
    X.Leads H ⟨p, S, l, c, w⟩ ⟨p + 1, v :: S, l, c, w⟩ := by
  refine Ctx.leads hc (by decide) ?_
  show ((Vm.slotValue slot : Vm.Exec σ Value) _).bind _ = _
  rw [Vm.slotValue_eq hl]
  rfl

theorem leads_pushLocalClear (hc : X.m.code[p]? = some ⟨.pushLocalClear, slot⟩)
    (hl : l slot = some v) :
    X.Leads H ⟨p, S, l, c, w⟩ ⟨p + 1, v :: S, Function.update l slot none, c, w⟩ := by
  refine Ctx.leads hc (by decide) ?_
  show ((Vm.slotValue slot : Vm.Exec σ Value) _).bind _ = _
  rw [Vm.slotValue_eq hl]
  rfl

theorem leads_jump {q : Nat} (hc : X.m.code[p]? = some ⟨.jump, n⟩) (hq : p + 1 + n = q) :
    X.Leads H ⟨p, S, l, c, w⟩ ⟨q, S, l, c, w⟩ := by
  subst hq
  exact Ctx.leads hc (by decide) rfl

theorem leads_jumpIfFalse (hc : X.m.code[p]? = some ⟨.jumpIfFalse, n⟩) (hv : truthy v = true) :
    X.Leads H ⟨p, v :: S, l, c, w⟩ ⟨p + 1, S, l, c, w⟩ := by
  refine Ctx.leads hc (by decide) ?_
  show (if !truthy v then _ else _ : Vm.Exec σ Unit) _ = _
  rw [hv]
  rfl

theorem jumps_jumpIfFalse {q : Nat} (hc : X.m.code[p]? = some ⟨.jumpIfFalse, n⟩)
    (hv : truthy v = false) (hq : p + 1 + n = q) :
    X.Leads H ⟨p, v :: S, l, c, w⟩ ⟨q, S, l, c, w⟩ := by
  subst hq
  refine Ctx.leads hc (by decide) ?_
  show (if !truthy v then _ else _ : Vm.Exec σ Unit) _ = _
  rw [hv]
  rfl

theorem leads_jumpIfTrue (hc : X.m.code[p]? = some ⟨.jumpIfTrue, n⟩) (hv : truthy v = false) :
    X.Leads H ⟨p, v :: S, l, c, w⟩ ⟨p + 1, S, l, c, w⟩ := by
  refine Ctx.leads hc (by decide) ?_
  show (if truthy v then _ else _ : Vm.Exec σ Unit) _ = _
  rw [hv]
  rfl

theorem jumps_jumpIfTrue {q : Nat} (hc : X.m.code[p]? = some ⟨.jumpIfTrue, n⟩)
    (hv : truthy v = true) (hq : p + 1 + n = q) :
    X.Leads H ⟨p, v :: S, l, c, w⟩ ⟨q, S, l, c, w⟩ := by
  subst hq
  refine Ctx.leads hc (by decide) ?_
  show (if truthy v then _ else _ : Vm.Exec σ Unit) _ = _
  rw [hv]
  rfl

theorem leads_jumpBack (hc : X.m.code[p]? = some ⟨.jumpBack, n⟩) (hn : n ≤ p + 1) :
    X.Leads H ⟨p, S, l, c, w⟩ ⟨p + 1 - n, S, l, c, w⟩ := by
  refine Ctx.leads hc (by decide) ?_
  show (if p + 1 < n then _ else _ : Vm.Exec σ Unit) _ = _
  rw [if_neg (by omega)]
  rfl

/-! ### Functions -/

theorem leads_makeFn {m : BytecodeModule} {captures : List Value}
    (hc : X.m.code[p]? = some ⟨.makeFn, i⟩) (hb : X.m.blocks[i]? = some m)
    (hn : captures.length = m.captureCount) :
    X.Leads H ⟨p, captures.reverse ++ S, l, c, w⟩
      ⟨p + 1, .fn w.fns.length :: S, l, c, { w with fns := w.fns ++ [.single m captures] }⟩ := by
  refine Ctx.leads hc (by decide) ?_
  simp only [Vm.perform, Effect.get_bind, hb]
  show (if (captures.reverse ++ S).length < m.captureCount then _ else
    Vm.newFn (.single m ((captures.reverse ++ S).take m.captureCount).reverse)
      ((captures.reverse ++ S).drop m.captureCount) : Vm.Exec σ Unit) _ = _
  rw [if_neg (by simp [hn]), ← hn]
  simp
  rfl

theorem leads_makeFnMulti {bs : List Nat} {ms : List BytecodeModule} {captures : List Value}
    (hc : X.m.code[p]? = some ⟨.makeFnMulti, i⟩) (hg : X.m.arityGroups[i]? = some bs)
    (hb : bs.mapM (X.m.blocks[·]?) = some ms)
    (hn : captures.length = (ms.map (·.captureCount)).sum) :
    X.Leads H ⟨p, captures.reverse ++ S, l, c, w⟩ ⟨p + 1, .fn w.fns.length :: S, l, c,
      { w with fns := w.fns ++ [.multi (Vm.slices ms captures)] }⟩ := by
  refine Ctx.leads hc (by decide) ?_
  simp only [Vm.perform, Effect.get_bind, hg, hb]
  show (if (captures.reverse ++ S).length < (ms.map (·.captureCount)).sum then _ else
    Vm.newFn (.multi (Vm.slices ms
        ((captures.reverse ++ S).take (ms.map (·.captureCount)).sum).reverse))
      ((captures.reverse ++ S).drop (ms.map (·.captureCount)).sum) : Vm.Exec σ Unit) _ = _
  rw [if_neg (by simp [hn]), ← hn]
  simp
  rfl

/-! ### Services -/

theorem asks_pushConst {k : Const} (hc : X.m.code[p]? = some ⟨.pushConst, i⟩)
    (hi : X.m.consts[i]? = some k) :
    Asks H X S ⟨p, S, l, c, w⟩ (Vm.service (Vm.materialise H k)) (p + 1) fun v => v :: S := by
  refine .intro (p := p + 1) (u := []) (g := fun v f => { f with stack := v :: f.stack }) hc
    (by decide) ?_ fun _ => rfl
  simp only [Vm.perform, Effect.get_bind, hi]
  rfl

theorem asks_pushVar {name : String} (hc : X.m.code[p]? = some ⟨.pushVar, i⟩)
    (hi : X.m.consts[i]? = some (.symbol name)) :
    Asks H X S ⟨p, S, l, c, w⟩ (Vm.service (Vm.readGlobal H name)) (p + 1) fun v => v :: S := by
  refine .intro (p := p + 1) (u := []) (g := fun v f => { f with stack := v :: f.stack }) hc
    (by decide) ?_ fun _ => rfl
  simp only [Vm.perform, Effect.get_bind, hi]
  rfl

theorem asks_storeGlobal {name : String} (hc : X.m.code[p]? = some ⟨.storeGlobal, i⟩)
    (hi : X.m.consts[i]? = some (.symbol name)) :
    Asks H X S ⟨p, v :: S, l, c, w⟩ (Vm.service (Vm.storeGlobal H name v)) (p + 1)
      fun _ => v :: S := by
  refine .intro (p := p + 1) (u := [v]) (g := fun _ f => f) hc (by decide) ?_ fun _ => rfl
  simp only [Vm.perform, Effect.get_bind, hi]
  exact (congrFun (Effect.bind_unit _) _).symm

theorem asks_getMember {name : String} (hc : X.m.code[p]? = some ⟨.getMember, i⟩)
    (hi : X.m.consts[i]? = some (.symbol name)) :
    Asks H X S ⟨p, v :: S, l, c, w⟩ (Vm.service (H.getMember v name)) (p + 1) fun v => v :: S := by
  refine .intro (p := p + 1) (u := [v]) (g := fun v f => { f with stack := v :: S }) hc
    (by decide) ?_ fun _ => rfl
  show ((Vm.symbolAt X.m i : Vm.Exec σ String) _).bind _ = _
  rw [Vm.symbolAt_eq hi]
  rfl

theorem asks_callMember {name : String} {args : List Value}
    (hc : X.m.code[p]? = some ⟨.callMember, args.length⟩)
    (hd : X.m.code[p + 1]? = some ⟨.nop, i⟩) (hi : X.m.consts[i]? = some (.symbol name)) :
    Asks H X S ⟨p, args.reverse ++ v :: S, l, c, w⟩ (Vm.service (H.callMember v name args)) (p + 2)
      fun v => v :: S := by
  have hdrop : (args.reverse ++ v :: S).drop args.length = v :: S := by simp
  have htake : ((args.reverse ++ v :: S).take args.length).reverse = args := by simp
  refine .intro (p := p + 2) (u := args.reverse ++ [v]) (g := fun v f => { f with stack := v :: S })
    hc (by decide) ?_ fun _ => rfl
  rw [show args.reverse ++ [v] ++ S = args.reverse ++ v :: S by simp]
  simp only [Vm.perform, Effect.get_bind, Ctx.frame, Frame.next, hd]
  show ((Vm.symbolAt X.m i : Vm.Exec σ String) _).bind _ = _
  rw [Vm.symbolAt_eq hi]
  simp only [hdrop, htake]
  rfl

theorem asks_excMatch {id : Nat} (hc : X.m.code[p]? = some ⟨.excMatch, id⟩) :
    Asks H X S ⟨p, v :: S, l, c, w⟩ (Vm.service (H.exceptionMatches v id)) (p + 1)
      fun b => .bool b :: S :=
  .intro (p := p + 1) (u := []) (g := fun b f => { f with stack := .bool b :: f.stack }) hc
    (by decide) rfl fun _ => rfl

theorem asks_excMatchType {name : String} (hc : X.m.code[p]? = some ⟨.excMatchType, i⟩)
    (hi : X.m.consts[i]? = some (.symbol name)) :
    Asks H X S ⟨p, v' :: v :: S, l, c, w⟩ (Vm.service (H.matchCatchType v v' name)) (p + 1)
      fun b => .bool b :: S := by
  refine .intro (p := p + 1) (u := [v', v]) (g := fun b f => { f with stack := .bool b :: S }) hc
    (by decide) ?_ fun _ => rfl
  show ((Vm.symbolAt X.m i : Vm.Exec σ String) _).bind _ = _
  rw [Vm.symbolAt_eq hi]
  rfl

theorem asks_resolveClass {name : String} (hc : X.m.code[p]? = some ⟨.resolveClass, i⟩)
    (hi : X.m.consts[i]? = some (.symbol name)) :
    Asks H X S ⟨p, S, l, c, w⟩ (Vm.service (H.resolveCatchType name)) (p + 1) fun v => v :: S := by
  refine .intro (p := p + 1) (u := []) (g := fun v f => { f with stack := v :: f.stack }) hc
    (by decide) ?_ fun _ => rfl
  show ((Vm.symbolAt X.m i : Vm.Exec σ String) _).bind _ = _
  rw [Vm.symbolAt_eq hi]
  rfl

theorem perform_throw :
    Vm.perform H X.m .throw n ⟨(X.frame ⟨p, v :: S, l, c, w⟩).next, w⟩ =
      (Vm.serviceIn (H.thrownValue v) >>= fun t => throw (.exception t))
        ⟨X.frame ⟨p + 1, v :: S, l, c, w⟩, w⟩ := rfl

/-- `THROW` raises what the runtime makes of the value. -/
theorem throws_throw {t : Value} {w' : Vm.World σ FnObject} (hc : X.m.code[p]? = some ⟨.throw, n⟩)
    (ht : (Vm.service (H.thrownValue v) w).Returns (Vm.vm H).Answers (.ok t, w')) :
    Vm.Throws H X.m (X.frame ⟨p, v :: S, l, c, w⟩) w (.exception t)
      (X.frame ⟨p + 1, v :: S, l, c, w'⟩) w' := by
  refine Vm.throws_of_perform hc (by decide) ?_
  rw [perform_throw]
  exact Effect.returns_bind.mpr (.inl ⟨t, _, Vm.returns_onWorld.mpr ⟨ht, rfl⟩, rfl⟩)

theorem raises_throw {t : Thrown} {w' : Vm.World σ FnObject} (hc : X.m.code[p]? = some ⟨.throw, n⟩)
    (ht : (Vm.service (H.thrownValue v) w).Returns (Vm.vm H).Answers (.error t, w')) :
    Vm.Throws H X.m (X.frame ⟨p, v :: S, l, c, w⟩) w t (X.frame ⟨p + 1, v :: S, l, c, w'⟩) w' := by
  refine Vm.throws_of_perform hc (by decide) ?_
  rw [perform_throw]
  exact Effect.returns_bind.mpr (.inr ⟨t, Vm.returns_onWorld.mpr ⟨ht, rfl⟩, rfl⟩)

/-- `RETHROW` raises what was caught, or else the value. -/
theorem throws_rethrow (hc : X.m.code[p]? = some ⟨.rethrow, slot⟩) (hl : l slot = some v) :
    Vm.Throws H X.m (X.frame ⟨p, S, l, c, w⟩) w ((c slot).getD (.exception v))
      (X.frame ⟨p + 1, S, l, c, w⟩) w := by
  refine Vm.throws_of_perform hc (by decide) ?_
  show (Vm.rethrow slot ⟨X.frame ⟨p + 1, S, l, c, w⟩, w⟩).Returns _ _
  unfold Vm.rethrow
  rw [Effect.get_bind]
  cases hc : c slot with
  | some t =>
    simp only [Ctx.frame, hc]
    rfl
  | none =>
    simp only [Ctx.frame, hc]
    show (Comp.bind (Vm.slotValue slot _) _).Returns _ _
    rw [Vm.slotValue_eq hl]
    rfl

/-! ### Calls -/

theorem asks_call {kw : Bool} {args : List Value}
    (hc : X.m.code[p]? = some ⟨if kw then .callKw else .call, args.length⟩) :
    Asks H X S ⟨p, args.reverse ++ v :: S, l, c, w⟩
      (Vm.apply H (if kw then .callKw else .call) v args) (p + 1) fun v => v :: S := by
  have hlen : ¬ (args.reverse ++ v :: S).length < args.length + 1 := by simp
  have hstack : args.reverse ++ [v] ++ S = args.reverse ++ v :: S := by simp
  refine .intro (p := p + 1) (u := args.reverse ++ [v]) (g := fun v f => { f with stack := v :: S })
    hc (by cases kw <;> decide) ?_ fun _ => rfl
  rw [hstack]
  cases kw with
  | false =>
    refine Eq.trans ?_ (Vm.dispatch_args .call v args S rfl)
    show (if (args.reverse ++ v :: S).length < args.length + 1 then _ else _ : Vm.Exec σ Unit) _ = _
    rw [if_neg hlen]
    rfl
  | true =>
    refine Eq.trans ?_ (Vm.dispatch_args .callKw v args S rfl)
    show (if (args.reverse ++ v :: S).length < args.length + 1 then _ else _ : Vm.Exec σ Unit) _ = _
    rw [if_neg hlen]
    rfl

theorem perform_callApply :
    Vm.perform H X.m .callApply n ⟨(X.frame ⟨p, v' :: v :: S, l, c, w⟩).next, w⟩ =
      (Vm.serviceIn (Vm.spreadItems H v') >>= fun items =>
        Vm.modifyFrame (fun f => { f with stack := items.reverse ++ f.stack }) >>= fun _ =>
          Vm.dispatch H .call items.length) ⟨X.frame ⟨p + 1, v :: S, l, c, w⟩, w⟩ := by
  have hlen : ¬ (v' :: v :: S).length < 2 := by simp
  show (if (v' :: v :: S).length < 2 then Vm.raiseIn H "VM: CALL_APPLY underflow"
    else (do
      let items ← Vm.serviceIn (Vm.spreadItems H (← Vm.popVal H))
      Vm.modifyFrame fun f => { f with stack := items.reverse ++ f.stack }
      Vm.dispatch H .call items.length) : Vm.Exec σ Unit) _ = _
  rw [if_neg hlen]
  rfl

/-- `CALL_APPLY` spreads its second operand and calls the first. -/
theorem asks_callApply (hc : X.m.code[p]? = some ⟨.callApply, n⟩) :
    Asks H X S ⟨p, v' :: v :: S, l, c, w⟩
      (Vm.service (Vm.spreadItems H v') >>= fun items => Vm.apply H .call v items) (p + 1)
      fun v => v :: S := by
  have hspread : ∀ {items w₁ r w'}, (Vm.service (Vm.spreadItems H v') w).Returns (Vm.vm H).Answers (.ok items, w₁) →
      (Vm.dispatch H .call items.length ⟨X.frame ⟨p + 1, items.reverse ++ v :: S, l, c, w₁⟩, w₁⟩).Returns
        (Vm.vm H).Answers (r, w') →
      (Vm.perform H X.m .callApply n ⟨(X.frame ⟨p, v' :: v :: S, l, c, w⟩).next, w⟩).Returns
        (Vm.vm H).Answers (r, w') := by
    intro items w₁ r w' hi hd
    rw [perform_callApply]
    refine Effect.returns_bind.mpr (.inl ⟨items, _, Vm.returns_onWorld.mpr ⟨hi, rfl⟩, ?_⟩)
    exact Effect.returns_bind.mpr (.inl ⟨(), _, rfl, hd⟩)
  constructor
  · intro a w' ha
    rcases Effect.returns_bind.mp ha with ⟨items, w₁, hi, ha⟩ | ⟨t, -, ht⟩
    · refine Vm.leads_of_perform hc (by decide) (hspread hi ?_)
      rw [Vm.dispatch_args .call v items S rfl]
      exact Effect.returns_bind.mpr (.inl ⟨a, _, Vm.returns_onWorld.mpr ⟨ha, rfl⟩, rfl⟩)
    · cases ht
  · intro t w' ht
    rcases Effect.returns_bind.mp ht with ⟨items, w₁, hi, ht⟩ | ⟨t', ht', hte⟩
    · refine ⟨p + 1, items.reverse ++ [v], Vm.throws_of_perform hc (by decide) (hspread hi ?_)⟩
      rw [Vm.dispatch_args .call v items S rfl, List.append_assoc]
      exact Effect.returns_bind.mpr (.inr ⟨t, Vm.returns_onWorld.mpr ⟨ht, rfl⟩, rfl⟩)
    · cases hte
      refine ⟨p + 1, [v], Vm.throws_of_perform hc (by decide) ?_⟩
      show (Vm.perform H X.m .callApply n ⟨(X.frame ⟨p, v' :: v :: S, l, c, w⟩).next, w⟩).Returns _ _
      rw [perform_callApply]
      exact Effect.returns_bind.mpr (.inr ⟨t, Vm.returns_onWorld.mpr ⟨ht', rfl⟩, rfl⟩)

/-- The operators, as the opcodes compute them in the frames' world. -/
def operate (H : Host σ) (op : Op) (operand : Nat) (a b : Value) : InWorld σ Value := do
  match ← Vm.service (Vm.redefinedOperator H op operand) with
  | some f => Vm.apply H .call f [a, b]
  | none => Vm.service (H.binary op a b)

theorem perform_operator {op : Op} (ho : ∃ name, operatorOp name = some op) {c : Vm.Config σ} :
    Vm.perform H X.m op n c = Vm.operator H op n c := by
  obtain ⟨name, hn⟩ := ho
  unfold operatorOp at hn
  split at hn <;> cases hn <;> rfl

theorem asks_operator {op : Op} (ho : ∃ name, operatorOp name = some op)
    (hc : X.m.code[p]? = some ⟨op, n⟩) :
    Asks H X S ⟨p, v' :: v :: S, l, c, w⟩ (operate H op n v v') (p + 1) fun v => v :: S := by
  have hr : op ≠ .ret := by
    obtain ⟨name, hn⟩ := ho
    unfold operatorOp at hn
    split at hn <;> cases hn <;> decide
  have hp := @perform_operator σ H X n op ho ⟨(X.frame ⟨p, v' :: v :: S, l, c, w⟩).next, w⟩
  -- The operands stay where they are until the result is there, but for the callee under them.
  have hcall : ∀ {f w₁ r w'}, (Vm.service (Vm.redefinedOperator H op n) w).Returns (Vm.vm H).Answers
        (.ok (some f), w₁) →
      (Vm.dispatch H .call 2 ⟨X.frame ⟨p + 1, v' :: v :: f :: S, l, c, w₁⟩, w₁⟩).Returns
        (Vm.vm H).Answers (r, w') →
      (Vm.perform H X.m op n ⟨(X.frame ⟨p, v' :: v :: S, l, c, w⟩).next, w⟩).Returns
        (Vm.vm H).Answers (r, w') := by
    intro f w₁ r w' hf hd
    rw [hp]
    show ((Vm.serviceIn (Vm.redefinedOperator H op n) >>= _ : Vm.Exec σ Unit)
      ⟨X.frame ⟨p + 1, v' :: v :: S, l, c, w⟩, w⟩).Returns _ _
    refine Effect.returns_bind.mpr (.inl ⟨some f, _, Vm.returns_onWorld.mpr ⟨hf, rfl⟩, ?_⟩)
    exact Effect.returns_bind.mpr (.inl ⟨(), _, rfl, hd⟩)
  have hcompute : ∀ {w₁ r w'}, (Vm.service (Vm.redefinedOperator H op n) w).Returns (Vm.vm H).Answers
        (.ok none, w₁) →
      ((Vm.serviceIn (H.binary op v v') >>= fun r => Vm.modifyFrame fun f => { f with stack := r :: S } :
        Vm.Exec σ Unit) ⟨X.frame ⟨p + 1, v' :: v :: S, l, c, w₁⟩, w₁⟩).Returns (Vm.vm H).Answers (r, w') →
      (Vm.perform H X.m op n ⟨(X.frame ⟨p, v' :: v :: S, l, c, w⟩).next, w⟩).Returns
        (Vm.vm H).Answers (r, w') := by
    intro w₁ r w' hf hd
    rw [hp]
    show ((Vm.serviceIn (Vm.redefinedOperator H op n) >>= _ : Vm.Exec σ Unit)
      ⟨X.frame ⟨p + 1, v' :: v :: S, l, c, w⟩, w⟩).Returns _ _
    exact Effect.returns_bind.mpr (.inl ⟨none, _, Vm.returns_onWorld.mpr ⟨hf, rfl⟩, hd⟩)
  constructor
  · intro a w' ha
    rcases Effect.returns_bind.mp ha with ⟨f, w₁, hf, ha⟩ | ⟨t, -, ht⟩
    · refine Vm.leads_of_perform hc hr ?_
      cases f with
      | some f =>
        refine hcall hf ?_
        rw [show (2 : Nat) = [v, v'].length from rfl, Vm.dispatch_args .call f [v, v'] S rfl]
        exact Effect.returns_bind.mpr (.inl ⟨a, _, Vm.returns_onWorld.mpr ⟨ha, rfl⟩, rfl⟩)
      | none =>
        refine hcompute hf ?_
        exact Effect.returns_bind.mpr (.inl ⟨a, _, Vm.returns_onWorld.mpr ⟨ha, rfl⟩, rfl⟩)
    · cases ht
  · intro t w' ht
    rcases Effect.returns_bind.mp ht with ⟨f, w₁, hf, ht⟩ | ⟨t', ht', hte⟩
    · cases f with
      | some f =>
        refine ⟨p + 1, [v', v, f], Vm.throws_of_perform hc hr (hcall hf ?_)⟩
        rw [show (2 : Nat) = [v, v'].length from rfl, Vm.dispatch_args .call f [v, v'] S rfl]
        exact Effect.returns_bind.mpr (.inr ⟨t, Vm.returns_onWorld.mpr ⟨ht, rfl⟩, rfl⟩)
      | none =>
        refine ⟨p + 1, [v', v], Vm.throws_of_perform hc hr (hcompute hf ?_)⟩
        exact Effect.returns_bind.mpr (.inr ⟨t, Vm.returns_onWorld.mpr ⟨ht, rfl⟩, rfl⟩)
    · cases hte
      refine ⟨p + 1, [v', v], Vm.throws_of_perform hc hr ?_⟩
      show (Vm.perform H X.m op n ⟨(X.frame ⟨p, v' :: v :: S, l, c, w⟩).next, w⟩).Returns _ _
      rw [hp]
      show ((Vm.serviceIn (Vm.redefinedOperator H op n) >>= _ : Vm.Exec σ Unit)
        ⟨X.frame ⟨p + 1, v' :: v :: S, l, c, w⟩, w⟩).Returns _ _
      exact Effect.returns_bind.mpr (.inr ⟨t, Vm.returns_onWorld.mpr ⟨ht', rfl⟩, rfl⟩)

/-! ### Handlers -/

/-- Inside a `try`: no `recur` leads out of it, and one handler more is there. -/
def Ctx.guarded (X : Ctx) (target : Nat) (S : List Value) : Ctx :=
  { X with L := none, handlers := ⟨target, S.length⟩ :: X.handlers }

theorem leads_tryBegin (hc : X.m.code[p]? = some ⟨.tryBegin, n⟩) (hh : X.m.hasHandlers = true) :
    Vm.Leads H X.m (X.frame ⟨p, S, l, c, w⟩) w ((X.guarded (p + 1 + n) S).frame ⟨p + 1, S, l, c, w⟩) w := by
  refine Vm.leads_pure hc (by decide) ?_
  show (if X.m.hasHandlers then _ else _ : Vm.Exec σ Unit) _ = _
  rw [if_pos hh]
  rfl

theorem leads_tryEnd {target : Nat} {base : List Value} (hc : X.m.code[p]? = some ⟨.tryEnd, n⟩) :
    Vm.Leads H X.m ((X.guarded target base).frame ⟨p, S, l, c, w⟩) w (X.frame ⟨p + 1, S, l, c, w⟩) w :=
  Vm.leads_pure hc (by decide) rfl

/-- What is thrown in a `try` is stored by its handler. -/
theorem leads_caught {fr f : Frame} {target slot : Nat} {t : Thrown} {w' : Vm.World σ FnObject}
    (ht : Vm.Throws H X.m fr w t f w') (hm : X.m.hasHandlers = true)
    (hh : f.handlers = (X.guarded target S).handlers) (hs : S <:+ f.stack)
    (hc : X.m.code[target]? = some ⟨.storeCaught, slot⟩) :
    Vm.Leads H X.m fr w
      (X.frame ⟨target + 1, S, Function.update f.slots slot (some (Vm.caughtValue H t w'.heap).1),
        Function.update f.caught slot (Vm.kept t), w'⟩)
      { w' with heap := (Vm.caughtValue H t w'.heap).2 } := by
  obtain ⟨top, hs⟩ := hs
  have hdrop : f.stack.drop (f.stack.length - S.length) = S := by simp [← hs]
  refine (ht.lands hm hh).trans ?_
  refine Vm.leads_pure hc (by decide) ?_
  show (if X.m.hasHandlers then _ else _ : Vm.Exec σ Unit) _ = _
  rw [if_pos hm]
  show Comp.done (Except.ok (), (⟨⟨target + 1, f.stack.drop (f.stack.length - S.length), _, X.handlers,
    _, none⟩, _⟩ : Vm.Config σ)) = _
  rw [hdrop]
  rfl

end ProtoClojure.Simulation
