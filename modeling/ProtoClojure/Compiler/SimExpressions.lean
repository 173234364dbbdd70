import ProtoClojure.Compiler.SimServices
import Mathlib.Data.List.Nodup

/-! The code of each kind of expression does what the expression means, where that of its parts
does. -/
namespace ProtoClojure.Simulation
open Recursion
open Meaning (Locals Closure Abrupt Query Eval meaning)
open Vm (Host Thrown truthy)

variable {σ : Type} {H : Host σ} {env : Env} {X : Ctx} {β : Names} {ρ : Locals}
  {lo mid mid' hi k : Nat} {s : St σ} {pending : Bool} {w w' : Vm.World σ Closure}
  {r : Except Abrupt Value} {a b e : Exp} {c ca cb : Code}

section Names
variable (hh : Here X β ρ lo s k pending w)
include hh

theorem sim_nil (ha : Code.At X.m.code s.p k (.ins ⟨.pushNil, 0⟩))
    (h : (Meaning.evalExp H ρ (.lit .nil) w).Returns (Simulated H) (r, w')) :
    Runs H X lo s.stack s (s.p + 1) (fun v => v :: s.stack) r w' :=
  .value h hh.world (leads_pushNil (ha.ins (by simp))) (Nat.le_succ _)

theorem sim_bool {b : Bool} (ha : Code.At X.m.code s.p k (.ins ⟨if b then .pushTrue else .pushFalse, 0⟩))
    (h : (Meaning.evalExp H ρ (.lit (.bool b)) w).Returns (Simulated H) (r, w')) :
    Runs H X lo s.stack s (s.p + 1) (fun v => v :: s.stack) r w' :=
  .value h hh.world (leads_pushBool (ha.ins (by cases b <;> simp))) (Nat.le_succ _)

theorem sim_const {a : Const} {i : Nat} (hi : X.T.consts[i]? = some a)
    (ha : Code.At X.m.code s.p k (.ins ⟨.pushConst, i⟩))
    (h : (Meaning.evalExp H ρ (.lit (.const a)) w).Returns (Simulated H) (r, w')) :
    Runs H X lo s.stack s (s.p + 1) (fun v => v :: s.stack) r w' :=
  .asking h (serves_service _) hh.world (asks_pushConst (ha.ins (by simp)) (hh.consts hi))

theorem sim_global {key : String} {i : Nat} (hi : X.T.consts[i]? = some (.symbol key))
    (ha : Code.At X.m.code s.p k (.ins ⟨.pushVar, i⟩))
    (h : (Meaning.serving (Vm.readGlobal H key) w).Returns (Simulated H) (r, w')) :
    Runs H X lo s.stack s (s.p + 1) (fun v => v :: s.stack) r w' :=
  .asking h (serves_service _) hh.world (asks_pushVar (ha.ins (by simp)) (hh.consts hi))

theorem sim_symLocal {x : String} {slot : Nat} (hs : X.T.slotOf β x = some slot)
    (ha : Code.At X.m.code s.p k (.ins ⟨.pushLocal, slot⟩))
    (h : (Meaning.lookUp H ρ x w).Returns (Simulated H) (r, w')) :
    Runs H X lo s.stack s (s.p + 1) (fun v => v :: s.stack) r w' := by
  obtain ⟨v, hv, hl⟩ := hh.agrees.holds x slot hs
  obtain ⟨l', hlead, hk⟩ := leads_read (H := H) (S := s.stack) (c := s.caught) (w := s.world)
    hh.laid.safe ha hl
  have hx : (Meaning.lookUp H ρ x : Eval σ Abrupt Value) = pure v := by
    unfold Meaning.lookUp
    rw [hv]
  rw [hx] at h
  exact .after (t := ⟨s.p + 1, v :: s.stack, l', s.caught, s.world⟩) hlead ⟨hk lo, fun _ _ => rfl⟩
    (Nat.le_succ _) le_rfl le_rfl (.pure h hh.world rfl rfl)

theorem sim_symGlobal {x : String} {i : Nat} (hs : X.T.slotOf β x = none) (ho : X.T.outer x = false)
    (hi : X.T.consts[i]? = some (.symbol x)) (ha : Code.At X.m.code s.p k (.ins ⟨.pushVar, i⟩))
    (h : (Meaning.lookUp H ρ x w).Returns (Simulated H) (r, w')) :
    Runs H X lo s.stack s (s.p + 1) (fun v => v :: s.stack) r w' := by
  have hx : (Meaning.lookUp H ρ x : Eval σ Abrupt Value) = Meaning.serving (Vm.readGlobal H x) := by
    unfold Meaning.lookUp
    rw [hh.agrees.lookup_none hs ho]
  rw [hx] at h
  exact sim_global hh hi ha h

end Names

section Parts
variable (hh : Here X β ρ lo s k pending w)
include hh

theorem sim_member {m : String} {i : Nat} (hc : Compiles env X.T β X.L lo hi e c)
    (hi' : X.T.consts[i]? = some (.symbol m))
    (ha : Code.At X.m.code s.p k (.seq c (.ins ⟨.getMember, i⟩))) (hs : e.steady pending = true)
    (h : (Meaning.evalExp H ρ (.member e m) w).Returns (Simulated H) (r, w')) :
    Runs H X lo s.stack s (s.p + (c.len + 1)) (fun v => v :: s.stack) r w' :=
  .evalThen h hc ha.seq.1 hh hs (Nat.le_succ _) List.suffix_rfl fun _ _ _ _ _ _ _ hr hh₁ =>
    .asking hr (serves_service _) hh₁.world (asks_getMember (ha.seq.2.ins (by simp)) (hh.consts hi'))

theorem sim_seq (h₁ : Compiles env X.T β X.L lo mid a ca) (h₂ : Compiles env X.T β X.L mid hi b cb)
    (ha : Code.At X.m.code s.p k (.seq ca (.seq (.ins ⟨.pop, 0⟩) cb)))
    (hs : (Exp.seq a b).steady pending = true)
    (h : (Meaning.evalExp H ρ (.seq a b) w).Returns (Simulated H) (r, w')) :
    Runs H X lo s.stack s (s.p + (ca.len + (1 + cb.len))) (fun v => v :: s.stack) r w' := by
  obtain ⟨hsa, hsb⟩ := Bool.and_eq_true_iff.mp hs
  refine .evalThen h h₁ ha.seq.1 hh hsa (by omega) List.suffix_rfl fun v w₁ l cc wM hv hk hr hh₁ => ?_
  refine .step (leads_pop (ha.seq.2.seq.1.ins (by simp))) (Nat.le_succ _) (by omega) ?_
  exact (eval_sim hr h₂ ha.seq.2.seq.2 (hh₁.step 1 hh.floor) (steady_then hsb hv)).cast
    (by simp only []; omega)

theorem sim_bind {x : String} {m : Nat} (h₁ : Compiles env X.T β X.L lo m a ca)
    (hm : ¬ X.T.Captures m) (h₂ : Compiles env X.T ((x, m) :: β) X.L (m + 1) hi b cb)
    (ha : Code.At X.m.code s.p k (.seq ca (.seq (.ins ⟨.storeLocal, m⟩) cb)))
    (hs : (Exp.bind x a b).steady pending = true)
    (h : (Meaning.evalExp H ρ (.bind x a b) w).Returns (Simulated H) (r, w')) :
    Runs H X lo s.stack s (s.p + (ca.len + (1 + cb.len))) (fun v => v :: s.stack) r w' := by
  obtain ⟨hsa, hsb⟩ := Bool.and_eq_true_iff.mp hs
  refine .evalThen h h₁ ha.seq.1 hh hsa (by omega) List.suffix_rfl fun v w₁ l cc wM hv hk hr hh₁ => ?_
  have hstore := leads_storeLocal (H := H) (v := v) (S := s.stack) (l := l) (c := cc) (w := wM)
    (ha.seq.2.seq.1.ins (by simp))
  refine .after hstore ⟨.set l (some v) le_rfl hm, fun _ _ => rfl⟩ (Nat.le_succ _) (by simp only []; omega)
    (Nat.le_succ m) ?_
  exact (eval_sim hr h₂ ha.seq.2.seq.2 (hh₁.bind le_rfl hm hh.floor) (steady_then hsb hv)).cast
    (by simp only []; omega)

theorem sim_ite {test : Exp} {ct : Code} (h₁ : Compiles env X.T β X.L lo mid test ct)
    (h₂ : Compiles env X.T β X.L mid mid' a ca) (h₃ : Compiles env X.T β X.L mid' hi b cb)
    (ha : Code.At X.m.code s.p k (.seq ct (.branch ca cb)))
    (hs : (Exp.ite test a b).steady pending = true)
    (h : (Meaning.evalExp H ρ (.ite test a b) w).Returns (Simulated H) (r, w')) :
    Runs H X lo s.stack s (s.p + (ct.len + (ca.len + cb.len + 2))) (fun v => v :: s.stack) r w' := by
  obtain ⟨hst, hsab⟩ := Bool.and_eq_true_iff.mp hs
  obtain ⟨hjf, hat, hj, hae⟩ := ha.seq.2.branch
  refine .evalThen h h₁ ha.seq.1 hh hst (by omega) List.suffix_rfl fun v w₁ l cc wM hv hk hr hh₁ => ?_
  obtain ⟨hsa, hsb⟩ := Bool.and_eq_true_iff.mp (steady_then hsab hv)
  cases hv : truthy v with
  | true =>
    rw [hv] at hr
    refine .step (leads_jumpIfFalse hjf hv) (Nat.le_succ _) (by omega) ?_
    have hrun := eval_sim hr h₂ hat (hh₁.step 1 hh.floor) hsa
    exact hrun.follow (by simp; omega) fun _ _ _ _ => leads_jump hj (by simp; omega)
  | false =>
    rw [hv] at hr
    refine .step (jumps_jumpIfFalse (q := s.p + ct.len + (ca.len + 2)) hjf hv (by omega))
      (Nat.le_add_right ..) (by omega) ?_
    exact ((eval_sim hr (h₃.widen h₂.le) hae (hh₁.step (ca.len + 2) hh.floor) hsb)).cast
      (by simp only []; omega)

theorem sim_both (h₁ : Compiles env X.T β X.L lo mid a ca) (h₂ : Compiles env X.T β X.L mid hi b cb)
    (ha : Code.At X.m.code s.p k
      (.seq ca (.seq (.ins ⟨.dup, 0⟩) (.skipIf .jumpIfFalse (.seq (.ins ⟨.pop, 0⟩) cb)))))
    (hs : (Exp.both a b).steady pending = true)
    (h : (Meaning.evalExp H ρ (.both a b) w).Returns (Simulated H) (r, w')) :
    Runs H X lo s.stack s (s.p + (ca.len + (1 + (1 + cb.len + 1)))) (fun v => v :: s.stack) r w' := by
  obtain ⟨hsa, hsb⟩ := Bool.and_eq_true_iff.mp hs
  have hdup := ha.seq.2.seq.1.ins (by simp)
  obtain ⟨hjump, hbody⟩ := ha.seq.2.seq.2.skipIf (by simp)
  refine .evalThen h h₁ ha.seq.1 hh hsa (by omega) List.suffix_rfl fun v w₁ l cc wM hv hk hr hh₁ => ?_
  refine .step (leads_dup hdup) (Nat.le_succ _) (by omega) ?_
  cases ht : truthy v with
  | true =>
    rw [ht] at hr
    refine .step (leads_jumpIfFalse hjump ht) (Nat.le_succ _) (by omega) ?_
    refine .step (leads_pop (hbody.seq.1.ins (by simp))) (Nat.le_succ _) (by omega) ?_
    exact (eval_sim hr h₂ hbody.seq.2 (hh₁.step 3 hh.floor) (steady_then hsb hv)).cast
      (by simp only []; omega)
  | false =>
    rw [ht] at hr
    exact .value hr hh₁.world (jumps_jumpIfFalse hjump ht (by simp only [Code.len]; omega))
      (by simp only []; omega)

theorem sim_either (h₁ : Compiles env X.T β X.L lo mid a ca) (h₂ : Compiles env X.T β X.L mid hi b cb)
    (ha : Code.At X.m.code s.p k
      (.seq ca (.seq (.ins ⟨.dup, 0⟩) (.skipIf .jumpIfTrue (.seq (.ins ⟨.pop, 0⟩) cb)))))
    (hs : (Exp.either a b).steady pending = true)
    (h : (Meaning.evalExp H ρ (.either a b) w).Returns (Simulated H) (r, w')) :
    Runs H X lo s.stack s (s.p + (ca.len + (1 + (1 + cb.len + 1)))) (fun v => v :: s.stack) r w' := by
  obtain ⟨hsa, hsb⟩ := Bool.and_eq_true_iff.mp hs
  have hdup := ha.seq.2.seq.1.ins (by simp)
  obtain ⟨hjump, hbody⟩ := ha.seq.2.seq.2.skipIf (by simp)
  refine .evalThen h h₁ ha.seq.1 hh hsa (by omega) List.suffix_rfl fun v w₁ l cc wM hv hk hr hh₁ => ?_
  refine .step (leads_dup hdup) (Nat.le_succ _) (by omega) ?_
  cases ht : truthy v with
  | true =>
    rw [ht] at hr
    exact .value hr hh₁.world (jumps_jumpIfTrue hjump ht (by simp only [Code.len]; omega))
      (by simp only []; omega)
  | false =>
    rw [ht] at hr
    refine .step (leads_jumpIfTrue hjump ht) (Nat.le_succ _) (by omega) ?_
    refine .step (leads_pop (hbody.seq.1.ins (by simp))) (Nat.le_succ _) (by omega) ?_
    exact (eval_sim hr h₂ hbody.seq.2 (hh₁.step 3 hh.floor) (steady_then hsb hv)).cast
      (by simp only []; omega)

end Parts
/-! ### Slots stored one after the other -/

def setSlots : List Nat → List Value → (Nat → Option Value) → Nat → Option Value
  | x :: slots, v :: vals, l => setSlots slots vals (Function.update l x (some v))
  | _, _, l => l

theorem setSlots_of_not_mem : ∀ {slots : List Nat} {vals : List Value} {l : Nat → Option Value} {x : Nat},
    x ∉ slots → setSlots slots vals l x = l x
  | [], _, _, _, _ => rfl
  | _ :: _, [], _, _, _ => rfl
  | y :: slots, v :: vals, l, x, hx => by
    obtain ⟨hxy, hx⟩ := List.ne_and_not_mem_of_not_mem_cons hx
    unfold setSlots
    rw [setSlots_of_not_mem hx, Function.update_of_ne hxy]

theorem setSlots_mem : ∀ {slots : List Nat} {vals : List Value} {l : Nat → Option Value}, slots.Nodup →
    ∀ p ∈ slots.zip vals, setSlots slots vals l p.1 = some p.2
  | [], _, _, _, _, h => by cases h
  | _ :: _, [], _, _, _, h => by cases h
  | x :: slots, v :: vals, l, hn, p, h => by
    obtain ⟨hx, hn⟩ := List.nodup_cons.mp hn
    rcases List.mem_cons.mp h with rfl | h
    · show setSlots slots vals _ x = some v
      rw [setSlots_of_not_mem hx, Function.update_self]
    · exact setSlots_mem hn p h

theorem leads_stores (S : List Value) (u : Nat → Option Thrown) (z : Vm.World σ FnObject) :
    ∀ {slots : List Nat} {vals : List Value} {p : Nat} {l : Nat → Option Value},
    slots.length = vals.length → Placed X.m.code p (slots.map fun s => ⟨.storeLocal, s⟩) →
    X.Leads H ⟨p, vals ++ S, l, u, z⟩ ⟨p + slots.length, S, setSlots slots vals l, u, z⟩
  | [], [], _, _, _, _ => Vm.Leads.refl _ _
  | x :: slots, v :: vals, p, l, hn, hp => by
    refine Ctx.Leads.trans (leads_storeLocal (hp.instr (by simp))) ?_
    have h := leads_stores S u z (l := Function.update l x (some v)) (Nat.succ.inj hn) hp.tail
    rwa [show p + 1 + slots.length = p + (x :: slots).length by simp; omega] at h

theorem leads_mark {S : List Value} {l : Nat → Option Value} {u : Nat → Option Thrown}
    {z : Vm.World σ FnObject} {p : Nat} (hk : Mark c) (ha : Code.At X.m.code p k c) :
    X.Leads H ⟨p, S, l, u, z⟩ ⟨p + c.len, S, l, u, z⟩ := by
  cases hk with
  | none => exact Vm.Leads.refl _ _
  | line n => exact leads_line (ha.ins (by simp))

theorem stores_len (slots : List Nat) : (Code.stores slots).len = slots.length := by
  unfold Code.stores
  induction slots with
  | nil => rfl
  | cons x slots ih =>
    show 1 + _ = _
    rw [ih, List.length_cons, Nat.add_comm]

section Loops
variable (hh : Here X β ρ lo s k pending w)
include hh

theorem sim_recur {args : Exps} {slots : List Nat} {kk : Code} (hL : X.L = some slots)
    (hn : args.length = slots.length) (hc : CompilesArgs env X.T β X.L lo hi args c) (hk : Mark kk)
    (ha : Code.At X.m.code s.p k (.seq c (.seq (.stores slots.reverse) (.seq kk .recur))))
    (hs : (Exp.recur args).steady pending = true)
    (h : (Meaning.evalExp H ρ (.recur args) w).Returns (Simulated H) (r, w')) :
    Runs H X lo s.stack s (s.p + (c.len + (slots.length + (kk.len + 1))))
      (fun v => v :: s.stack) r w' := by
  obtain ⟨hsa, hfloor⟩ := Bool.and_eq_true_iff.mp hs
  have hne : X.L ≠ none := by simp [hL]
  have hstores := ha.seq.2.seq.1
  have hmark := ha.seq.2.seq.2.seq.1
  have hrecur := ha.seq.2.seq.2.seq.2.recur
  rw [stores_len, List.length_reverse] at hmark hrecur
  refine .evalArgsThen h hc ha.seq.1 hh hsa (by omega) List.suffix_rfl
    fun vs w₁ l cc wM hret hlen hkeep hr hh₁ => ?_
  obtain ⟨rfl, rfl⟩ := Effect.returns_throw.mp hr
  have hpending : pending = false := by simpa [hret] using hfloor
  have hloop := hh₁.loop hne
  have hlead := leads_stores (H := H) s.stack cc wM (l := l)
    (by simp [hlen, hn] : slots.reverse.length = vs.reverse.length) hstores.block
  rw [List.length_reverse] at hlead
  refine ⟨slots, setSlots slots.reverse vs.reverse l, cc, wM, hL,
    hlead.trans (Ctx.Leads.trans (leads_mark hk hmark) ?_), ⟨hlen.trans hn, fun p hp => ?_, ?_, fun _ _ => rfl⟩,
    hh₁.world⟩
  · have hback := leads_jumpBack (H := H) (S := s.stack) (l := setSlots slots.reverse vs.reverse l)
      (c := cc) (w := wM) hrecur (by simp at hloop; omega)
    rw [show s.p + c.len + slots.length + kk.len + 1 - (k + c.len + slots.length + kk.len + 1) = X.head by
      simp at hloop; omega] at hback
    rwa [hh.floor hne hpending] at hback ⊢
  · refine setSlots_mem (List.nodup_reverse.mpr (hh.nodup slots hL)) p ?_
    rw [List.zip, ← List.reverse_zipWith (hn.symm.trans hlen.symm)]
    exact List.mem_reverse.mpr hp
  · refine ⟨s.p + c.len + slots.length + kk.len, ?_, by simp at hloop; omega, by simp; omega, by omega,
      fun x _ hx => .inl (setSlots_of_not_mem (by simpa using hx))⟩
    rw [hrecur]
    simp at hloop ⊢
    omega

end Loops

/-! ### Calls -/

theorem raising_ok {α : Type} {R : (q : Query σ) → q.Answer → Prop} {y : Eval σ Thrown α} {a : α}
    (h : (Meaning.raising y w).Returns R (.ok a, w')) : (y w).Returns R (.ok a, w') := by
  rcases Effect.returns_settle.mp h with ⟨b, hb, he⟩ | ⟨t, t', -, -, he⟩
  · cases he
    exact hb
  · cases he

theorem raising_error {α : Type} {R : (q : Query σ) → q.Answer → Prop} {y : Eval σ Thrown α} {t : Abrupt}
    (h : (Meaning.raising y w).Returns R (.error t, w')) :
    ∃ u, t = .raise u ∧ (y w).Returns R (.error u, w') := by
  rcases Effect.returns_settle.mp h with ⟨b, -, he⟩ | ⟨u, u', hu, hu', he⟩
  · cases he
  · cases hu'
    cases he
    exact ⟨u, rfl, hu⟩

section Calls
variable (hh : Here X β ρ lo s k pending w)
include hh

theorem sim_call {kw : Bool} {args : Exps} (h₁ : Compiles env X.T β X.L lo mid e c)
    (h₂ : CompilesArgs env X.T β X.L mid hi args ca)
    (ha : Code.At X.m.code s.p k
      (.seq c (.seq ca (.ins ⟨if kw then .callKw else .call, args.length⟩))))
    (hs : (Exp.call kw e args).steady pending = true)
    (h : (Meaning.evalExp H ρ (.call kw e args) w).Returns (Simulated H) (r, w')) :
    Runs H X lo s.stack s (s.p + (c.len + (ca.len + 1))) (fun v => v :: s.stack) r w' := by
  obtain ⟨hse, hsa⟩ := Bool.and_eq_true_iff.mp hs
  have hcall := ha.seq.2.seq.2.ins (by cases kw <;> simp)
  refine .evalThen h h₁ ha.seq.1 hh hse (by omega) List.suffix_rfl fun v w₁ l cc wM hv hk hr hh₁ => ?_
  refine .evalArgsThen hr h₂ ha.seq.2.seq.1 hh₁ (steady_then hsa hv) (by simp; omega)
    (List.suffix_cons ..) fun vs w₂ l₂ cc₂ wM₂ _ hn hk₂ hr₂ hh₂ => ?_
  rw [← hn] at hcall
  exact (Runs.asking hr₂ (serves_apply _ v vs) hh₂.world (asks_call hcall)).cast (by simp; omega)

theorem sim_apply (h₁ : Compiles env X.T β X.L lo mid a ca) (h₂ : Compiles env X.T β X.L mid hi b cb)
    (ha : Code.At X.m.code s.p k (.seq ca (.seq cb (.ins ⟨.callApply, 0⟩))))
    (hs : (Exp.apply a b).steady pending = true)
    (h : (Meaning.evalExp H ρ (.apply a b) w).Returns (Simulated H) (r, w')) :
    Runs H X lo s.stack s (s.p + (ca.len + (cb.len + 1))) (fun v => v :: s.stack) r w' := by
  obtain ⟨hsa, hsb⟩ := Bool.and_eq_true_iff.mp hs
  refine .evalThen h h₁ ha.seq.1 hh hsa (by omega) List.suffix_rfl fun v w₁ l cc wM hv hk hr hh₁ => ?_
  refine .evalThen hr h₂ ha.seq.2.seq.1 hh₁ (steady_then hsb hv) (by simp; omega)
    (List.suffix_cons ..) fun v₂ w₂ l₂ cc₂ wM₂ _ hk₂ hr₂ hh₂ => ?_
  exact (Runs.asking hr₂ (serves_spread v v₂) hh₂.world
    (asks_callApply (ha.seq.2.seq.2.ins (by simp)))).cast (by simp; omega)

theorem sim_operator {op : Op} {core : Bool} (ho : ∃ name, operatorOp name = some op)
    (h₁ : Compiles env X.T β X.L lo mid a ca) (h₂ : Compiles env X.T β X.L mid hi b cb)
    (ha : Code.At X.m.code s.p k (.seq ca (.seq cb (.ins ⟨op, if core then 1 else 0⟩))))
    (hs : (Exp.operator op core a b).steady pending = true)
    (h : (Meaning.evalExp H ρ (.operator op core a b) w).Returns (Simulated H) (r, w')) :
    Runs H X lo s.stack s (s.p + (ca.len + (cb.len + 1))) (fun v => v :: s.stack) r w' := by
  obtain ⟨hsa, hsb⟩ := Bool.and_eq_true_iff.mp hs
  have hop : op ≠ .pushLocal := by
    obtain ⟨name, hn⟩ := ho
    unfold operatorOp at hn
    split at hn <;> cases hn <;> decide
  refine .evalThen h h₁ ha.seq.1 hh hsa (by omega) List.suffix_rfl fun v w₁ l cc wM hv hk hr hh₁ => ?_
  refine .evalThen hr h₂ ha.seq.2.seq.1 hh₁ (steady_then hsb hv) (by simp; omega)
    (List.suffix_cons ..) fun v₂ w₂ l₂ cc₂ wM₂ _ hk₂ hr₂ hh₂ => ?_
  exact (Runs.asking hr₂ (serves_operate op core v v₂) hh₂.world
    (asks_operator ho (ha.seq.2.seq.2.ins hop))).cast (by simp; omega)

theorem sim_callMember {m : String} {args : Exps} {i : Nat} (h₁ : Compiles env X.T β X.L lo mid e c)
    (h₂ : CompilesArgs env X.T β X.L mid hi args ca) (hi' : X.T.consts[i]? = some (.symbol m))
    (ha : Code.At X.m.code s.p k (.seq c (.seq ca (.member args.length i))))
    (hs : (Exp.callMember e m args).steady pending = true)
    (h : (Meaning.evalExp H ρ (.callMember e m args) w).Returns (Simulated H) (r, w')) :
    Runs H X lo s.stack s (s.p + (c.len + (ca.len + 2))) (fun v => v :: s.stack) r w' := by
  obtain ⟨hse, hsa⟩ := Bool.and_eq_true_iff.mp hs
  obtain ⟨hcall, hdata⟩ := ha.seq.2.seq.2.member
  refine .evalThen h h₁ ha.seq.1 hh hse (by omega) List.suffix_rfl fun v w₁ l cc wM hv hk hr hh₁ => ?_
  refine .evalArgsThen hr h₂ ha.seq.2.seq.1 hh₁ (steady_then hsa hv) (by simp; omega)
    (List.suffix_cons ..) fun vs w₂ l₂ cc₂ wM₂ _ hn hk₂ hr₂ hh₂ => ?_
  rw [← hn] at hcall
  exact (Runs.asking hr₂ (serves_service _) hh₂.world
    (asks_callMember hcall hdata (hh.consts hi'))).cast (by simp; omega)

theorem sim_setGlobal {key : String} {i : Nat} (hc : Compiles env X.T β X.L lo hi e c)
    (hi' : X.T.consts[i]? = some (.symbol key))
    (ha : Code.At X.m.code s.p k (.seq c (.ins ⟨.storeGlobal, i⟩)))
    (hs : e.steady pending = true)
    (h : (Meaning.evalExp H ρ (.setGlobal key e) w).Returns (Simulated H) (r, w')) :
    Runs H X lo s.stack s (s.p + (c.len + 1)) (fun v => v :: s.stack) r w' := by
  refine .evalThen h hc ha.seq.1 hh hs (by omega) List.suffix_rfl fun v w₁ l cc wM hv hk hr hh₁ => ?_
  refine .bind hr (Nat.le_succ _) le_rfl le_rfl le_rfl (fun _ _ hx => .asking hx (serves_service _) hh₁.world
    (asks_storeGlobal (ha.seq.2.ins (by simp)) (hh.consts hi'))) fun _ _ _ _ _ _ hr₂ _ hw => ?_
  exact .pure hr₂ hw rfl rfl

theorem sim_throw (hc : Compiles env X.T β X.L lo hi e c)
    (ha : Code.At X.m.code s.p k (.seq c (.ins ⟨.throw, 0⟩))) (hs : e.steady pending = true)
    (h : (Meaning.evalExp H ρ (.throw e) w).Returns (Simulated H) (r, w')) :
    Runs H X lo s.stack s (s.p + (c.len + 1)) (fun v => v :: s.stack) r w' := by
  refine .evalThen h hc ha.seq.1 hh hs (by omega) List.suffix_rfl fun v w₁ l cc wM hv hk hr hh₁ => ?_
  have hthrow := ha.seq.2.ins (by simp)
  rcases Effect.returns_bind.mp hr with ⟨t, w₂, ht, hr₂⟩ | ⟨t, ht, rfl⟩
  · obtain ⟨rfl, rfl⟩ := Effect.returns_throw.mp hr₂
    obtain ⟨wM₂, hw₂, ht⟩ := serves_service _ hh₁.world (raising_ok ht)
    exact ⟨_, wM₂, throws_throw hthrow ht, rfl, List.suffix_cons .., .refl, hw₂⟩
  · obtain ⟨u, rfl, hu⟩ := raising_error ht
    obtain ⟨wM₂, hw₂, hu⟩ := serves_service _ hh₁.world hu
    exact ⟨_, wM₂, raises_throw hthrow hu, rfl, List.suffix_cons .., .refl, hw₂⟩

end Calls

end ProtoClojure.Simulation
