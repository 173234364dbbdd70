import ProtoClojure.Compiler.SimEvaluation

/-! The runtime does for frames what it does for expressions, and reads of slots find what the
scope holds. -/
namespace ProtoClojure.Simulation
open Recursion
open Meaning (Locals Closure Abrupt Query Eval meaning)
open Vm (Host Thrown InWorld Site Service HostOp)

variable {σ α β' : Type} {H : Host σ} {env : Env}

/-! ### Services -/

theorem serves_apply (site : Site) (f : Value) (args : List Value) :
    Serves H (Simulated H) (Meaning.apply site f args) (Vm.apply H site f args) :=
  fun _ _ _ _ hw h => (Comp.returns_ask.mp h).2 hw

theorem Serves.bind {R : (q : Query σ) → q.Answer → Prop} {y : Eval σ Thrown α} {x : InWorld σ α}
    {f : α → Eval σ Thrown β'} {g : α → InWorld σ β'} (h : Serves H R y x)
    (hf : ∀ a, Serves H R (f a) (g a)) : Serves H R (y >>= f) (x >>= g) := by
  intro w wM r w' hw hr
  rcases Effect.returns_bind.mp hr with ⟨a, w₁, ha, hr⟩ | ⟨t, ht, rfl⟩
  · obtain ⟨wM₁, hw₁, ha⟩ := h hw ha
    obtain ⟨wM', hw', hr⟩ := hf a hw₁ hr
    exact ⟨wM', hw', Effect.returns_bind.mpr (.inl ⟨a, wM₁, ha, hr⟩)⟩
  · obtain ⟨wM', hw', ht⟩ := h hw ht
    exact ⟨wM', hw', Effect.returns_bind.mpr (.inr ⟨t, ht, rfl⟩)⟩

/-- A call back from a primitive. -/
theorem serves_callBack (f : Value) (args : List Value) :
    Serves H (Simulated H) (Meaning.apply .invoke f args) (Vm.callBack f args) := by
  intro w wM r w' hw h
  obtain ⟨wM', hw', hr⟩ := serves_apply .invoke f args hw h
  exact ⟨wM', hw', Comp.returns_ask.mpr (Program.answers_iff.mpr hr)⟩

theorem serves_service (x : Service σ α) :
    Serves H (Simulated H) (Meaning.service x) (Vm.service x) := by
  intro w wM r w' hw h
  refine Comp.interpret_simulates (E := WorldRel) (fun q w₁ w₂ r v₁ hw h => ?_) x hw h
  cases q with
  | read =>
    cases h
    exact ⟨w₂, hw, by rw [← hw.heap]; rfl⟩
  | write heap =>
    cases h
    exact ⟨{ w₂ with heap }, ⟨rfl, hw.fns⟩, rfl⟩
  | call f args =>
    obtain ⟨⟨r', v'⟩, hcall, hr⟩ := Comp.returns_bind.mp h
    cases hr
    obtain ⟨v₂, hv, hcall⟩ := serves_callBack f args hw hcall
    exact ⟨v₂, hv, Comp.returns_bind.mpr ⟨(r', v₂), hcall, rfl⟩⟩

theorem serves_operate (op : Op) (core : Bool) (a b : Value) :
    Serves H (Simulated H) (Meaning.operate H op core a b)
      (operate H op (if core then 1 else 0) a b) := by
  refine (serves_service _).bind fun f => ?_
  cases f with
  | some f => exact serves_apply .call f [a, b]
  | none => exact serves_service (H.binary op a b)

theorem serves_spread (f v : Value) :
    Serves H (Simulated H)
      (do Meaning.apply .call f (← Meaning.service (Vm.spreadItems H v)))
      (Vm.service (Vm.spreadItems H v) >>= fun items => Vm.apply H .call f items) :=
  (serves_service _).bind fun items => serves_apply .call f items

/-! ### Reads -/

variable {X : Ctx} {p slot : Nat} {ws : List Instr} {S : List Value} {l : Nat → Option Value}
  {c : Nat → Option Thrown} {w : Vm.World σ FnObject} {v : Value}

/-- Whatever reads a slot reads it before anything empties it. -/
theorem unread (hs : ClearSafe X.T X.m.code) (hp : Placed X.m.code p (⟨.pushLocal, slot⟩ :: ws)) :
    Unread X.m.code p slot := by
  intro r hr
  exact (hs.once r p slot hr hp.read).le

theorem leads_read (hs : ClearSafe X.T X.m.code) (hp : Placed X.m.code p (⟨.pushLocal, slot⟩ :: ws))
    (hl : Unread X.m.code p slot → l slot = some v) :
    ∃ l', X.Leads H ⟨p, S, l, c, w⟩ ⟨p + 1, v :: S, l', c, w⟩ ∧
      ∀ lo, Kept X.T X.m.code p (p + 1) lo l l' := by
  have hv := hl (unread hs hp)
  rcases hp.read with hc | hc
  · exact ⟨l, leads_pushLocal hc hv, fun lo => .refl l⟩
  · refine ⟨Function.update l slot none, leads_pushLocalClear hc hv, fun lo x _ => ?_⟩
    by_cases hx : x = slot
    · subst hx
      exact .inr ⟨p, le_rfl, Nat.lt_succ_self p, hc⟩
    · exact .inl (Function.update_of_ne hx ..)

end ProtoClojure.Simulation
