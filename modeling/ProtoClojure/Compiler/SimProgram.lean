import ProtoClojure.Compiler.SimCalls

/-! Whatever an expression, the turns of a loop and a call mean, their code does. -/
namespace ProtoClojure.Simulation
open Recursion
open Meaning (Locals Closure Abrupt Query meaning)
open Vm (Host)

variable {σ : Type} {H : Host σ} {env : Env}

/-- The code of an expression does what the expression means, where that of its parts does: by
cases on the layout, of which only the line marks are peeled off. -/
theorem evalExp_sim {ρ : Locals} {w w' : Vm.World σ Closure} {r : Except Abrupt Value} {T : Tables}
    {β : Names} {L : Option (List Nat)} {lo hi : Nat} {e : Exp} {c : Code}
    (hc : Compiles env T β L lo hi e c) {X : Ctx} {k : Nat} {pending : Bool} {s : St σ} (hT : X.T = T)
    (hL : X.L = L) (ha : Code.At X.m.code s.p k c) (hh : Here X β ρ lo s k pending w)
    (hs : e.steady pending = true)
    (h : (Meaning.evalExp H ρ e w).Returns (Simulated H) (r, w')) :
    Runs H X lo s.stack s (s.p + c.len) (fun v => v :: s.stack) r w' := by
  induction hn : sizeOf c using Nat.strong_induction_on generalizing c k s with
  | _ n ih =>
  cases hc with
  | mark hk hc =>
    have hrun := ih _ (by subst hn; simp only [Code.seq.sizeOf_spec]; omega) hc ha.seq.2
      (hh.step _ hh.floor) rfl
    exact (Runs.step (leads_mark hk ha.seq.1) (Nat.le_add_right ..) (Nat.le_add_right ..) hrun).cast
      (by simp only [Code.len]; omega)
  | nil _ =>
    subst hT hL
    exact sim_nil hh ha h
  | bool _ _ =>
    subst hT hL
    exact sim_bool hh ha h
  | const _ hi' =>
    subst hT hL
    exact sim_const hh hi' ha h
  | symLocal _ hs' =>
    subst hT hL
    exact sim_symLocal hh hs' ha h
  | symGlobal _ hs' ho hi' =>
    subst hT hL
    exact sim_symGlobal hh hs' ho hi' ha h
  | global _ hi' =>
    subst hT hL
    exact sim_global hh hi' ha h
  | member hc hi' =>
    subst hT hL
    exact sim_member hh hc hi' ha hs h
  | ite h₁ h₂ h₃ =>
    subst hT hL
    exact sim_ite hh h₁ h₂ h₃ ha hs h
  | both h₁ h₂ =>
    subst hT hL
    exact sim_both hh h₁ h₂ ha hs h
  | either h₁ h₂ =>
    subst hT hL
    exact sim_either hh h₁ h₂ ha hs h
  | seq h₁ h₂ =>
    subst hT hL
    exact sim_seq hh h₁ h₂ ha hs h
  | bind h₁ hm h₂ =>
    subst hT hL
    exact sim_bind hh h₁ hm h₂ ha hs h
  | loop h₁ h₂ =>
    subst hT hL
    have hrun := sim_loop hh h₁ h₂ ha hs h
    exact hrun
  | recur hlen hc hk =>
    subst hT
    have hrun := sim_recur hh hL hlen (hL ▸ hc) hk ha hs h
    exact hrun.cast (by simp only [Code.len, stores_len, List.length_reverse])
  | fnSingle _ hc hb =>
    subst hT hL
    exact sim_fnSingle hh hc hb ha hs h
  | fnMulti _ hc hg hb =>
    subst hT hL
    exact sim_fnMulti hh hc hg hb ha hs h
  | call h₁ h₂ =>
    subst hT hL
    exact sim_call hh h₁ h₂ ha hs h
  | apply h₁ h₂ =>
    subst hT hL
    exact sim_apply hh h₁ h₂ ha hs h
  | operator ho h₁ h₂ =>
    subst hT hL
    exact sim_operator hh ho h₁ h₂ ha hs h
  | callMember h₁ h₂ hi' =>
    subst hT hL
    exact sim_callMember hh h₁ h₂ hi' ha hs h
  | setGlobal hc hi' =>
    subst hT hL
    exact sim_setGlobal hh hc hi' ha hs h
  | throw hc =>
    subst hT hL
    exact sim_throw hh hc ha hs h
  | tryPlain hc =>
    subst hT hL
    exact sim_tryPlain hh hc ha hs h
  | tryCatch h₁ hx h₂ =>
    subst hT hL
    exact sim_tryCatch hh h₁ hx h₂ ha hs h
  | tryFinally h₁ h₂ hx h₃ =>
    subst hT hL
    exact sim_tryFinally hh h₁ h₂ hx h₃ ha hs h

/-- Every answer is one the frames give. -/
theorem answers_sim {q : Query σ} {a : q.Answer} (h : (meaning H).Answers q a) : Motive H q a := by
  refine Program.Answers.induct (fun q a ha => ?_) h
  cases q with
  | exp ρ e w => exact fun env X β lo hi c k pending s hc hat hh hs => evalExp_sim hc rfl rfl hat hh hs ha
  | turns names vals ρ body w => exact turns_step ha
  | apply site f args w => exact apply_step ha

end ProtoClojure.Simulation
