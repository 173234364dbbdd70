import ProtoClojure.Compiler.Layout
import ProtoClojure.Control.StateExcept

/-! Runs of the compiler taken apart: what each primitive step leaves behind when it
succeeds. -/
namespace ProtoClojure

def Session.push (s : Session) (w : Instr) : Session := { s with out := s.out.append w }

/-- The operand of the instruction at `i` replaced. -/
def Session.patch (s : Session) (i : Nat) (operand : Nat) : Session :=
  { s with out := { s.out with code := s.out.code.modify i fun w => { w with operand } } }

@[simp] theorem Session.push_scopes (s : Session) (w : Instr) : (s.push w).scopes = s.scopes := rfl

@[simp] theorem Session.push_code (s : Session) (w : Instr) :
    (s.push w).out.code = s.out.code ++ [w] := rfl

@[simp] theorem Session.push_gensym (s : Session) (w : Instr) : (s.push w).gensym = s.gensym := rfl

@[simp] theorem Session.patch_scopes (s : Session) (i n : Nat) :
    (s.patch i n).scopes = s.scopes := rfl

namespace CompileM

export StateExcept (bind_ok map_ok pure_ok get_ok set_ok modify_ok throw_ok ite_ok)

theorem fail_ok {α : Type} {message : String} {s : Session} {r : α × Session} :
    (fail message : CompileM α) s = .ok r ↔ False := throw_ok

theorem lift_ok {α : Type} {x : Except CompileError α} {a : α} {s s' : Session} :
    (liftM x : CompileM α) s = .ok (a, s') ↔ x = .ok a ∧ s' = s := by
  cases x with
  | error e =>
    constructor
    · intro h
      cases h
    · rintro ⟨h, -⟩
      cases h
  | ok b =>
    constructor
    · intro h
      cases h
      exact ⟨rfl, rfl⟩
    · rintro ⟨h, rfl⟩
      cases h
      rfl

/-- A check in front of the rest of a run. -/
theorem guard_ok {α : Type} {c : Prop} [Decidable c] {message : String} {k k' : CompileM α}
    {s : Session} {r : α × Session} :
    (if c then (fail message : CompileM PUnit) >>= fun _ => k else k') s = .ok r ↔
      ¬ c ∧ k' s = .ok r := by
  rw [ite_ok]
  constructor
  · rintro (⟨-, h⟩ | h)
    · obtain ⟨_, _, hf, -⟩ := bind_ok.mp h
      exact (fail_ok.mp hf).elim
    · exact h
  · exact .inr

theorem checkedOperand_ok {op : Op} {n : Nat} {s s' : Session} {u : Unit} :
    checkedOperand op n s = .ok (u, s') ↔ n ≤ kMaxOperand ∧ s' = s := by
  rw [checkedOperand, ite_ok, throw_ok, pure_ok]
  simp

theorem emit_ok {op : Op} {n i : Nat} {s s' : Session} :
    emit op n s = .ok (i, s') ↔ n ≤ kMaxOperand ∧ i = s.out.code.length ∧ s' = s.push ⟨op, n⟩ := by
  simp only [emit, bind_ok, checkedOperand_ok, get_ok, set_ok, pure_ok, Session.push,
    BytecodeModule.pos]
  constructor
  · rintro ⟨_, s₁, ⟨hn, rfl⟩, t, s₂, ⟨rfl, rfl⟩, _, s₃, rfl, rfl, rfl⟩
    exact ⟨hn, rfl, rfl⟩
  · rintro ⟨hn, rfl, rfl⟩
    exact ⟨(), s, ⟨hn, rfl⟩, s, s, ⟨rfl, rfl⟩, ⟨⟩, _, rfl, rfl, rfl⟩

theorem emit_unit_ok {op : Op} {n : Nat} {s s' : Session} {u : Unit} :
    emit_ op n s = .ok (u, s') ↔ n ≤ kMaxOperand ∧ s' = s.push ⟨op, n⟩ := by
  simp [emit_, map_ok, emit_ok]

theorem pos_ok {s s' : Session} {i : Nat} :
    pos s = .ok (i, s') ↔ i = s.out.code.length ∧ s' = s := by
  simp only [pos, bind_ok, get_ok, pure_ok, BytecodeModule.pos]
  constructor
  · rintro ⟨t, s₁, ⟨rfl, rfl⟩, rfl, rfl⟩
    exact ⟨rfl, rfl⟩
  · rintro ⟨rfl, rfl⟩
    exact ⟨s', s', ⟨rfl, rfl⟩, rfl, rfl⟩

theorem patchOperand_ok {i n : Nat} {s s' : Session} {u : Unit}
    (h : patchOperand i n s = .ok (u, s')) : s' = s.patch i n := by
  obtain ⟨t, s₁, hg, hp⟩ := bind_ok.mp h
  obtain ⟨ht, hs⟩ := get_ok.mp hg
  rw [ht, hs] at hp
  cases hw : s.out.code[i]? with
  | none =>
    rw [hw] at hp
    exact (throw_ok.mp hp).elim
  | some w =>
    rw [hw] at hp
    simp only [bind_ok, checkedOperand_ok, set_ok] at hp
    obtain ⟨_, _, ⟨-, rfl⟩, rfl⟩ := hp
    rw [Session.patch, List.modify_eq_set, hw]
    rfl

theorem patchTo_ok {i target : Nat} {s s' : Session} {u : Unit}
    (h : patchTo i target s = .ok (u, s')) : s' = s.patch i (target - (i + 1)) :=
  patchOperand_ok h

theorem onOut_ok {f : BytecodeModule → Nat × BytecodeModule} {s s' : Session} {i : Nat} :
    onOut f s = .ok (i, s') ↔ i = (f s.out).1 ∧ s' = { s with out := (f s.out).2 } := by
  simp only [onOut, bind_ok, get_ok, set_ok, pure_ok]
  constructor
  · rintro ⟨t, s₁, ⟨rfl, rfl⟩, _, s₂, rfl, rfl, rfl⟩
    exact ⟨rfl, rfl⟩
  · rintro ⟨rfl, rfl⟩
    exact ⟨s, s, ⟨rfl, rfl⟩, ⟨⟩, _, rfl, rfl, rfl⟩

theorem onTopScope_ok {f : Scope → Scope} {s s' : Session} {u : Unit} :
    onTopScope f s = .ok (u, s') ↔ s' = { s with scopes := s.scopes.modifyHead f } := modify_ok

theorem freshSymbol_ok {pre : String} {s s' : Session} {f : Form} :
    freshSymbol pre s = .ok (f, s') ↔
      f = .name (pre ++ toString s.gensym) ∧ s' = { s with gensym := s.gensym + 1 } := by
  simp only [freshSymbol, bind_ok, get_ok, set_ok, pure_ok]
  constructor
  · rintro ⟨t, s₁, ⟨rfl, rfl⟩, _, s₂, rfl, rfl, rfl⟩
    exact ⟨rfl, rfl⟩
  · rintro ⟨rfl, rfl⟩
    exact ⟨s, s, ⟨rfl, rfl⟩, ⟨⟩, _, rfl, rfl, rfl⟩

theorem resolveLocal_ok {name : String} {s s' : Session} {slot : Option Nat} :
    resolveLocal name s = .ok (slot, s') ↔
      (resolveIn name s.scopes = none ∧ slot = none ∧ s' = s) ∨
        ∃ i scopes, resolveIn name s.scopes = some (i, scopes) ∧ slot = some i ∧
          s' = { s with scopes } := by
  simp only [resolveLocal, bind_ok, get_ok]
  constructor
  · rintro ⟨t, s₁, ⟨ht, hs⟩, h⟩
    rw [ht, hs] at h
    cases hr : resolveIn name s.scopes with
    | none =>
      rw [hr] at h
      exact .inl ⟨rfl, pure_ok.mp h⟩
    | some r =>
      rw [hr] at h
      simp only [bind_ok, set_ok, pure_ok] at h
      obtain ⟨_, _, rfl, rfl, rfl⟩ := h
      exact .inr ⟨r.1, r.2, rfl, rfl, rfl⟩
  · rintro (⟨hr, rfl, rfl⟩ | ⟨i, scopes, hr, rfl, rfl⟩)
    · exact ⟨s', s', ⟨rfl, rfl⟩, by rw [hr]; rfl⟩
    · exact ⟨s, s, ⟨rfl, rfl⟩, by rw [hr]; rfl⟩

theorem debugOn_ok {env : Env} {s s' : Session} {b : Bool} :
    debugOn env s = .ok (b, s') ↔ b = (env.recordPositions && s.noDebug == 0) ∧ s' = s := by
  simp only [debugOn, bind_ok, get_ok, pure_ok]
  constructor
  · rintro ⟨t, s₁, ⟨rfl, rfl⟩, rfl, rfl⟩
    exact ⟨rfl, rfl⟩
  · rintro ⟨rfl, rfl⟩
    exact ⟨s', s', ⟨rfl, rfl⟩, rfl, rfl⟩

theorem marking_ok {env : Env} {s s' : Session} {b : Bool} (h : marking env s = .ok (b, s')) :
    s' = s := by
  obtain ⟨b, s₁, h₁, hk⟩ := bind_ok.mp h
  obtain ⟨-, rfl⟩ := debugOn_ok.mp h₁
  cases b with
  | false => exact (pure_ok.mp hk).2
  | true =>
    obtain ⟨t, s₂, h₂, hk₂⟩ := bind_ok.mp hk
    obtain ⟨-, rfl⟩ := get_ok.mp h₂
    exact (pure_ok.mp hk₂).2

/-! ### Steps that draw no generated symbol -/

def KeepsGensym {α : Type} (m : CompileM α) : Prop :=
  ∀ (s s' : Session) (a : α), m s = .ok (a, s') → s'.gensym = s.gensym

namespace KeepsGensym
variable {α β : Type}

theorem pure (a : α) : KeepsGensym (Pure.pure a : CompileM α) := by
  intro s s' b h
  rw [(pure_ok.mp h).2]

theorem fail (message : String) : KeepsGensym (CompileM.fail message : CompileM α) := by
  intro s s' b h
  exact (fail_ok.mp h).elim

theorem throw (e : CompileError) : KeepsGensym (MonadExcept.throw e : CompileM α) := by
  intro s s' b h
  exact (throw_ok.mp h).elim

theorem lift (x : Except CompileError α) : KeepsGensym (liftM x : CompileM α) := by
  intro s s' b h
  rw [(lift_ok.mp h).2]

theorem get : KeepsGensym (MonadState.get : CompileM Session) := by
  intro s s' b h
  rw [(get_ok.mp h).2]

theorem modify {f : Session → Session} (hf : ∀ s, (f s).gensym = s.gensym) :
    KeepsGensym (modifyGet fun s => ((), f s) : CompileM PUnit) := by
  intro s s' b h
  rw [modify_ok.mp h, hf]

theorem bind {m : CompileM α} {f : α → CompileM β} (hm : KeepsGensym m)
    (hf : ∀ a, KeepsGensym (f a)) : KeepsGensym (m >>= f) := by
  intro s s' b h
  obtain ⟨a, s₁, h₁, h₂⟩ := bind_ok.mp h
  rw [hf a _ _ _ h₂, hm _ _ _ h₁]

theorem ite {c : Prop} [Decidable c] {m m' : CompileM α} (h : KeepsGensym m)
    (h' : KeepsGensym m') : KeepsGensym (if c then m else m') := by
  split_ifs
  · exact h
  · exact h'

/-- A check in front of the rest. -/
theorem guard {c : Prop} [Decidable c] {message : String} {k k' : CompileM α} (h' : KeepsGensym k') :
    KeepsGensym (if c then (CompileM.fail message : CompileM PUnit) >>= fun _ => k else k') := by
  intro s s' a h
  exact h' _ _ _ (guard_ok.mp h).2

theorem emit (op : Op) (n : Nat) : KeepsGensym (emit op n) := by
  intro s s' i h
  rw [(emit_ok.mp h).2.2]
  rfl

theorem emit_ (op : Op) (n : Nat) : KeepsGensym (emit_ op n) := by
  intro s s' u h
  rw [(emit_unit_ok.mp h).2]
  rfl

theorem onOut (f : BytecodeModule → Nat × BytecodeModule) : KeepsGensym (onOut f) := by
  intro s s' i h
  rw [(onOut_ok.mp h).2]

theorem onTopScope (f : Scope → Scope) : KeepsGensym (onTopScope f) := by
  intro s s' u h
  rw [onTopScope_ok.mp h]

/-- An entry found or added, and an instruction that names it. -/
theorem constOp (f : BytecodeModule → Nat × BytecodeModule) (op : Op) :
    KeepsGensym (do let i ← CompileM.onOut f; CompileM.emit_ op i) :=
  .bind (.onOut f) fun i => .emit_ op i

theorem resolveLocal (x : String) : KeepsGensym (resolveLocal x) := by
  intro s s' r h
  rcases resolveLocal_ok.mp h with ⟨-, -, rfl⟩ | ⟨i, scopes, -, -, rfl⟩
  · rfl
  · rfl

theorem debugOn (env : Env) : KeepsGensym (debugOn env) := by
  intro s s' b h
  rw [(debugOn_ok.mp h).2]

theorem marking (env : Env) : KeepsGensym (marking env) := by
  intro s s' b h
  rw [marking_ok h]

end KeepsGensym

end CompileM

end ProtoClojure
