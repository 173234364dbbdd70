import ProtoClojure.Recursion.Depth
import ProtoClojure.Runtime.ExecuteFrame

/-! The frames on the native stack: each call of `executeFrame` checks first whether the stack has
room for one more. -/
namespace ProtoClojure.Vm
open Recursion

def describeBytes (bytes : Nat) : String :=
  if 2 ^ 20 ≤ bytes ∧ bytes % 2 ^ 20 = 0 then toString (bytes / 2 ^ 20) ++ " MiB"
  else toString (bytes / 2 ^ 10) ++ " KiB"

/-- What `checkNativeStack` throws on a thread with a stack of so many bytes. -/
def stackOverflow (bytes : Nat) : Thrown :=
  .failure ("StackOverflowError: calls or data nested too deeply for the " ++ describeBytes bytes ++
    " thread stack (use loop/recur for deep iteration)")

section
variable {σ : Type} (H : Host σ) (bytes : Nat)

/-- A frame without room answers the error; a call from a primitive takes no room of its own. -/
def refuseFrame : (q : Query σ) → Option q.Answer
  | .frame _ _ w => some (.error (stackOverflow bytes), w)
  | .invoke .. => none

/-- What follows a turn of the dispatch loop, in the same native frame. -/
def afterTurn (m : BytecodeModule) :
    Except Thrown (Option Value) × Config σ → Comp (Query σ) Query.Answer Fault (Except Thrown Value × World σ FnObject)
  | (.ok (some v), c) => pure (.ok v, c.world)
  | (.ok none, c) => Comp.ask (Q := Query σ) (.frame m c.frame c.world)
  | (.error t, c) => unwind H m t c

theorem vm_frame (m : BytecodeModule) (f : Frame) (w : World σ FnObject) :
    vm H (.frame m f w) = (step H m ⟨f, w⟩).bind (afterTurn H m) := by
  show (step H m ⟨f, w⟩).bind _ = _
  refine congrArg _ (funext fun p => ?_)
  rcases p with ⟨_ | _ | _, c⟩ <;> rfl

/-- The machine on a native stack with room for so many more frames. -/
def vmOn : Program (Nat × Query σ) (fun q => q.2.Answer) Fault
  | (room, .frame m f w) =>
    ((step H m ⟨f, w⟩).under (refuseFrame bytes) room).bind fun p => (afterTurn H m p).inPlace room
  | (room, .invoke f args w) => (apply H .invoke f args w).under (refuseFrame bytes) room

/-- `run` on such a stack. -/
def runOn (room : Nat) (m : BytecodeModule) (w : World σ FnObject) :
    Comp (Nat × Query σ) (fun q => q.2.Answer) Fault (Except Thrown Value × World σ FnObject) :=
  (run H m w).under (refuseFrame bytes) room

variable {H bytes}

/-- With room enough the machine answers what it answers on a stack without an end. -/
theorem Answers.enough {q : Query σ} {a : q.Answer} (h : (vm H).Answers q a) :
    ∃ n, ∀ room, n ≤ room → (vmOn H bytes).Answers (room, q) a := by
  refine Program.Answers.induct (P := vm H)
    (motive := fun q a => ∃ n, ∀ room, n ≤ room → (vmOn H bytes).Answers (room, q) a) (fun q a h => ?_) h
  have hcalls : ∀ (q : Query σ) (b : q.Answer),
      ((vm H).Answers q b ∧ ∃ n, ∀ room, n ≤ room → (vmOn H bytes).Answers (room, q) b) →
        ∃ n, ∀ room, n ≤ room → (vmOn H bytes).Answers (room, q) b := fun _ _ h => h.2
  cases q with
  | frame m f w =>
    rw [vm_frame] at h
    obtain ⟨p, hstep, hafter⟩ := Comp.returns_bind.mp h
    have hroom : ∃ n, ∀ room, n ≤ room →
        ((step H m ⟨f, w⟩).under (refuseFrame bytes) room).Returns (vmOn H bytes).Answers p := hstep.under hcalls
    obtain ⟨n, hn⟩ := hroom
    obtain ⟨k, hk⟩ := hafter.inPlace hcalls
    refine ⟨max n k, fun room hle => Program.answers_iff.mpr ?_⟩
    exact Comp.returns_bind.mpr ⟨p, hn room (by omega), hk room (by omega)⟩
  | invoke f args w =>
    have hroom : ∃ n, ∀ room, n ≤ room →
        ((apply H .invoke f args w).under (refuseFrame bytes) room).Returns (vmOn H bytes).Answers a :=
      Comp.Returns.under hcalls h
    obtain ⟨n, hn⟩ := hroom
    exact ⟨n, fun room hle => Program.answers_iff.mpr (hn room hle)⟩

/-- A top-level module has nothing to capture. -/
theorem run_frame {m : BytecodeModule} (hc : m.captureSpecs = []) : run H m = fun w =>
    Comp.ask (Q := Query σ) (.frame m { slots := Binding.slots { body := m, captures := [], args := [] } } w) := by
  unfold run execute
  exact if_neg fun h => h.1 hc

theorem runOn_enough {m : BytecodeModule} {w : World σ FnObject} {a : Except Thrown Value × World σ FnObject}
    (h : (run H m w).Returns (vm H).Answers a) :
    ∃ n, ∀ room, n ≤ room → (runOn H bytes room m w).Returns (vmOn H bytes).Answers a :=
  Comp.Returns.under (fun _ _ => Answers.enough) h

/-- Without room for the first frame the run raises the error. -/
theorem runOn_refused {m : BytecodeModule} {w : World σ FnObject} (hc : m.captureSpecs = []) :
    (runOn H bytes 0 m w).Returns (vmOn H bytes).Answers (.error (stackOverflow bytes), w) := by
  unfold runOn
  rw [run_frame hc]
  exact rfl

end
end ProtoClojure.Vm
