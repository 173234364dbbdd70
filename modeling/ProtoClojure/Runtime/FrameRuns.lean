import ProtoClojure.Runtime.ExecuteFrame

/-! Stretches of a frame's run: where the instructions from one place on lead, and what they
throw. A run that answers from where a stretch ends answers the same from its start. -/
namespace ProtoClojure.Vm
open Recursion

variable {σ α : Type} {H : Host σ} {m : BytecodeModule}
  {f f₁ f₂ f' : Frame} {w w₁ w₂ w' : World σ FnObject} {t : Thrown}

def Leads (H : Host σ) (m : BytecodeModule) (f : Frame) (w : World σ FnObject) (f' : Frame)
    (w' : World σ FnObject) : Prop :=
  ∀ a, (vm H).Answers (.frame m f' w') a → (vm H).Answers (.frame m f w) a

/-- From `f` the run throws `t`, with the frame as `f'` is. -/
def Throws (H : Host σ) (m : BytecodeModule) (f : Frame) (w : World σ FnObject) (t : Thrown)
    (f' : Frame) (w' : World σ FnObject) : Prop :=
  ∀ a, (unwind H m t ⟨f', w'⟩).Returns (vm H).Answers a → (vm H).Answers (.frame m f w) a

theorem Leads.refl (f : Frame) (w : World σ FnObject) : Leads H m f w f w := fun _ h => h

theorem Leads.trans (h : Leads H m f w f₁ w₁) (h' : Leads H m f₁ w₁ f₂ w₂) : Leads H m f w f₂ w₂ :=
  fun a ha => h a (h' a ha)

theorem Leads.throws (h : Leads H m f w f₁ w₁) (h' : Throws H m f₁ w₁ t f' w') :
    Throws H m f w t f' w' := fun a ha => h a (h' a ha)

/-! ### One instruction -/

/-- The frame with `ip` past the instruction. -/
def Frame.next (f : Frame) : Frame := { f with ip := f.ip + 1 }

section Instruction
variable {op : Op} {operand : Nat} (hc : m.code[f.ip]? = some ⟨op, operand⟩)
include hc

theorem step_of_perform (hr : op ≠ .ret) :
    step H m ⟨f, w⟩ =
      ((perform H m op operand >>= fun _ => pure none : Exec σ (Option Value))) ⟨f.next, w⟩ := by
  simp only [step, Effect.get_bind, hc]
  show (if op = .ret then _ else _ : Exec σ (Option Value)) _ = _
  rw [if_neg hr]
  rfl

theorem leads_of_perform (hr : op ≠ .ret)
    (h : (perform H m op operand ⟨f.next, w⟩).Returns (vm H).Answers (.ok (), ⟨f', w'⟩)) :
    Leads H m f w f' w' := by
  intro a ha
  refine Program.answers_iff.mpr (Comp.returns_bind.mpr ⟨(.ok none, ⟨f', w'⟩), ?_, ?_⟩)
  · rw [step_of_perform hc hr]
    exact Effect.returns_bind.mpr (.inl ⟨(), _, h, rfl⟩)
  · exact Comp.returns_ask.mpr ha

theorem throws_of_perform (hr : op ≠ .ret)
    (h : (perform H m op operand ⟨f.next, w⟩).Returns (vm H).Answers (.error t, ⟨f', w'⟩)) :
    Throws H m f w t f' w' := by
  intro a ha
  refine Program.answers_iff.mpr (Comp.returns_bind.mpr ⟨(.error t, ⟨f', w'⟩), ?_, ha⟩)
  rw [step_of_perform hc hr]
  exact Effect.returns_bind.mpr (.inr ⟨t, h, rfl⟩)

/-- An instruction that only changes the frame. -/
theorem leads_pure (hr : op ≠ .ret)
    (hp : perform H m op operand ⟨f.next, w⟩ = .done (.ok (), ⟨f', w'⟩)) : Leads H m f w f' w' :=
  leads_of_perform hc hr (by rw [hp]; rfl)

/-! An instruction that asks the runtime for something and then changes the frame. -/

variable {x : InWorld σ α} {g : α → Frame → Frame}

theorem leads_asking (hr : op ≠ .ret) {a : α}
    (hp : perform H m op operand ⟨f.next, w⟩ = (onWorld x >>= fun a => modifyFrame (g a)) ⟨f₁, w⟩)
    (hx : (x w).Returns (vm H).Answers (.ok a, w')) : Leads H m f w (g a f₁) w' := by
  refine leads_of_perform hc hr ?_
  rw [hp]
  exact Effect.returns_bind.mpr (.inl ⟨a, ⟨f₁, w'⟩, Effect.returns_zoom.mpr ⟨w', hx, rfl⟩, rfl⟩)

theorem throws_asking (hr : op ≠ .ret)
    (hp : perform H m op operand ⟨f.next, w⟩ = (onWorld x >>= fun a => modifyFrame (g a)) ⟨f₁, w⟩)
    (hx : (x w).Returns (vm H).Answers (.error t, w')) : Throws H m f w t f₁ w' := by
  refine throws_of_perform hc hr ?_
  rw [hp]
  exact Effect.returns_bind.mpr (.inr ⟨t, Effect.returns_zoom.mpr ⟨w', hx, rfl⟩, rfl⟩)

end Instruction

theorem returns_onWorld {R : (q : Query σ) → q.Answer → Prop} {x : InWorld σ α} {r : Except Thrown α} :
    (onWorld x ⟨f, w⟩).Returns R (r, ⟨f', w'⟩) ↔ (x w).Returns R (r, w') ∧ f = f' := by
  refine Effect.returns_zoom.trans ⟨?_, ?_⟩
  · rintro ⟨w₁, hx, h⟩
    cases h
    exact ⟨hx, rfl⟩
  · rintro ⟨hx, rfl⟩
    exact ⟨w', hx, rfl⟩

/-- A call of what lies under its arguments. -/
theorem dispatch_args (site : Site) (v : Value) (args rest : List Value)
    (hf : f.stack = args.reverse ++ v :: rest) :
    dispatch H site args.length ⟨f, w⟩ =
      (onWorld (apply H site v args) >>= fun v => modifyFrame fun f => { f with stack := v :: rest })
        ⟨f, w⟩ := by
  have hdrop : f.stack.drop args.length = v :: rest := by simp [hf]
  have htake : (f.stack.take args.length).reverse = args := by simp [hf]
  simp only [dispatch, Effect.get_bind, hdrop, htake]

theorem slotValue_eq {slot : Nat} {v : Value} {c : Config σ} (h : c.frame.slots slot = some v) :
    slotValue slot c = .done (.ok v, c) := by
  simp only [slotValue, Effect.get_bind, h]
  rfl

theorem symbolAt_eq {i : Nat} {s : String} (h : m.consts[i]? = some (.symbol s)) :
    symbolAt m i = (pure s : Exec σ String) := by
  simp only [symbolAt, h]

/-! ### The ends of a frame -/

theorem answers_ret {n : Nat} {v : Value} {rest : List Value} (hc : m.code[f.ip]? = some ⟨.ret, n⟩)
    (hs : f.stack = v :: rest) : (vm H).Answers (.frame m f w) (.ok v, w) := by
  have hstep : step H m ⟨f, w⟩ = .done (.ok (some v), ⟨f.next, w⟩) := by
    simp only [step, Effect.get_bind, hc]
    show Comp.done (Except.ok (some (f.stack.headD .nil)), _) = _
    rw [hs]
    rfl
  refine Program.answers_iff.mpr (Comp.returns_bind.mpr ⟨(.ok (some v), ⟨f.next, w⟩), ?_, rfl⟩)
  rw [hstep]
  rfl

theorem Throws.answers (h : Throws H m f w t f' w') (hh : f'.handlers = []) :
    (vm H).Answers (.frame m f w) (.error t, w') := by
  refine h _ ?_
  unfold unwind
  cases m.hasHandlers <;> simp only [hh] <;> rfl

/-- The exception a handler keeps: one that came as a value. -/
def kept : Thrown → Option Thrown
  | .exception v => some (.exception v)
  | .failure _ => none

/-- What a handler is entered with. -/
def Frame.landing (f : Frame) (h : TryHandler) (rest : List TryHandler) (t : Thrown) (v : Value) :
    Frame :=
  { f with
    ip := h.target
    stack := v :: f.stack.drop (f.stack.length - h.sp)
    handlers := rest
    justCaught := kept t }

theorem Throws.lands {h : TryHandler} {rest : List TryHandler} (ht : Throws H m f w t f' w')
    (hm : m.hasHandlers = true) (hh : f'.handlers = h :: rest) :
    Leads H m f w (f'.landing h rest t (caughtValue H t w'.heap).1)
      { w' with heap := (caughtValue H t w'.heap).2 } := by
  intro a ha
  refine ht a ?_
  unfold unwind
  simp only [hm, hh]
  cases t <;> exact Comp.returns_ask.mpr ha

end ProtoClojure.Vm
