import ProtoClojure.Compiler.Labels
import ProtoClojure.Compiler.Preservation

/-! The frames of compiled code: the analysis of `computeMaxStack` finishes, it has the height of the
operand stack right at every place, and no instruction lacks the operands it takes. -/
namespace ProtoClojure
open Vm

/-! ### Handlers in the code -/

theorem Code.Tries.any {c : Code} (h : c.Tries) (k : Nat) : (c.flatten k).any Instr.isTryBegin = true := by
  induction c generalizing k with
  | nil | ins | member | recur => exact h.elim
  | seq a b iha ihb =>
    rw [flatten, List.any_append, Bool.or_eq_true]
    exact h.imp (fun ha => iha ha _) fun hb => ihb hb _
  | skipIf op a ih =>
    rw [flatten, List.any_cons, ih h, Bool.or_true]
  | branch a b iha ihb =>
    rw [flatten, List.any_cons, List.any_append, List.any_cons]
    rcases h with ha | hb
    · rw [iha ha, Bool.true_or, Bool.or_true]
    · rw [ihb hb, Bool.or_true, Bool.or_true, Bool.or_true]
  | loop body ih => exact ih h 0
  | protect body after handler => rfl

/-- Locals clearing leaves a `TRY_BEGIN` where it is. -/
theorem Code.At.tries {code : List Instr} {p k : Nat} {c : Code} (ha : Code.At code p k c) (h : c.Tries) :
    code.any Instr.isTryBegin = true := by
  obtain ⟨w, hmem, hw⟩ := List.any_eq_true.mp (h.any k)
  obtain ⟨i, hi⟩ := List.getElem?_of_mem hmem
  obtain ⟨w', hc, rfl | ⟨hop, -⟩⟩ := ha i w hi
  · exact List.any_eq_true.mpr ⟨_, List.mem_of_getElem? hc, hw⟩
  · simp [Instr.isTryBegin, hop] at hw

/-! ### Bodies -/

section
variable {env : Env}

/-- A key's value tested, and its default stored. -/
theorem Flow.default {T : Tables} {β : Names} {slot lo mid d p : Nat} {default : Exp} {cd : Code}
    {m : BytecodeModule} {start : Option Nat} {hs : List TryHandler} (h : Compiles env T β none lo mid default cd)
    (st : Stands m T β none start hs d false) (hm : mid ≤ m.slotCount) (hslot : slot < m.slotCount)
    (htry : cd.Tries → m.hasHandlers = true) (hst : default.steady false = true) :
    Flow (SteadyBody env) m start p hs (some d)
      (.seq (.block [⟨.pushLocal, slot⟩, ⟨.pushNil, 0⟩, ⟨.eq, 0⟩])
        (.skipIf .jumpIfFalse (.seq cd (.ins ⟨.storeLocal, slot⟩)))) (some d) := by
  have hf := st.floor
  have htest : Flow (SteadyBody env) m start p hs (some d)
      (.block [⟨.pushLocal, slot⟩, ⟨.pushNil, 0⟩, ⟨.eq, 0⟩]) (some (d + 1)) := by
    refine (Flow.push (w := ⟨.pushLocal, slot⟩) hslot rfl rfl rfl rfl hf).seq
      ((Flow.push (w := ⟨.pushNil, 0⟩) trivial rfl rfl rfl rfl (by omega)).seq (Flow.seq ?_ .nil))
    exact .ins trivial rfl rfl (show 2 + _ ≤ _ by omega) rfl
  refine htest.seq (.skipIf (r := default.returns) (.inl rfl) hf ?_)
  exact Flow.afterAll (h.flow st hm htry hst) fun _ => .store hf hslot

/-- The defaults of the keys leave the stack as it was. -/
theorem CompilesKeys.flow {T : Tables} {β : Names} {keys : Keys} {slot lo hi d p : Nat} {c : Code}
    {m : BytecodeModule} {start : Option Nat} {hs : List TryHandler} (h : CompilesKeys env T β slot lo hi keys c)
    (st : Stands m T β none start hs d false) (hh : hi ≤ m.slotCount)
    (hn : slot + keys.names.length ≤ m.slotCount) (htry : c.Tries → m.hasHandlers = true)
    (hst : keys.steady = true) : Flow (SteadyBody env) m start p hs (some d) c (some d) := by
  -- the keys are one of several types defined together, so the induction is on how many there are
  induction hk : keys.names.length generalizing keys slot lo c p with
  | zero =>
    cases h with
    | nil => exact .nil
    | cons => cases hk
    | consOr => cases hk
  | succ n ih =>
    cases h with
    | nil => cases hk
    | cons h =>
      simp only [Keys.names, List.length_cons] at hn hk
      exact ih h (by omega) htry hst (by omega)
    | consOr hd h =>
      simp only [Keys.names, List.length_cons] at hn hk
      obtain ⟨hsd, hsr⟩ := Bool.and_eq_true_iff.mp hst
      refine (Flow.default hd st ?_ (by omega) (fun ht => htry (.inl (.inr (.inl ht)))) hsd).seq
        (ih h (by omega) (fun ht => htry (.inr ht)) hsr (by omega))
      exact (Simulation.CompilesKeys.le' h).trans hh

theorem clearedCode_length {m : BytecodeModule} {paramEnd : Nat} {raw : List Instr} :
    (clearedCode env m paramEnd raw).length = raw.length := by
  unfold clearedCode
  split_ifs
  · rw [clearLastReads_length]
  · rfl

/-- The code of a body in a frame of its module. -/
theorem bodyCode_flow {T : Tables} {m : BytecodeModule} {names : List String} {fixed mid hi : Nat} {keys : Keys}
    {e : Exp} {k cp cb : Code} (hg : Grounds m T) (hm : Mark k)
    (hk : CompilesKeys env T (paramSlots names) fixed names.length mid keys cp)
    (hb : Compiles env T (paramSlots names) (some (List.range fixed)) mid hi e cb)
    (hh : hi ≤ m.slotCount) (hn : fixed + keys.names.length ≤ names.length)
    (htry : (bodyCode k cp cb).Tries → m.hasHandlers = true) (hsk : keys.steady = true)
    (hsb : e.steady false = true) :
    Flow (SteadyBody env) m none 0 [] (some 0) (bodyCode k cp cb) none := by
  have hmid := Simulation.CompilesKeys.le' hk
  have hhi := hb.le
  have hst : Stands m T (paramSlots names) none none [] 0 false := by
    rw [Simulation.paramSlots_eq]
    refine Stands.bindAll ⟨hg, fun _ _ h => (by cases h), fun _ h => (by cases h), fun _ h => (by cases h),
      Nat.le_refl 0⟩ fun s hs => ?_
    have hlt := List.mem_range.mp hs
    omega
  have hfixed : ∀ s ∈ List.range fixed, s < m.slotCount := fun s hs => by
    have hlt := List.mem_range.mp hs
    omega
  have hbody := hst.loop hfixed
  refine (Flow.mark hm hst.floor).seq ((hk.flow hst (by omega) (by omega) (fun ht => ?_) hsk).seq ?_)
  · exact htry (.inr (.inl ht))
  · refine Flow.afterNone (.loop (hb.flow hbody hh (fun ht => ?_) hsb)) fun _ => ?_
    · exact htry (.inr (.inr (.inl ht)))
    · exact .stop trivial rfl rfl (show 1 + 0 ≤ 0 + 1 by omega)

theorem SteadyBody.labelled {m : BytecodeModule} (h : SteadyBody env m) :
    ∃ lab, Labelled (SteadyBody env) m lab := by
  obtain @⟨T, β, fixed, rest, keys, e, hc, hst⟩ := h
  cases hc with
  | @cons _ _ _ _ _ _ _ _ _ captures mid hi k cp cb hh he hcap hp hn hs hk hb hl hcode ht _ =>
    simp only [Arities.steady, Bool.and_eq_true] at hst
    obtain ⟨⟨⟨hkw, hsk⟩, hsb⟩, -⟩ := hst
    have hslots : hi ≤ m.slotCount := by
      unfold BytecodeModule.slotCount
      omega
    have hgrounds : Grounds m (m.tables captures (T.sees β)) :=
      ⟨rfl, rfl, rfl, fun p hmem => Nat.lt_of_lt_of_le (hs p hmem).2 hslots⟩
    have hnames : fixed.length + keys.names.length ≤ (paramNames fixed rest keys).length := by
      cases rest with
      | none | variadic =>
        have hno : keys.names = [] := by simpa [RestParam.isKwBased] using hkw
        simp [paramNames, hno]
      | kwBased => simp [paramNames]
    have hat : Code.At m.code 0 0 (bodyCode k cp cb) := by
      unfold Code.At
      rw [hcode]
      exact Simulation.placed_clearedCode
    have hlen : m.code.length = (bodyCode k cp cb).len := by
      rw [hcode, clearedCode_length, Code.flatten_length]
    have hflow := bodyCode_flow hgrounds he hk hb hslots hnames (fun h => ht.trans (hat.tries h)) hsk hsb
    exact Labelled.of_flow hflow hat hlen

theorem topLevel_labelled {m : BytecodeModule} {e : Exp} {c : Code}
    (hc : Compiles env (m.tables [] fun _ => false) [] none 0 0 e c) (hs : e.steady false = true)
    (hcode : m.code = (Code.seq c (.ins ⟨.ret, 0⟩)).flatten 0)
    (hh : m.hasHandlers = m.code.any Instr.isTryBegin) : ∃ lab, Labelled (SteadyBody env) m lab := by
  have hat : Code.At m.code 0 0 (.seq c (.ins ⟨.ret, 0⟩)) := by
    unfold Code.At
    rw [hcode]
    exact fun i w hw => ⟨w, by rwa [Nat.zero_add], .inl rfl⟩
  have hst : Stands m (m.tables [] fun _ => false) [] none none [] 0 false :=
    ⟨⟨rfl, rfl, rfl, fun _ h => (by cases h)⟩, fun _ _ h => (by cases h), fun _ h => (by cases h),
      fun _ h => (by cases h), Nat.le_refl 0⟩
  refine Labelled.of_flow (Flow.afterNone (hc.flow hst (Nat.zero_le _) (fun ht => ?_) hs) fun _ => ?_) hat ?_
  · exact hh.trans (hat.tries (.inl ht))
  · exact .stop trivial rfl rfl (show 1 + 0 ≤ 0 + 1 by omega)
  · rw [hcode, Code.flatten_length]

end

/-! ### Frames -/

/-- The frame is as high as the analysis found, and the instruction it is at has what it takes, over
what the handlers keep. -/
structure FrameFits (P : BytecodeModule → Prop) (m : BytecodeModule) (a : BytecodeModule.StackAnalysis)
    (f : Frame) : Prop where
  height : a.depth f.ip = some (f.stack.length : Int)
  bounded : f.stack.length ≤ a.deepest.toNat
  instr : ∃ w, m.code[f.ip]? = some w ∧ w.Usable P m ∧
    w.takes m + handlerFloor f.handlers ≤ f.stack.length ∧ (w.op = .tryEnd → f.handlers ≠ [])

/-- The analysis of `computeMaxStack` finishes in a turn for each instruction, every frame fits, and one
that answers does so at a `RETURN` with the value on its stack. -/
def FramesFit (P : BytecodeModule → Prop) (m : BytecodeModule) : Prop :=
  ∃ a, m.analyse (m.code.length + 1) m.analysisStart = some a ∧
    ∀ {σ : Type} (H : Host σ) (R : (q : Query σ) → q.Answer → Prop) (l : Nat → Option Value)
      (w : Vm.World σ FnObject) (c : Config σ),
      Relation.ReflTransGen (Turn H m R) ⟨{ slots := l }, w⟩ c → FrameFits P m a c.frame ∧
        ∀ v w', Ends H m R c (.ok v, w') →
          ∃ n rest, m.code[c.frame.ip]? = some ⟨.ret, n⟩ ∧ c.frame.stack = v :: rest

/-- The frames of a module fit, and so do those of every function they make. -/
def StackSafe (m : BytecodeModule) : Prop :=
  ∃ P : BytecodeModule → Prop, P m ∧ ∀ b, P b → FramesFit P b

theorem Labelled.framesFit {P : BytecodeModule → Prop} {m : BytecodeModule} {lab : Nat → Option Label}
    (h : Labelled P m lab) : FramesFit P m := by
  obtain ⟨a, ha, hexact⟩ := h.analysed
  refine ⟨a, ha, fun {σ} H R l w c hc => ?_⟩
  have hshape := turns_shape hc
  have hlab : lab c.frame.ip = some ⟨c.frame.stack.length, c.frame.handlers⟩ := h.run hshape
  have hbounds := BytecodeModule.StackAnalysis.bounds_of_steps ha
    (fun s hs => h.wellPlacedAt (h.run hs)) hshape
  have hin := h.inside _ _ hlab
  obtain ⟨d, hd, -⟩ := hbounds.here hin
  obtain ⟨l', (hl' : lab c.frame.ip = some l'), (rfl : d = l'.height)⟩ := hexact _ _ hd
  rw [hlab] at hl'
  cases hl'
  have hfit := h.fits _ _ _ (List.getElem?_eq_getElem hin) hlab
  have hheight : (c.frame.stack.length : Int) ≤ a.deepest := hbounds.height
  refine ⟨⟨hd, by omega, _, List.getElem?_eq_getElem hin, hfit.usable, hfit.takes, hfit.popped⟩,
    fun v w' hend => ?_⟩
  obtain ⟨n, hret, rfl⟩ := hend.of_ok hin
  have htakes := (h.fits _ _ _ hret hlab).takes
  cases hs : c.frame.stack with
  | nil =>
    rw [hs] at htakes
    exact absurd htakes (by simp [Instr.takes])
  | cons v rest => exact ⟨n, rest, hret, rfl⟩

/-- Where more blocks are allowed an operand stays in range. -/
theorem Instr.Usable.mono {P Q : BytecodeModule → Prop} {m : BytecodeModule} {w : Instr}
    (h : w.Usable P m) (hPQ : ∀ b, P b → Q b) : w.Usable Q m := by
  obtain ⟨op, n⟩ := w
  cases op
  case makeFn =>
    obtain ⟨b, hb, hP⟩ := h
    exact ⟨b, hb, hPQ b hP⟩
  case makeFnMulti =>
    obtain ⟨group, hgroup, hall⟩ := h
    refine ⟨group, hgroup, fun i hi => ?_⟩
    obtain ⟨b, hb, hP⟩ := hall i hi
    exact ⟨b, hb, hPQ b hP⟩
  all_goals exact h

theorem FramesFit.mono {P Q : BytecodeModule → Prop} {m : BytecodeModule} (h : FramesFit P m)
    (hPQ : ∀ b, P b → Q b) : FramesFit Q m := by
  obtain ⟨a, ha, hall⟩ := h
  refine ⟨a, ha, fun H R l w c hc => ?_⟩
  obtain ⟨⟨hheight, hbounded, i, hi, hu, hrest⟩, hends⟩ := hall H R l w c hc
  exact ⟨⟨hheight, hbounded, i, hi, hu.mono hPQ, hrest⟩, hends⟩

/-- What a frame of the module answers was on its stack at a `RETURN`. -/
theorem StackSafe.answers {m : BytecodeModule} (h : StackSafe m) {σ : Type} {H : Host σ}
    {l : Nat → Option Value} {w w' : Vm.World σ FnObject} {v : Value}
    (ha : (vm H).Answers (.frame m { slots := l } w) (.ok v, w')) :
    ∃ c n rest, Relation.ReflTransGen (Turn H m (vm H).Answers) ⟨{ slots := l }, w⟩ c ∧
      m.code[c.frame.ip]? = some ⟨.ret, n⟩ ∧ c.frame.stack = v :: rest := by
  obtain ⟨P, hP, hfit⟩ := h
  obtain ⟨a, -, hall⟩ := hfit m hP
  obtain ⟨c, hrun, hend⟩ := answers_run ha
  obtain ⟨n, rest, hret, hs⟩ := (hall H _ l w c hrun).2 v w' hend
  exact ⟨c, n, rest, hrun, hret, hs⟩

/-- A form stands for one expression. Where no `recur` of it that control can reach stands under pending
operands, the form's code keeps its stack, whatever the runtime answers it. -/
theorem compiled_stackSafe {t : TopLevel} {m : BytecodeModule} (h : t.Compiled m) :
    ∃ e, (∀ e', t.StandsFor e' ↔ e' = e) ∧ (e.steady false = true → StackSafe m) := by
  obtain ⟨e, n, c, he, hc, hcode, -, -, hh⟩ := compileModule_laidOut h
  refine ⟨e, fun e' => ⟨fun h' => h'.unique ⟨n, he⟩, fun h' => h' ▸ ⟨n, he⟩⟩, fun hs => ⟨fun b => b = m ∨ SteadyBody t.env b, .inl rfl, fun b hb => ?_⟩⟩
  have hfit : FramesFit (SteadyBody t.env) b := by
    rcases hb with rfl | hb
    · obtain ⟨lab, hlab⟩ := topLevel_labelled hc hs hcode hh
      exact hlab.framesFit
    · obtain ⟨lab, hlab⟩ := hb.labelled
      exact hlab.framesFit
  exact hfit.mono fun _ => .inr

theorem compiled_stackSafe_rethrown : ∃ m, rethrownTop.Compiled m ∧ StackSafe m := by
  obtain ⟨m, hm⟩ := rethrownTop_compiled
  obtain ⟨e, he, hsafe⟩ := compiled_stackSafe hm
  obtain rfl := (he rethrownExp).mp rethrownTop_standsFor
  exact ⟨m, hm, hsafe rfl⟩

end ProtoClojure
