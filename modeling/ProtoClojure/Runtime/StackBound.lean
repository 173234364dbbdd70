import ProtoClojure.Runtime.Shapes
import Mathlib.Tactic.SplitIfs

/-! The depth `computeMaxStack` finds bounds the operand stack of every frame of the module,
whatever path the frame takes. -/
namespace ProtoClojure
open Vm

namespace BytecodeModule

/-- A data word follows a `CALL_MEMBER` at `i`, and the handler a `TRY_BEGIN` at `i` sets up lies in
the code. -/
structure WellPlacedAt (m : BytecodeModule) (i : Nat) : Prop where
  data : ∀ n, m.code[i]? = some ⟨.callMember, n⟩ → ∃ s, m.code[i + 1]? = some ⟨.nop, s⟩
  handler : ∀ n, m.code[i]? = some ⟨.tryBegin, n⟩ → i + 1 + n < m.code.length

def WellPlaced (m : BytecodeModule) : Prop := ∀ i, m.WellPlacedAt i

variable {m : BytecodeModule} {w : Instr} {i j t : Nat} {d x : Int}

/-! ### The depth after an instruction -/

theorem after_eq : m.after w d = d - w.takes m + w.gives := by
  obtain ⟨op, n⟩ := w
  cases op <;> simp only [after, Instr.takes, Instr.gives] <;> omega

theorem jumpEdge_of_target (ht : w.target i = some t) :
    jumpEdge w i d = some (t, d - w.takes m + w.gives) := by
  obtain ⟨op, n⟩ := w
  cases op <;> simp only [Instr.target, reduceCtorEq, Option.some.injEq] at ht
  · subst ht
    simp [jumpEdge, Instr.takes, Instr.gives]
  · subst ht
    simp [jumpEdge, Instr.takes, Instr.gives]
  · split_ifs at ht with hn
    cases ht
    simp [jumpEdge, Instr.takes, Instr.gives, hn]
  · subst ht
    simp [jumpEdge, Instr.takes, Instr.gives]

theorem gives_le_of_target (ht : w.target i = some t) : w.gives = 0 := by
  obtain ⟨op, n⟩ := w
  cases op <;> first | rfl | cases ht

/-! ### The work list -/

/-- The places an instruction leads to, with their depths. -/
def successors (m : BytecodeModule) (w : Instr) (i : Nat) (d : Int) : List (Nat × Int) :=
  (jumpEdge w i d).toList ++ if fallsThrough w.op then [(i + 1, m.after w d)] else []

def reachAll (m : BytecodeModule) (a : StackAnalysis) (ss : List (Nat × Int)) : StackAnalysis :=
  ss.foldl (fun a s => m.reach a s.1 s.2) a

theorem reach_with (a : StackAnalysis) (x : Int) :
    m.reach { a with deepest := x } t d = { m.reach a t d with deepest := x } := by
  unfold reach
  split_ifs <;> rfl

theorem visit_eq {a : StackAnalysis} (hc : m.code[i]? = some w) (hd : a.depth i = some d) :
    m.visit a i =
      { m.reachAll a (m.successors w i d) with
        deepest := max (max a.deepest d) (if fallsThrough w.op then m.after w d else a.deepest) } := by
  simp only [visit, hc, hd, successors, reachAll]
  cases hj : jumpEdge w i d with
  | none => cases hf : fallsThrough w.op <;> simp [reach_with]
  | some s => cases hf : fallsThrough w.op <;> simp [reach_with]

/-- A turn passes over a place with no instruction or no depth. -/
theorem visit_cases (a : StackAnalysis) (i : Nat) :
    (m.visit a i = a ∧ ∀ w d, m.code[i]? = some w → a.depth i ≠ some d) ∨
      ∃ w d, m.code[i]? = some w ∧ a.depth i = some d ∧ m.visit a i =
        { m.reachAll a (m.successors w i d) with
          deepest := max (max a.deepest d) (if fallsThrough w.op then m.after w d else a.deepest) } := by
  cases hc : m.code[i]? with
  | none => exact .inl ⟨by simp only [visit, hc], fun w d h => by cases h⟩
  | some w =>
    cases hd : a.depth i with
    | none => exact .inl ⟨by simp only [visit, hc, hd], fun w d _ h => by cases h⟩
    | some d => exact .inr ⟨w, d, rfl, rfl, visit_eq hc hd⟩

namespace StackAnalysis

/-- The place was reached with depth `d` or more. -/
def Covers (a : StackAnalysis) (i : Nat) (d : Int) : Prop := ∃ d', a.depth i = some d' ∧ d ≤ d'

theorem Covers.reach {a : StackAnalysis} (h : a.Covers j x) : (m.reach a t d).Covers j x := by
  obtain ⟨d', hj, hx⟩ := h
  unfold BytecodeModule.reach
  split_ifs with h₁ h₂
  · exact ⟨d', hj, hx⟩
  · exact ⟨d', hj, hx⟩
  · by_cases hjt : j = t
    · subst hjt
      rw [hj, Option.getD_some] at h₂
      exact ⟨d, Function.update_self .., by omega⟩
    · exact ⟨d', (Function.update_of_ne hjt _ _).trans hj, hx⟩

theorem covers_reach (a : StackAnalysis) (ht : t < m.code.length) (hd : 0 ≤ d) :
    (m.reach a t d).Covers t d := by
  unfold BytecodeModule.reach
  split_ifs with h₁ h₂
  · omega
  · cases hj : a.depth t with
    | none =>
      rw [hj, Option.getD_none] at h₂
      omega
    | some d' =>
      rw [hj, Option.getD_some] at h₂
      exact ⟨d', hj, h₂⟩
  · exact ⟨d, Function.update_self .., Int.le_refl d⟩

theorem reach_work {a : StackAnalysis} (h : j ∈ a.work) : j ∈ (m.reach a t d).work := by
  unfold BytecodeModule.reach
  split_ifs
  · exact h
  · exact h
  · exact List.mem_cons_of_mem t h

/-- A place whose depth was raised is on the list. -/
theorem reach_depth (a : StackAnalysis) (j : Nat) :
    (m.reach a t d).depth j = a.depth j ∨ j ∈ (m.reach a t d).work := by
  unfold BytecodeModule.reach
  split_ifs
  · exact .inl rfl
  · exact .inl rfl
  · by_cases hjt : j = t
    · exact .inr (hjt ▸ List.mem_cons_self ..)
    · exact .inl (Function.update_of_ne hjt _ _)

theorem Covers.reachAll {ss : List (Nat × Int)} {a : StackAnalysis} (h : a.Covers j x) :
    (m.reachAll a ss).Covers j x := by
  induction ss generalizing a with
  | nil => exact h
  | cons s ss ih => exact ih h.reach

theorem covers_reachAll {ss : List (Nat × Int)} (a : StackAnalysis) {s : Nat × Int} (hs : s ∈ ss)
    (ht : s.1 < m.code.length) (hd : 0 ≤ s.2) : (m.reachAll a ss).Covers s.1 s.2 := by
  induction ss generalizing a with
  | nil => cases hs
  | cons u ss ih =>
    rcases List.mem_cons.mp hs with rfl | hs
    · exact (covers_reach a ht hd).reachAll
    · exact ih _ hs

theorem reachAll_work {ss : List (Nat × Int)} {a : StackAnalysis} (h : j ∈ a.work) :
    j ∈ (m.reachAll a ss).work := by
  induction ss generalizing a with
  | nil => exact h
  | cons s ss ih => exact ih (reach_work h)

theorem reachAll_depth (ss : List (Nat × Int)) (a : StackAnalysis) (j : Nat) :
    (m.reachAll a ss).depth j = a.depth j ∨ j ∈ (m.reachAll a ss).work := by
  induction ss generalizing a with
  | nil => exact .inl rfl
  | cons s ss ih =>
    rcases ih (m.reach a s.1 s.2) with h | h
    · rcases reach_depth (m := m) (t := s.1) (d := s.2) a j with h' | h'
      · exact .inl (h.trans h')
      · exact .inr (show j ∈ (m.reachAll (m.reach a s.1 s.2) ss).work from reachAll_work h')
    · exact .inr h

/-! ### What the loop keeps -/

/-- What is known of the place holds of the places after it. -/
structure Closed (m : BytecodeModule) (a : StackAnalysis) (i : Nat) (w : Instr) (d : Int) : Prop where
  covers : ∀ s ∈ m.successors w i d, s.1 < m.code.length → 0 ≤ s.2 → a.Covers s.1 s.2
  deepest : d ≤ a.deepest
  after : fallsThrough w.op = true → m.after w d ≤ a.deepest

/-- Every place reached is still on the list or closed. -/
def Sound (m : BytecodeModule) (a : StackAnalysis) : Prop :=
  ∀ i w d, m.code[i]? = some w → a.depth i = some d → i ∈ a.work ∨ Closed m a i w d

/-- What was known before a turn, of a place that the turn did not raise. -/
theorem Closed.after_turn {a b : StackAnalysis} {w : Instr} (h : Closed m a j w d)
    (hc : ∀ t x, a.Covers t x → b.Covers t x) (hd : a.deepest ≤ b.deepest) : Closed m b j w d :=
  ⟨fun s hs ht h0 => hc _ _ (h.covers s hs ht h0), Int.le_trans h.deepest hd,
    fun hf => Int.le_trans (h.after hf) hd⟩

theorem Sound.visit {a : StackAnalysis} {work : List Nat} (h : Sound m a) (hw : a.work = i :: work) :
    Sound m (m.visit { a with work } i) := by
  -- `i` leaves the list: it is closed by this turn, or no depth of an instruction is known there
  have hrest : ∀ j w d, m.code[j]? = some w → a.depth j = some d → j ∈ i :: work ∨ Closed m a j w d :=
    hw ▸ h
  rcases visit_cases { a with work } i with ⟨heq, hno⟩ | ⟨w, d, hci, hdi, heq⟩
  · rw [heq]
    intro j w d hc hd
    rcases hrest j w d hc hd with hmem | hclosed
    · rcases List.mem_cons.mp hmem with rfl | hmem
      · exact absurd hd (hno w d hc)
      · exact .inl hmem
    · exact .inr ⟨hclosed.covers, hclosed.deepest, hclosed.after⟩
  · rw [heq]
    intro j w' d' hc hd
    rcases reachAll_depth (m := m) (m.successors w i d) { a with work } j with heq | hmem
    · rw [show ({ m.reachAll { a with work } (m.successors w i d) with deepest := _ } :
        StackAnalysis).depth j = a.depth j from heq] at hd
      by_cases hji : j = i
      · subst hji
        rw [hci] at hc
        rw [show a.depth j = some d from hdi] at hd
        cases hc
        cases hd
        refine .inr ⟨fun s hs ht h0 => covers_reachAll _ hs ht h0, ?_, fun hf => ?_⟩
        · exact Int.le_trans (Int.le_max_right ..) (Int.le_max_left ..)
        · show _ ≤ max _ _
          rw [if_pos hf]
          exact Int.le_max_right ..
      · rcases hrest j w' d' hc hd with hmem | hclosed
        · exact .inl (reachAll_work ((List.mem_cons.mp hmem).resolve_left hji))
        · refine .inr (hclosed.after_turn (fun t x hx => ?_) ?_)
          · exact Covers.reachAll (a := { a with work }) hx
          · exact Int.le_trans (Int.le_max_left ..) (Int.le_max_left ..)
    · exact .inl hmem

theorem Sound.analyse {fuel : Nat} {a a' : StackAnalysis} (h : Sound m a)
    (ha : m.analyse fuel a = some a') : Sound m a' ∧ a'.work = [] := by
  induction fuel generalizing a with
  | zero => cases ha
  | succ fuel ih =>
    unfold BytecodeModule.analyse at ha
    cases hw : a.work with
    | nil =>
      simp only [hw] at ha
      cases ha
      exact ⟨h, hw⟩
    | cons i work =>
      simp only [hw] at ha
      exact ih (h.visit hw) ha

theorem Covers.analyse {fuel : Nat} {a a' : StackAnalysis} (h : a.Covers j x)
    (ha : m.analyse fuel a = some a') : a'.Covers j x := by
  induction fuel generalizing a with
  | zero => cases ha
  | succ fuel ih =>
    unfold BytecodeModule.analyse at ha
    cases hw : a.work with
    | nil =>
      simp only [hw] at ha
      cases ha
      exact h
    | cons i work =>
      simp only [hw] at ha
      refine ih ?_ ha
      rcases visit_cases { a with work } i with ⟨heq, -⟩ | ⟨w, d, -, -, heq⟩
      · rw [heq]
        exact h
      · rw [heq]
        exact Covers.reachAll (a := { a with work }) h

theorem Covers.mono {a : StackAnalysis} {y : Int} (h : a.Covers j x) (hy : y ≤ x) : a.Covers j y := by
  obtain ⟨d', hj, hx⟩ := h
  exact ⟨d', hj, Int.le_trans hy hx⟩

theorem sound_start : Sound m m.analysisStart := by
  intro i w d _ hd
  rcases reach_depth (m := m) (t := 0) (d := 0) ⟨fun _ => none, [], 0⟩ i with h | h
  · rw [analysisStart, h] at hd
    cases hd
  · exact .inl h

/-! ### Shapes -/

/-- The stack is no higher than the analysis found, here and in the handlers. -/
structure Bounds (m : BytecodeModule) (a : StackAnalysis) (s : Shape) : Prop where
  height : (s.height : Int) ≤ a.deepest
  here : s.ip < m.code.length → a.Covers s.ip s.height
  handlers : ∀ h ∈ s.handlers, h.target < m.code.length ∧ a.Covers h.target (h.sp + 1)

variable {a : StackAnalysis} {s s' : Shape}

theorem jump_mem {d' : Int} (hj : jumpEdge w i d = some (t, d')) : (t, d') ∈ m.successors w i d := by
  simp [successors, hj]

theorem next_mem (hf : fallsThrough w.op = true) : (i + 1, m.after w d) ∈ m.successors w i d := by
  simp [successors, hf]

/-- The handlers an instruction sets up are reached too. -/
theorem Bounds.handlersAfter (hm : m.WellPlacedAt s.ip) (h : Bounds m a s) (hc : m.code[s.ip]? = some w)
    (hle : (s.height : Int) ≤ d) (hclosed : Closed m a s.ip w d) :
    ∀ g ∈ w.handlersAfter s, g.target < m.code.length ∧ a.Covers g.target (g.sp + 1) := by
  intro g hg
  obtain ⟨op, n⟩ := w
  by_cases hop : op = .tryBegin
  · subst hop
    have hin := hm.handler _ hc
    rcases List.mem_cons.mp hg with rfl | hg
    · refine ⟨hin, (hclosed.covers (s.ip + 1 + n, d + 1) (jump_mem rfl) hin ?_).mono ?_⟩
      · show (0 : Int) ≤ d + 1
        omega
      · show (s.height : Int) + 1 ≤ d + 1
        omega
    · exact h.handlers g hg
  · refine h.handlers g ?_
    unfold Instr.handlersAfter at hg
    split at hg
    · rename_i h'
      exact absurd h' hop
    · exact List.mem_of_mem_tail hg
    · exact hg

theorem Bounds.step (hm : m.WellPlacedAt s.ip)
    (hs : ∀ i w d, m.code[i]? = some w → a.depth i = some d → Closed m a i w d) (h : Bounds m a s)
    (hstep : Shape.Step m s s') : Bounds m a s' := by
  cases hstep with
  | @next w hc hf hn =>
    obtain ⟨d, hd, hle⟩ := h.here (List.getElem?_eq_some_iff.mp hc).1
    have hclosed := hs _ _ _ hc hd
    have hafter : m.after w d = d - w.takes m + w.gives := after_eq
    have hheight : ((s.height - w.takes m + w.gives : Nat) : Int) ≤ m.after w d := by omega
    refine ⟨Int.le_trans hheight (hclosed.after hf), fun hip => ?_, h.handlersAfter hm hc hle hclosed⟩
    have hnext : s.ip + 1 < m.code.length → a.Covers (s.ip + 1) (m.after w d) := fun hlt =>
      hclosed.covers _ (next_mem hf) hlt (show 0 ≤ m.after w d by omega)
    by_cases hop : w.op = .callMember
    · -- the data word after a `CALL_MEMBER` is passed over
      obtain ⟨op, n⟩ := w
      cases hop
      obtain ⟨data, hdata⟩ := hm.data _ hc
      obtain ⟨d₁, hd₁, hle₁⟩ := hnext (List.getElem?_eq_some_iff.mp hdata).1
      have hclosed₁ := hs _ _ _ hdata hd₁
      exact (hclosed₁.covers (s.ip + 1 + 1, d₁) (next_mem rfl) hip
        (show 0 ≤ d₁ by omega)).mono (Int.le_trans hheight hle₁)
    · rw [Instr.size_of_ne hop] at hip ⊢
      exact (hnext hip).mono hheight
  | @jump w i hc ht hn =>
    obtain ⟨d, hd, hle⟩ := h.here (List.getElem?_eq_some_iff.mp hc).1
    have hclosed := hs _ _ _ hc hd
    have hg := gives_le_of_target ht
    have hheight : ((s.height - w.takes m + w.gives : Nat) : Int) ≤ d - w.takes m + w.gives := by omega
    have hlow : ((s.height - w.takes m + w.gives : Nat) : Int) ≤ s.height := by omega
    refine ⟨Int.le_trans hlow h.height, fun hip => ?_, h.handlers⟩
    exact (hclosed.covers _ (jump_mem (m := m) (jumpEdge_of_target ht)) hip
      (show 0 ≤ d - w.takes m + w.gives by omega)).mono hheight
  | @land w hd rest k hc hh hk =>
    obtain ⟨hin, d, hdep, hle⟩ := h.handlers hd (hh ▸ List.mem_cons_self ..)
    have hclosed := hs _ _ _ (List.getElem?_eq_getElem hin) hdep
    have hheight : ((min k hd.sp + 1 : Nat) : Int) ≤ d := by omega
    refine ⟨Int.le_trans hheight hclosed.deepest, fun _ => ⟨d, hdep, hheight⟩, fun h' hmem => ?_⟩
    exact h.handlers h' (hh ▸ List.mem_cons_of_mem hd hmem)

/-- Every place a finished analysis reached is closed. -/
theorem closed_of_analyse {fuel : Nat} (ha : m.analyse fuel m.analysisStart = some a) :
    ∀ i w d, m.code[i]? = some w → a.depth i = some d → Closed m a i w d := by
  obtain ⟨hsound, hwork⟩ := sound_start.analyse ha
  intro i w d hc hdep
  refine (hsound i w d hc hdep).resolve_left ?_
  rw [hwork]
  exact List.not_mem_nil

/-- What a finished analysis found bounds every way through the code. -/
theorem bounds_of_steps {fuel : Nat} (ha : m.analyse fuel m.analysisStart = some a)
    (hm : ∀ s, Relation.ReflTransGen (Shape.Step m) ⟨0, 0, []⟩ s → m.WellPlacedAt s.ip)
    (h : Relation.ReflTransGen (Shape.Step m) ⟨0, 0, []⟩ s) : Bounds m a s := by
  have hclosed := closed_of_analyse ha
  induction h with
  | tail hs hstep ih => exact ih.step (hm _ hs) hclosed hstep
  | refl =>
    have hzero : 0 < m.code.length → a.Covers 0 0 := fun hlen =>
      (covers_reach _ hlen (Int.le_refl 0)).analyse ha
    refine ⟨?_, hzero, fun h' hmem => by cases hmem⟩
    show (0 : Int) ≤ a.deepest
    rcases Nat.eq_zero_or_pos m.code.length with hlen | hlen
    · have hempty : m.analysisStart = ⟨fun _ => none, [], 0⟩ := by simp [analysisStart, reach, hlen]
      rw [hempty] at ha
      cases fuel with
      | zero => cases ha
      | succ fuel =>
        cases ha
        exact Int.le_refl 0
    · obtain ⟨d, hdep, hle⟩ := hzero hlen
      exact Int.le_trans hle (hclosed 0 _ d (List.getElem?_eq_getElem hlen) hdep).deepest

end StackAnalysis

/-! ### Frames -/

variable {σ : Type} {H : Host σ} {R : (q : Query σ) → q.Answer → Prop}

/-- No frame of the module has more on its operand stack than `computeMaxStack` found. -/
theorem stack_bounded (hm : m.WellPlaced) {fuel depth : Nat}
    (hd : m.computeMaxStack fuel = some depth) {l : Nat → Option Value} {w : Vm.World σ FnObject} {c : Config σ}
    (h : Relation.ReflTransGen (Turn H m R) ⟨{ slots := l }, w⟩ c) : c.frame.stack.length ≤ depth := by
  obtain ⟨a, ha, rfl⟩ := Option.map_eq_some_iff.mp hd
  have hheight : (c.frame.stack.length : Int) ≤ a.deepest :=
    (StackAnalysis.bounds_of_steps ha (fun s _ => hm s.ip) (turns_shape h)).height
  omega

end BytecodeModule

end ProtoClojure
