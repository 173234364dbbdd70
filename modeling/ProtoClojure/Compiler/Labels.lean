import ProtoClojure.Compiler.FlowForms
import ProtoClojure.Runtime.StackTurns

/-! Labels of a whole module's code: a frame is always as the label of its place says, and the
analysis of `computeMaxStack` finishes with the heights of the labels. -/
namespace ProtoClojure
open Vm
open BytecodeModule (fallsThrough StackAnalysis)

/-! ### Labels of a whole module -/

/-- Labels for which all the code fits, from the entry on. -/
structure Labelled (P : BytecodeModule → Prop) (m : BytecodeModule) (lab : Nat → Option Label) : Prop where
  entry : lab 0 = some ⟨0, []⟩
  inside : ∀ i l, lab i = some l → i < m.code.length
  fits : ∀ i w l, m.code[i]? = some w → lab i = some l → Fitting P m lab m.code.length i w l

namespace Labelled
variable {P : BytecodeModule → Prop} {m : BytecodeModule} {lab : Nat → Option Label}

/-- The labels of code that flows. -/
theorem of_flow {c : Code} (h : Flow P m none 0 [] (some 0) c none) (ha : Code.At m.code 0 0 c)
    (hlen : m.code.length = c.len) : ∃ lab, Labelled P m lab := by
  obtain ⟨ds, h⟩ := h
  have hlays : Lays (fun i => ds[i]?.join) 0 ds := by
    intro i l hi
    show ds[0 + i]?.join = l
    rw [Nat.zero_add, hi]
    rfl
  refine ⟨fun i => ds[i]?.join, ?_, fun i l hi => ?_, fun i w l hw hl => ?_⟩
  · exact h.lab_start hlays fun y hy => by cases hy
  · have hlt : i < ds.length := by
      by_contra hge
      simp only [List.getElem?_eq_none (Nat.le_of_not_lt hge)] at hi
      cases hi
    rwa [hlen, ← h.length]
  · have hlt := (List.getElem?_eq_some_iff.mp hw).1
    exact h.fitting ha (Nat.le_refl 0) hlays (fun y hy => by cases hy) (fun y hy => by cases hy)
      (by omega) trivial (Nat.zero_le i) (by omega) hw hl

variable (h : Labelled P m lab) {s s' : Shape}
include h

/-- What an instruction may do to a frame that is as its label says leaves it so. -/
theorem step (hs : lab s.ip = some ⟨s.height, s.handlers⟩) (hstep : Shape.Step m s s') :
    lab s'.ip = some ⟨s'.height, s'.handlers⟩ := by
  cases hstep with
  | @next w hc hf hn =>
    have hfit := h.fits _ _ _ hc hs
    obtain ⟨-, hnext⟩ := hfit.next hf
    by_cases hop : w.op = .callMember
    · obtain ⟨n, name, hdata, -⟩ := hfit.data hop
      obtain ⟨-, hafter⟩ := (h.fits _ _ _ hdata hnext).next rfl
      obtain ⟨op, k⟩ := w
      cases hop
      exact hafter
    · rw [Instr.size_of_ne hop]
      exact hnext
  | jump hc ht hn => exact ((h.fits _ _ _ hc hs).target _ ht).2
  | @land w hd rest k hc hh hk =>
    have hfit := h.fits _ _ _ hc hs
    have hlands := hfit.lands
    have htakes : w.takes m + handlerFloor s.handlers ≤ s.height := hfit.takes
    rw [show (⟨s.height, s.handlers⟩ : Label).handlers = hd :: rest from hh] at hlands
    rw [hh] at htakes
    have hmin : min k hd.sp = hd.sp := by
      have hfloor : handlerFloor (hd :: rest) = hd.sp := rfl
      omega
    rw [hmin]
    exact hlands.1

theorem run (hr : Relation.ReflTransGen (Shape.Step m) ⟨0, 0, []⟩ s) :
    lab s.ip = some ⟨s.height, s.handlers⟩ := by
  induction hr with
  | refl => exact h.entry
  | tail _ hstep ih => exact h.step ih hstep

theorem wellPlacedAt {i : Nat} {l : Label} (hl : lab i = some l) : m.WellPlacedAt i := by
  refine ⟨fun n hc => ?_, fun n hc => ?_⟩
  · obtain ⟨k, name, hdata, -⟩ := (h.fits _ _ _ hc hl).data rfl
    exact ⟨k, hdata⟩
  · exact h.inside _ _ ((h.fits _ _ _ hc hl).entry rfl).2

end Labelled

/-! ### The analysis of labelled code -/

/-- The depth is the height of the label. -/
def Label.Has (lab : Nat → Option Label) (s : Nat × Int) : Prop := ∃ l, lab s.1 = some l ∧ s.2 = l.height

section Analysis
variable {P : BytecodeModule → Prop} {m : BytecodeModule} {lab : Nat → Option Label} (h : Labelled P m lab)
include h

theorem Labelled.follows {s t : Nat × Int} (hs : Label.Has lab s) (hst : m.Follows s t) : Label.Has lab t := by
  obtain ⟨i, d⟩ := s
  obtain ⟨t, x⟩ := t
  obtain ⟨w, hc, hmem, -⟩ := hst
  obtain ⟨l, hl, (rfl : d = l.height)⟩ := hs
  have hfit := h.fits _ _ _ hc hl
  have htakes : w.takes m ≤ l.height := by
    have := hfit.takes
    omega
  rcases BytecodeModule.successors_cases hmem with hj | ⟨hf, rfl, rfl⟩
  · rcases BytecodeModule.jumpEdge_cases (m := m) hj with ⟨ht, rfl⟩ | ⟨hop, rfl, rfl⟩
    · refine ⟨_, (hfit.target t ht).2, ?_⟩
      have hg := BytecodeModule.gives_le_of_target ht
      show (l.height : Int) - w.takes m = ((l.height - w.takes m + w.gives : Nat) : Int)
      omega
    · exact ⟨_, (hfit.entry hop).2, rfl⟩
  · refine ⟨_, (hfit.next hf).2, ?_⟩
    show m.after w l.height = ((l.height - w.takes m + w.gives : Nat) : Int)
    have hafter := BytecodeModule.after_eq (m := m) (w := w) (d := l.height)
    omega

omit h in
/-- A place has one height, so a depth found there is never raised. -/
theorem Label.lowers : StackAnalysis.Lowers m (Label.Has lab)
    fun f => ((Finset.range m.code.length).filter fun i => f i = none).card := by
  intro f t d hf hd ht hlt
  have hnone : f t = none := by
    cases hft : f t with
    | none => rfl
    | some x =>
      obtain ⟨l, hl, (hx : x = l.height)⟩ := hf t x hft
      obtain ⟨l', hl', (hd' : d = l'.height)⟩ := hd
      rw [hl] at hl'
      cases hl'
      rw [hft, Option.getD_some] at hlt
      omega
  refine Finset.card_lt_card ((Finset.ssubset_iff_of_subset fun i hi => ?_).mpr ⟨t, ?_, fun hmem => ?_⟩)
  · rw [Finset.mem_filter] at hi ⊢
    have hit : i ≠ t := by
      rintro rfl
      rw [Function.update_self] at hi
      cases hi.2
    rwa [Function.update_of_ne hit] at hi
  · exact Finset.mem_filter.mpr ⟨Finset.mem_range.mpr ht, hnone⟩
  · have hupdate := (Finset.mem_filter.mp hmem).2
    rw [Function.update_self] at hupdate
    cases hupdate

/-- The analysis of labelled code finishes, with the heights of the labels. -/
theorem Labelled.analysed :
    ∃ a, m.analyse (m.code.length + 1) m.analysisStart = some a ∧ a.All (Label.Has lab) := by
  have hstart : Label.Has lab (0, 0) := ⟨_, h.entry, rfl⟩
  obtain ⟨a, ha, hall⟩ := StackAnalysis.finishes Label.lowers (fun _ _ => h.follows) hstart
  refine ⟨a, ?_, hall⟩
  simpa using ha

end Analysis

end ProtoClojure
