import ProtoClojure.Collections.LevelWalks
import ProtoClojure.Runtime.StackBound
import Mathlib.Algebra.Order.BigOperators.Group.Finset

/-! The work list of `computeMaxStack` empties exactly where no way round through the code gains
operands. -/
namespace ProtoClojure.BytecodeModule
open Relation (ReflTransGen)

variable {m : BytecodeModule} {w : Instr} {i t : Nat} {d x k : Int} {a : StackAnalysis}

/-- The analysis goes on from one place and depth to another. -/
def Follows (m : BytecodeModule) (s t : Nat × Int) : Prop :=
  ∃ w, m.code[s.1]? = some w ∧ t ∈ m.successors w s.1 s.2 ∧ t.1 < m.code.length ∧ 0 ≤ t.2

instance {s t : Nat × Int} : Decidable (m.Follows s t) :=
  inferInstanceAs (Decidable (∃ w ∈ m.code[s.1]?, _))

/-- A jump the analysis follows is one the instruction takes, or leads to a handler. -/
theorem jumpEdge_cases (h : jumpEdge w i d = some (t, x)) :
    (w.target i = some t ∧ x = d - w.takes m) ∨ w.op = .tryBegin ∧ t = i + 1 + w.operand ∧ x = d + 1 := by
  obtain ⟨op, n⟩ := w
  cases op <;> simp only [jumpEdge, Option.ite_none_right_eq_some, Option.some.injEq, Prod.mk.injEq,
    reduceCtorEq] at h
  case jump | jumpIfFalse | jumpIfTrue =>
    obtain ⟨rfl, rfl⟩ := h
    exact .inl ⟨rfl, by simp [Instr.takes]⟩
  case jumpBack =>
    obtain ⟨hn, rfl, rfl⟩ := h
    exact .inl ⟨if_pos hn, by simp [Instr.takes]⟩
  case tryBegin =>
    obtain ⟨rfl, rfl⟩ := h
    exact .inr ⟨rfl, rfl, rfl⟩

/-- A successor is a jump or the next instruction. -/
theorem successors_cases (h : (t, x) ∈ m.successors w i d) :
    jumpEdge w i d = some (t, x) ∨ fallsThrough w.op = true ∧ t = i + 1 ∧ x = m.after w d := by
  rcases List.mem_append.mp h with h | h
  · exact .inl (Option.mem_toList.mp h)
  · split_ifs at h with hf
    · obtain ⟨rfl, rfl⟩ := Prod.mk.inj (List.mem_singleton.mp h)
      exact .inr ⟨hf, rfl, rfl⟩
    · cases h

/-! ### How long the loop goes on -/

namespace StackAnalysis
variable {Good : Nat × Int → Prop} {left : (Nat → Option Int) → Nat}

/-- Every depth found is good. -/
def All (Good : Nat × Int → Prop) (a : StackAnalysis) : Prop := ∀ i d, a.depth i = some d → Good (i, d)

/-- Among good depths, one that is raised to a good one leaves less to find. -/
def Lowers (m : BytecodeModule) (Good : Nat × Int → Prop) (left : (Nat → Option Int) → Nat) : Prop :=
  ∀ f t d, (∀ i x, f i = some x → Good (i, x)) → Good (t, d) → t < m.code.length → (f t).getD (-1) < d →
    left (Function.update f t (some d)) < left f

/-- The turns the analysis may still take. -/
def turns (left : (Nat → Option Int) → Nat) (a : StackAnalysis) : Nat := left a.depth + a.work.length

section
variable (hl : Lowers m Good left)
include hl

theorem turns_reach (ha : a.All Good) (hd : t < m.code.length → 0 ≤ d → Good (t, d)) :
    (m.reach a t d).All Good ∧ (m.reach a t d).turns left ≤ a.turns left := by
  unfold BytecodeModule.reach
  split_ifs with hout hle
  · exact ⟨ha, Nat.le_refl _⟩
  · exact ⟨ha, Nat.le_refl _⟩
  · have hgood := hd (by omega) (by omega)
    refine ⟨fun i x hi => ?_, ?_⟩
    · have hi : Function.update a.depth t (some d) i = some x := hi
      by_cases hit : i = t
      · subst hit
        rw [Function.update_self] at hi
        cases hi
        exact hgood
      · exact ha i x ((Function.update_of_ne hit _ _).symm.trans hi)
    · have hless := hl a.depth t d ha hgood (by omega) (by omega)
      show left (Function.update a.depth t (some d)) + (t :: a.work).length ≤ left a.depth + a.work.length
      rw [List.length_cons]
      omega

theorem turns_reachAll {ss : List (Nat × Int)} (ha : a.All Good)
    (hs : ∀ s ∈ ss, s.1 < m.code.length → 0 ≤ s.2 → Good s) :
    (m.reachAll a ss).All Good ∧ (m.reachAll a ss).turns left ≤ a.turns left := by
  induction ss generalizing a with
  | nil => exact ⟨ha, Nat.le_refl _⟩
  | cons s ss ih =>
    obtain ⟨hall, hturns⟩ := turns_reach hl ha (hs s (List.mem_cons_self ..))
    obtain ⟨hall, hle⟩ := ih hall fun u hu => hs u (List.mem_cons_of_mem s hu)
    exact ⟨hall, hle.trans hturns⟩

variable (hg : ∀ s t, Good s → m.Follows s t → Good t)
include hg

theorem turns_visit {work : List Nat} (ha : a.All Good) (hw : a.work = i :: work) :
    (m.visit { a with work } i).All Good ∧ (m.visit { a with work } i).turns left < a.turns left := by
  have hpop : turns left { a with work } + 1 = a.turns left := by
    unfold turns
    rw [hw, List.length_cons, Nat.add_assoc]
  rcases visit_cases { a with work } i with ⟨heq, -⟩ | ⟨w, d, hci, hdi, heq⟩
  · rw [heq]
    exact ⟨ha, by omega⟩
  · have hs : ∀ s ∈ m.successors w i d, s.1 < m.code.length → 0 ≤ s.2 → Good s := fun s hs hlt h0 =>
      hg (i, d) s (ha i d hdi) ⟨w, hci, hs, hlt, h0⟩
    obtain ⟨hall, hturns⟩ := turns_reachAll (a := { a with work }) hl ha hs
    rw [heq]
    exact ⟨hall, Nat.lt_of_le_of_lt hturns (by omega)⟩

theorem analyse_finishes {fuel : Nat} (ha : a.All Good) (hf : a.turns left < fuel) :
    ∃ a', m.analyse fuel a = some a' ∧ a'.All Good := by
  induction fuel generalizing a with
  | zero => cases hf
  | succ fuel ih =>
    unfold BytecodeModule.analyse
    cases hw : a.work with
    | nil => exact ⟨a, rfl, ha⟩
    | cons i work =>
      obtain ⟨hall, hturns⟩ := turns_visit hl hg ha hw
      exact ih hall (by omega)

/-- Where every raised depth leaves less to find the analysis finishes, and all it finds is good. -/
theorem finishes (h0 : Good (0, 0)) :
    ∃ a, m.analyse (left (fun _ => none) + 1) m.analysisStart = some a ∧ a.All Good := by
  have hnone : All Good ⟨fun _ => none, [], 0⟩ := fun i d hd => by cases hd
  obtain ⟨hall, hturns⟩ := turns_reach hl hnone (t := 0) (d := 0) fun _ _ => h0
  exact analyse_finishes hl hg hall (Nat.lt_succ_of_le hturns)

end

/-! ### Ways round -/

theorem step_le (h : m.Follows (i, d) (t, x)) : x ≤ d + 1 := by
  obtain ⟨w, -, hs, -⟩ := h
  rcases successors_cases hs with hj | ⟨-, -, rfl⟩
  · rcases jumpEdge_cases (m := m) hj with ⟨-, rfl⟩ | ⟨-, -, rfl⟩ <;> omega
  · obtain ⟨op, n⟩ := w
    cases op <;> simp only [after] <;> omega

/-- The depths left to find, where none is more than the number of instructions. -/
def room (m : BytecodeModule) (f : Nat → Option Int) : Nat :=
  ∑ i ∈ Finset.range m.code.length, (m.code.length - (f i).getD (-1)).toNat

theorem room_none : room m (fun _ => none) = m.code.length * (m.code.length + 1) := by
  refine (Finset.sum_const_nat (m := m.code.length + 1) fun i _ => ?_).trans ?_
  · show (m.code.length - (-1) : Int).toNat = m.code.length + 1
    omega
  · rw [Finset.card_range]

theorem room_lowers (hg : ∀ s, Good s → s.2 ≤ m.code.length) : Lowers m Good (room m) := by
  intro f t d _ hd ht hlt
  have hle : d ≤ m.code.length := hg _ hd
  refine Finset.sum_lt_sum (fun i _ => ?_) ⟨t, Finset.mem_range.mpr ht, ?_⟩
  · by_cases hit : i = t
    · subst hit
      rw [Function.update_self, Option.getD_some]
      omega
    · rw [Function.update_of_ne hit]
  · rw [Function.update_self, Option.getD_some]
    omega

/-! A way may be taken with more on the stack. -/

theorem successors_add (h : (t, x) ∈ m.successors w i d) : (t, x + k) ∈ m.successors w i (d + k) := by
  rcases successors_cases h with hj | ⟨hf, rfl, rfl⟩
  · refine List.mem_append_left _ (Option.mem_toList.mpr ?_)
    obtain ⟨op, n⟩ := w
    cases op <;> simp only [jumpEdge, Option.ite_none_right_eq_some, Option.some.injEq, Prod.mk.injEq,
      reduceCtorEq] at hj ⊢ <;> omega
  · have hafter : m.after w d + k = m.after w (d + k) := by
      rw [after_eq, after_eq]
      omega
    rw [hafter]
    exact next_mem hf

theorem follows_add (hk : 0 ≤ k) {s u : Nat × Int} (h : m.Follows s u) :
    m.Follows (s.1, s.2 + k) (u.1, u.2 + k) := by
  obtain ⟨w, hc, hs, hlt, h0⟩ := h
  exact ⟨w, hc, successors_add hs, hlt, by omega⟩

theorem Covers.follows (hc : ∀ i w d, m.code[i]? = some w → a.depth i = some d → Closed m a i w d)
    {s u : Nat × Int} (h : m.Follows s u) (hs : a.Covers s.1 s.2) : a.Covers u.1 u.2 := by
  obtain ⟨w, hcode, hmem, hlt, h0⟩ := h
  obtain ⟨d, hd, hle⟩ := hs
  have hmore := successors_add (k := d - s.2) hmem
  rw [show s.2 + (d - s.2) = d by omega] at hmore
  exact ((hc _ _ _ hcode hd).covers _ hmore hlt (by omega)).mono (by omega)

theorem Covers.walk (hc : ∀ i w d, m.code[i]? = some w → a.depth i = some d → Closed m a i w d)
    {s u : Nat × Int} (h : ReflTransGen m.Follows s u) (hs : a.Covers s.1 s.2) : a.Covers u.1 u.2 := by
  induction h with
  | refl => exact hs
  | tail _ hstep ih => exact ih.follows hc hstep

end StackAnalysis

open StackAnalysis

/-- Some way round through the code comes back to a place with more operands. -/
def Gains (m : BytecodeModule) : Prop := LevelWalks.Gains m.Follows (0, 0)

theorem analyse_of_not_gains (h : ¬ m.Gains) :
    ∃ a, m.analyse (m.code.length * (m.code.length + 1) + 1) m.analysisStart = some a := by
  have hbound : ∀ s, ReflTransGen m.Follows (0, 0) s → s.2 ≤ m.code.length := by
    intro s hs
    have hle := LevelWalks.level_le (S := Finset.range m.code.length) (fun s t h => step_le h)
      (fun s t h => Finset.mem_range.mpr h.choose_spec.2.2.1) h hs
    rw [Finset.card_range] at hle
    omega
  obtain ⟨a, ha, -⟩ := finishes (room_lowers hbound) (fun s t hs hst => hs.tail hst) .refl
  rw [room_none] at ha
  exact ⟨a, ha⟩

theorem not_gains_of_analyse {fuel : Nat} (ha : m.analyse fuel m.analysisStart = some a) : ¬ m.Gains := by
  rintro ⟨i, d, d', hto, hround, hlt⟩
  have hclosed := closed_of_analyse ha
  have hlen : 0 < m.code.length := by
    rcases hto.cases_head with heq | ⟨u, ⟨w, hc, -⟩, -⟩
    · cases heq
      rcases hround.cases_head with heq | ⟨u, ⟨w, hc, -⟩, -⟩
      · cases heq
        omega
      · exact Nat.lt_of_le_of_lt (Nat.zero_le _) (List.getElem?_eq_some_iff.mp hc).1
    · exact Nat.lt_of_le_of_lt (Nat.zero_le _) (List.getElem?_eq_some_iff.mp hc).1
  have hstart : a.Covers 0 0 := (covers_reach _ hlen (Int.le_refl 0)).analyse ha
  obtain ⟨x, hx, hle⟩ := Covers.walk hclosed hto hstart
  -- once more round, from the depth the analysis ended with
  have hmore : ReflTransGen m.Follows (i, d + (x - d)) (i, d' + (x - d)) :=
    ReflTransGen.lift (p := m.Follows) (fun s => (s.1, s.2 + (x - d)))
      (fun s u h => follows_add (by omega) h) _ _ hround
  obtain ⟨y, hy, hgain⟩ := Covers.walk hclosed hmore ⟨x, hx, by omega⟩
  rw [hx] at hy
  cases hy
  omega

/-- Where no way round through the code gains operands `computeMaxStack` finishes, in a number of turns
that the length of the code bounds; where one does it never finishes. -/
theorem computeMaxStack_finishes :
    (¬ m.Gains → ∃ depth, m.computeMaxStack (m.code.length * (m.code.length + 1) + 1) = some depth) ∧
      (m.Gains → ∀ fuel, m.computeMaxStack fuel = none) := by
  refine ⟨fun h => ?_, fun h fuel => ?_⟩
  · obtain ⟨a, ha⟩ := analyse_of_not_gains h
    exact ⟨_, Option.map_eq_some_iff.mpr ⟨a, ha, rfl⟩⟩
  · refine Option.map_eq_none_iff.mpr (Option.eq_none_iff_forall_ne_some.mpr fun a ha => ?_)
    exact not_gains_of_analyse ha h

/-- The code of `(loop [x 1] (+ 1 (recur x)))`: each turn leaves the `1` behind. -/
example : Gains { code := [⟨.pushConst, 0⟩, ⟨.storeLocal, 0⟩, ⟨.pushConst, 0⟩, ⟨.pushLocal, 0⟩, ⟨.storeLocal, 0⟩,
    ⟨.jumpBack, 4⟩] } := by
  refine ⟨2, 0, 1, ?_, ?_, by decide⟩
  · exact .head (b := (1, 1)) (by decide) (.head (b := (2, 0)) (by decide) .refl)
  · exact .head (b := (3, 1)) (by decide) (.head (b := (4, 2)) (by decide)
      (.head (b := (5, 1)) (by decide) (.head (b := (2, 1)) (by decide) .refl)))

end ProtoClojure.BytecodeModule
