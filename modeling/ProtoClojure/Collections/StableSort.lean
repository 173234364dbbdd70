import Mathlib.Data.List.Perm.Basic
import Mathlib.Order.Compare
import ProtoClojure.Control.StateExcept

/-! Stable sorting by a comparison that acts on a state and may raise. -/
namespace ProtoClojure.StableSort
open StateExcept
variable {α : Type*} {σ ε : Type}

/-- A strict weak order on what `S` holds. -/
structure StrictWeak (lt : α → α → Bool) (S : α → Prop) : Prop where
  asymm : ∀ a b, S a → S b → lt a b = true → lt b a = false
  trans : ∀ a b c, S a → S b → S c → lt b a = false → lt c b = false → lt c a = false

/-- Neither is before the other. -/
def same (lt : α → α → Bool) (a b : α) : Bool := !lt a b && !lt b a

/-- None is after one that it is before. -/
def Sorted (lt : α → α → Bool) (xs : List α) : Prop := xs.Pairwise fun a b => lt b a = false

section Sorting
variable {α : Type} (less : α → α → StateT σ (Except ε) Bool)

/-- Behind everything that `x` is not before. -/
def insertSorted (x : α) : List α → StateT σ (Except ε) (List α)
  | [] => pure [x]
  | y :: ys => do
    if ← less x y then pure (x :: y :: ys)
    else
      let zs ← insertSorted x ys
      pure (y :: zs)

def insertAll : List α → List α → StateT σ (Except ε) (List α)
  | sorted, [] => pure sorted
  | sorted, x :: xs => do
    let sorted ← insertSorted less x sorted
    insertAll sorted xs

def stableSort (xs : List α) : StateT σ (Except ε) (List α) := insertAll less [] xs

end Sorting

/-! ### What the order fixes -/

section Order
variable {lt : α → α → Bool} {S : α → Prop} {a b c x y : α} {xs ys zs : List α}

theorem StrictWeak.lt_of_lt_of_le (h : StrictWeak lt S) (ha : S a) (hb : S b) (hc : S c)
    (hab : lt a b = true) (hbc : lt c b = false) : lt a c = true := by
  by_contra hac
  have hle := h.trans b c a hb hc ha hbc (Bool.eq_false_iff.mpr hac)
  rw [hab] at hle
  cases hle

theorem StrictWeak.lt_of_le_of_lt (h : StrictWeak lt S) (ha : S a) (hb : S b) (hc : S c)
    (hab : lt b a = false) (hbc : lt b c = true) : lt a c = true := by
  by_contra hac
  have hle := h.trans c a b hc ha hb (Bool.eq_false_iff.mpr hac) hab
  rw [hbc] at hle
  cases hle

theorem StrictWeak.mono {T : α → Prop} (h : StrictWeak lt S) (hT : ∀ a, T a → S a) :
    StrictWeak lt T where
  asymm a b ha hb := h.asymm a b (hT a ha) (hT b hb)
  trans a b c ha hb hc := h.trans a b c (hT a ha) (hT b hb) (hT c hc)

/-- An order on keys orders what has the keys. -/
theorem StrictWeak.comap {β : Type*} (h : StrictWeak lt S) (f : β → α) :
    StrictWeak (fun a b => lt (f a) (f b)) fun a => S (f a) where
  asymm a b := h.asymm (f a) (f b)
  trans a b c := h.trans (f a) (f b) (f c)

theorem same_iff : same lt a b = true ↔ lt a b = false ∧ lt b a = false := by
  simp [same]

/-- What is the same as `a` is not before what is the same as `a`. -/
theorem StrictWeak.not_lt_of_same (h : StrictWeak lt S) (ha : S a) (hx : S x) (hy : S y)
    (hax : same lt a x = true) (hay : same lt a y = true) : lt x y = false :=
  h.trans y a x hy ha hx (same_iff.mp hay).1 (same_iff.mp hax).2

theorem sorted_insert (h : StrictWeak lt S) (hx : S x) (hS : ∀ z ∈ y :: ys, S z)
    (hsorted : Sorted lt (y :: ys)) (hxy : lt x y = true) : ∀ z ∈ y :: ys, lt x z = true := by
  intro z hz
  rcases List.mem_cons.mp hz with rfl | hmem
  · exact hxy
  · exact h.lt_of_lt_of_le hx (hS y (by simp)) (hS z hz) hxy
      ((List.pairwise_cons.mp hsorted).1 z hmem)

end Order

/-! ### Three-way comparisons -/

/-- Three comparisons, of `a` with `b`, `b` with `c` and `a` with `c`, as one order has them. -/
def coherent (ab bc ac : Ordering) : Bool :=
  match ab, bc with
  | .eq, o | o, .eq => ac == o
  | .lt, .lt => ac == .lt
  | .gt, .gt => ac == .gt
  | .lt, .gt | .gt, .lt => true

section Coherent
variable {ab bc ac : Ordering}

theorem swap_compare {β : Type*} [LinearOrder β] (i j : β) : (compare i j).swap = compare j i := by
  rcases lt_trichotomy i j with h | rfl | h
  · rw [compare_lt_iff_lt.mpr h, compare_gt_iff_gt.mpr h]
    rfl
  · rw [compare_eq_iff_eq.mpr rfl]
    rfl
  · rw [compare_gt_iff_gt.mpr h, compare_lt_iff_lt.mpr h]
    rfl

theorem coherent_compare {β : Type*} [LinearOrder β] (i j k : β) :
    coherent (compare i j) (compare j k) (compare i k) = true := by
  rcases lt_trichotomy i j with h | rfl | h
  · rcases lt_trichotomy j k with h' | rfl | h'
    · rw [compare_lt_iff_lt.mpr h, compare_lt_iff_lt.mpr h', compare_lt_iff_lt.mpr (h.trans h')]
      rfl
    · rw [compare_lt_iff_lt.mpr h, compare_eq_iff_eq.mpr rfl]
      rfl
    · rw [compare_lt_iff_lt.mpr h, compare_gt_iff_gt.mpr h']
      rfl
  · rw [compare_eq_iff_eq.mpr rfl]
    exact beq_self_eq_true _
  · rcases lt_trichotomy j k with h' | rfl | h'
    · rw [compare_gt_iff_gt.mpr h, compare_lt_iff_lt.mpr h']
      rfl
    · rw [compare_gt_iff_gt.mpr h, compare_eq_iff_eq.mpr rfl]
      rfl
    · rw [compare_gt_iff_gt.mpr h, compare_gt_iff_gt.mpr h', compare_gt_iff_gt.mpr (h'.trans h)]
      rfl

/-- The first and the second exchanged. -/
theorem coherent_swap_left (h : coherent ab bc ac = true) : coherent ab.swap ac bc = true := by
  cases ab <;> cases bc <;> cases ac <;> first | rfl | cases h

/-- The second and the third exchanged. -/
theorem coherent_swap_right (h : coherent ab bc ac = true) : coherent ac bc.swap ab = true := by
  cases ab <;> cases bc <;> cases ac <;> first | rfl | cases h

theorem coherent_isLE (h : coherent ab bc ac = true) (hab : ab.isLE = true)
    (hbc : bc.isLE = true) : ac.isLE = true := by
  cases ab <;> cases bc <;> cases ac <;>
    first
      | rfl
      | exact absurd h (by decide)
      | exact absurd hab (by decide)
      | exact absurd hbc (by decide)

/-- Lexicographic: the second comparisons count when the first are all equal. -/
theorem coherent_then {ab' bc' ac' : Ordering} (h : coherent ab bc ac = true)
    (h' : ab = .eq → bc = .eq → ac = .eq → coherent ab' bc' ac' = true) :
    coherent (ab.then ab') (bc.then bc') (ac.then ac') = true := by
  cases ab <;> cases bc <;> cases ac <;> first
    | exact absurd h (by decide)
    | exact h' rfl rfl rfl
    | (cases ab' <;> rfl)
    | (cases bc' <;> rfl)

end Coherent

/-! ### Sorting by an order -/

section Spec
variable {α : Type} {less : α → α → StateT σ (Except ε) Bool} {lt : α → α → Bool} {S : α → Prop}
  {x : α} {xs ys : List α}

/-- The comparison answers by `lt`, whatever else it does. -/
def Answers (less : α → α → StateT σ (Except ε) Bool) (lt : α → α → Bool) (S : α → Prop) : Prop :=
  ∀ a b, S a → S b → ∀ w, ∃ w', less a b w = .ok (lt a b, w')

theorem insertSorted_spec (hless : Answers less lt S) (hlt : StrictWeak lt S) (hx : S x)
    (hys : ∀ y ∈ ys, S y) (hsorted : Sorted lt ys) (w : σ) :
    ∃ zs w', insertSorted less x ys w = .ok (zs, w') ∧ zs.Perm (x :: ys) ∧ Sorted lt zs ∧
      ∀ a, S a → zs.filter (same lt a) = ys.filter (same lt a) ++ [x].filter (same lt a) := by
  induction ys generalizing w with
  | nil => exact ⟨[x], w, rfl, .refl _, List.pairwise_singleton .., fun a _ => rfl⟩
  | cons y ys ih =>
    obtain ⟨w₁, hanswer⟩ := hless x y hx (hys y (by simp)) w
    cases hxy : lt x y with
    | true =>
      have hbefore := sorted_insert hlt hx hys hsorted hxy
      refine ⟨x :: y :: ys, w₁, ?_, .refl _, ?_, fun a ha => ?_⟩
      · rw [hxy] at hanswer
        rw [insertSorted, run_bind hanswer]
        rfl
      · exact List.pairwise_cons.mpr
          ⟨fun z hz => hlt.asymm x z hx (hys z hz) (hbefore z hz), hsorted⟩
      · cases hax : same lt a x with
        | false => simp [hax]
        | true =>
          -- what is the same as x would stand before x
          have hnone : (y :: ys).filter (same lt a) = [] := by
            rw [List.filter_eq_nil_iff]
            intro z hz haz
            have hnot := hlt.not_lt_of_same ha hx (hys z hz) hax haz
            rw [hbefore z hz] at hnot
            cases hnot
          rw [List.filter_cons_of_pos hax, hnone]
          simp [hax]
    | false =>
      rw [hxy] at hanswer
      obtain ⟨hhead, htail⟩ := List.pairwise_cons.mp hsorted
      obtain ⟨zs, w₂, hrun, hperm, hzs, hstable⟩ :=
        ih (fun z hz => hys z (List.mem_cons_of_mem y hz)) htail w₁
      refine ⟨y :: zs, w₂, ?_, ?_, ?_, fun a ha => ?_⟩
      · rw [insertSorted, run_bind hanswer, if_neg Bool.false_ne_true, run_bind hrun]
        rfl
      · exact (hperm.cons y).trans (.swap x y ys)
      · refine List.pairwise_cons.mpr ⟨fun z hz => ?_, hzs⟩
        rcases List.mem_cons.mp (hperm.mem_iff.mp hz) with rfl | hmem
        · exact hxy
        · exact hhead z hmem
      · rw [List.filter_cons, List.filter_cons, hstable a ha]
        split <;> rfl

theorem insertAll_spec (hless : Answers less lt S) (hlt : StrictWeak lt S) (hxs : ∀ x ∈ xs, S x)
    (hys : ∀ y ∈ ys, S y) (hsorted : Sorted lt ys) (w : σ) :
    ∃ zs w', insertAll less ys xs w = .ok (zs, w') ∧ zs.Perm (ys ++ xs) ∧ Sorted lt zs ∧
      ∀ a, S a → zs.filter (same lt a) = (ys ++ xs).filter (same lt a) := by
  induction xs generalizing ys w with
  | nil => exact ⟨ys, w, rfl, by simp, hsorted, fun a _ => by simp⟩
  | cons x xs ih =>
    obtain ⟨ys', w₁, hinsert, hperm, hys', hstable⟩ :=
      insertSorted_spec hless hlt (hxs x (by simp)) hys hsorted w
    have hmem : ∀ y ∈ ys', S y := by
      intro y hy
      rcases List.mem_cons.mp (hperm.mem_iff.mp hy) with rfl | h
      · exact hxs y (by simp)
      · exact hys y h
    obtain ⟨zs, w₂, hrun, hperm', hzs, hstable'⟩ :=
      ih (fun z hz => hxs z (List.mem_cons_of_mem x hz)) hmem hys' w₁
    refine ⟨zs, w₂, ?_, ?_, hzs, fun a ha => ?_⟩
    · rw [insertAll, run_bind hinsert]
      exact hrun
    · exact (hperm'.trans (hperm.append_right xs)).trans List.perm_middle.symm
    · rw [hstable' a ha, List.filter_append, hstable a ha, List.filter_append, List.append_assoc,
        ← List.filter_append]
      rfl

/-- A permutation in order, in which what is the same keeps its order. -/
theorem stableSort_spec (hless : Answers less lt S) (hlt : StrictWeak lt S)
    (hxs : ∀ x ∈ xs, S x) (w : σ) :
    ∃ zs w', stableSort less xs w = .ok (zs, w') ∧ zs.Perm xs ∧ Sorted lt zs ∧
      ∀ a, S a → zs.filter (same lt a) = xs.filter (same lt a) :=
  insertAll_spec hless hlt hxs (by simp) List.Pairwise.nil w

end Spec
end ProtoClojure.StableSort
