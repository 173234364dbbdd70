import Mathlib.Data.Nat.Basic
import Mathlib.Data.Option.Basic
import Mathlib.Tactic.Common

/-! The windows of a sequence, finite or infinite: `none` marks its end. -/
namespace ProtoClojure.Windows

variable {α : Type}

def drop (es : Nat → Option α) (s : Nat) : Nat → Option α := fun k => es (k + s)

/-- At most `n` elements from the front. -/
def firsts : Nat → (Nat → Option α) → List α
  | 0, _ => []
  | n + 1, es =>
    match es 0 with
    | none => []
    | some x => x :: firsts n (drop es 1)

/-- What the window from `i * step` on holds, up to `n` elements. -/
def window (n step : Nat) (es : Nat → Option α) (i : Nat) : List α := firsts n (drop es (i * step))

/-- No window before the `i`-th is short. -/
def FullBefore (n step : Nat) (es : Nat → Option α) (i : Nat) : Prop :=
  ∀ j < i, (window n step es j).length = n

instance {n step : Nat} {es : Nat → Option α} {i : Nat} : Decidable (FullBefore n step es i) :=
  inferInstanceAs (Decidable (∀ j < i, _))

/-- No element comes after the end. -/
def Closed (es : Nat → Option α) : Prop := ∀ k, es k = none → es (k + 1) = none

variable {n step i k : Nat} {es : Nat → Option α}

theorem drop_zero : drop es 0 = es := rfl

theorem drop_drop (s t : Nat) : drop (drop es s) t = drop es (t + s) := by
  funext k
  exact congrArg es (Nat.add_assoc k t s)

theorem Closed.none_of_le (h : Closed es) {l : Nat} (hk : es k = none) (hl : k ≤ l) :
    es l = none := by
  induction l, hl using Nat.le_induction with
  | base => exact hk
  | succ l _ ih => exact h l ih

theorem Closed.drop (h : Closed es) (s : Nat) : Closed (drop es s) := by
  intro k hk
  have hnext := h (k + s) hk
  rwa [Nat.add_right_comm] at hnext

theorem firsts_length_le : (firsts n es).length ≤ n := by
  induction n generalizing es with
  | zero => exact Nat.le_refl 0
  | succ n ih =>
    rw [firsts]
    split
    · exact Nat.zero_le _
    · exact Nat.succ_le_succ ih

/-- A full window is one whose last element is there. -/
theorem firsts_full_iff (h : Closed es) :
    (firsts (n + 1) es).length = n + 1 ↔ (es n).isSome = true := by
  induction n generalizing es with
  | zero => cases h0 : es 0 <;> simp [firsts, h0]
  | succ n ih =>
    rw [firsts]
    cases h0 : es 0 with
    | none => simp [h.none_of_le h0 (Nat.zero_le (n + 1))]
    | some x =>
      have hrest := ih (h.drop 1)
      simpa [Windows.drop] using hrest

theorem window_zero : window n step es 0 = firsts n es := by
  rw [window, Nat.zero_mul, drop_zero]

theorem window_succ : window n step es (i + 1) = window n step (drop es step) i := by
  rw [window, window, drop_drop, Nat.succ_mul]

theorem drop_succ_mul (es : Nat → Option α) (step i : Nat) :
    es ((i + 1) * step) = drop es step (i * step) :=
  congrArg es (Nat.succ_mul i step)

theorem fullBefore_zero : FullBefore n step es 0 := fun _ hj => absurd hj (Nat.not_lt_zero _)

theorem fullBefore_succ : FullBefore n step es (i + 1) ↔
    (firsts n es).length = n ∧ FullBefore n step (drop es step) i := by
  have hshift := Nat.forall_lt_succ_left (n := i) (p := fun j => (window n step es j).length = n)
  simp only [window_zero, window_succ] at hshift
  exact hshift

end ProtoClojure.Windows
