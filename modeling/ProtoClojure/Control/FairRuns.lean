import Mathlib.Data.Nat.Init
import Mathlib.Logic.Relation
import Mathlib.Order.Basic
import Mathlib.Order.Nat

/-! Fair runs of a relation whose steps name who takes them. -/
namespace ProtoClojure.FairRuns

variable {S A : Type*} {step : A → S → S → Prop} {fair : A → Prop} {init : S}

def Enabled (step : A → S → S → Prop) (a : A) (s : S) : Prop := ∃ s', step a s s'

def Reachable (step : A → S → S → Prop) (init : S) : S → Prop :=
  Relation.ReflTransGen (fun s s' => ∃ a, step a s s') init

theorem Reachable.rec_on {motive : S → Prop} {s : S} (reach : Reachable step init s)
    (start : motive init)
    (kept : ∀ a s s', Reachable step init s → motive s → step a s s' → motive s') : motive s := by
  induction reach with
  | refl => exact start
  | tail before last ih =>
    obtain ⟨a, h⟩ := last
    exact kept a _ _ before ih h

theorem Reachable.next {a : A} {s s' : S} (reach : Reachable step init s) (h : step a s s') :
    Reachable step init s' :=
  Relation.ReflTransGen.tail reach ⟨a, h⟩

/-- A run may stand still, but whoever is fair takes a step again and again, or again and again
has none to take. -/
structure Run (step : A → S → S → Prop) (fair : A → Prop) (init : S) where
  state : Nat → S
  start : state 0 = init
  stepped : ∀ n, state (n + 1) = state n ∨ ∃ a, step a (state n) (state (n + 1))
  just : ∀ a, fair a → ∀ n, ∃ m, n ≤ m ∧
    (Enabled step a (state m) → step a (state m) (state (m + 1)))

theorem Run.reachable (run : Run step fair init) (n : Nat) :
    Reachable step init (run.state n) := by
  induction n with
  | zero =>
    rw [run.start]
    exact .refl
  | succ n ih =>
    obtain same | ⟨a, h⟩ := run.stepped n
    · rw [same]
      exact ih
    · exact ih.next h

theorem Run.kept {inv : S → Prop} (run : Run step fair init)
    (kept : ∀ a s s', inv s → step a s s' → inv s') {n m : Nat} (h : inv (run.state n))
    (later : n ≤ m) : inv (run.state m) := by
  induction m, later using Nat.le_induction with
  | base => exact h
  | succ m later ih =>
    obtain same | ⟨a, step⟩ := run.stepped m
    · rw [same]
      exact ih
    · exact kept a _ _ ih step

/-- No step raises the measure, and while it is positive somebody fair can only lower it. -/
structure Descent (step : A → S → S → Prop) (fair : A → Prop) (inv : S → Prop)
    (measure : S → Nat) (helpful : S → A) : Prop where
  kept : ∀ a s s', inv s → step a s s' → inv s'
  able : ∀ s, inv s → 0 < measure s → fair (helpful s) ∧ Enabled step (helpful s) s
  lower : ∀ s s', inv s → 0 < measure s → step (helpful s) s s' → measure s' < measure s
  level : ∀ a s s', inv s → 0 < measure s → step a s s' →
    measure s' < measure s ∨ measure s' = measure s ∧ helpful s' = helpful s

namespace Descent

variable {inv : S → Prop} {measure : S → Nat} {helpful : S → A}

/-- Until the measure goes down, the one who can lower it stays the same. -/
theorem lowered_or_waiting (d : Descent step fair inv measure helpful) (run : Run step fair init)
    {n m : Nat} (h : inv (run.state n)) (pos : 0 < measure (run.state n)) (later : n ≤ m) :
    (∃ k, n ≤ k ∧ measure (run.state k) < measure (run.state n)) ∨
      measure (run.state m) = measure (run.state n) ∧
        helpful (run.state m) = helpful (run.state n) := by
  induction m, later using Nat.le_induction with
  | base => exact .inr ⟨rfl, rfl⟩
  | succ m later ih =>
    obtain lowered | ⟨level, waiting⟩ := ih
    · exact .inl lowered
    · obtain same | ⟨a, step⟩ := run.stepped m
      · exact .inr (by rw [same]; exact ⟨level, waiting⟩)
      · obtain lowered | ⟨level', waiting'⟩ :=
          d.level a _ _ (run.kept d.kept h later) (by omega) step
        · exact .inl ⟨m + 1, by omega, by omega⟩
        · exact .inr ⟨level'.trans level, waiting'.trans waiting⟩

theorem lowered (d : Descent step fair inv measure helpful) (run : Run step fair init) {n : Nat}
    (h : inv (run.state n)) (pos : 0 < measure (run.state n)) :
    ∃ m, n ≤ m ∧ measure (run.state m) < measure (run.state n) := by
  obtain ⟨m, later, takes⟩ := run.just _ (d.able _ h pos).1 n
  obtain lowered | ⟨level, waiting⟩ := d.lowered_or_waiting run h pos later
  · exact lowered
  · have there := run.kept d.kept h later
    have pos' : 0 < measure (run.state m) := by omega
    have able := (d.able _ there pos').2
    rw [← waiting] at takes
    have less := d.lower _ _ there pos' (takes able)
    exact ⟨m + 1, by omega, by omega⟩

theorem reaches_zero (d : Descent step fair inv measure helpful) (run : Run step fair init)
    (n : Nat) (h : inv (run.state n)) : ∃ m, n ≤ m ∧ measure (run.state m) = 0 := by
  induction hk : measure (run.state n) using Nat.strong_induction_on generalizing n with
  | _ k ih =>
    subst hk
    rcases Nat.eq_zero_or_pos (measure (run.state n)) with zero | pos
    · exact ⟨n, le_refl n, zero⟩
    · obtain ⟨m, later, less⟩ := d.lowered run h pos
      obtain ⟨m', later', zero⟩ := ih _ less m (run.kept d.kept h later) rfl
      exact ⟨m', later.trans later', zero⟩

end Descent
end ProtoClojure.FairRuns
