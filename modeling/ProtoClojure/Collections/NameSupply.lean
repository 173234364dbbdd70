import Mathlib.Logic.Function.Basic

/-! Names given to keys when they are first asked for, each made of a key and a number that a
counter has not given before. -/
namespace ProtoClojure.NameSupply

variable {K N : Type} {name : K → Nat → N} {table : K → Option N} {lo hi n : Nat}

/-- The named keys have names of their own, with numbers given after `lo` and up to `hi`. -/
structure Drawn (name : K → Nat → N) (lo hi : Nat) (table : K → Option N) : Prop where
  numbered : ∀ k s, table k = some s → ∃ n, lo < n ∧ n ≤ hi ∧ s = name k n
  apart : ∀ k k' s, table k = some s → table k' = some s → k = k'

theorem drawn_none (name : K → Nat → N) (lo : Nat) : Drawn name lo lo fun _ => none where
  numbered k s h := by cases h
  apart k k' s h := by cases h

theorem Drawn.mono (h : Drawn name lo hi table) (hle : hi ≤ n) : Drawn name lo n table where
  numbered k s hk := by
    obtain ⟨m, hlo, hhi, hs⟩ := h.numbered k s hk
    exact ⟨m, hlo, Nat.le_trans hhi hle, hs⟩
  apart := h.apart

/-- The table says less. -/
theorem Drawn.sub {table' : K → Option N} (h : Drawn name lo hi table)
    (hsub : ∀ k s, table' k = some s → table k = some s) : Drawn name lo hi table' where
  numbered k s hk := h.numbered k s (hsub k s hk)
  apart k k' s hk hk' := h.apart k k' s (hsub k s hk) (hsub k' s hk')

section
variable (hname : ∀ k k' n n', name k n = name k' n' → n = n')
include hname

/-- A key is named by the next number. -/
theorem Drawn.draw [DecidableEq K] (h : Drawn name lo hi table) (hle : lo ≤ hi) (k : K) :
    Drawn name lo (hi + 1) (Function.update table k (some (name k (hi + 1)))) where
  numbered k' s hk := by
    by_cases hkk : k' = k
    · subst hkk
      rw [Function.update_self] at hk
      cases hk
      exact ⟨hi + 1, Nat.lt_succ_of_le hle, Nat.le_refl _, rfl⟩
    · rw [Function.update_of_ne hkk] at hk
      obtain ⟨m, hlo, hhi, hs⟩ := h.numbered k' s hk
      exact ⟨m, hlo, Nat.le_succ_of_le hhi, hs⟩
  apart k₁ k₂ s h₁ h₂ := by
    have hnew : ∀ k', table k' = some (name k (hi + 1)) → False := by
      intro k' hk'
      obtain ⟨m, -, hhi, hs⟩ := h.numbered k' _ hk'
      have hm : hi + 1 = m := hname _ _ _ _ hs
      omega
    by_cases hk₁ : k₁ = k
    · by_cases hk₂ : k₂ = k
      · rw [hk₁, hk₂]
      · rw [hk₁, Function.update_self] at h₁
        rw [Function.update_of_ne hk₂] at h₂
        cases h₁
        exact (hnew k₂ h₂).elim
    · rw [Function.update_of_ne hk₁] at h₁
      by_cases hk₂ : k₂ = k
      · rw [hk₂, Function.update_self] at h₂
        cases h₂
        exact (hnew k₁ h₁).elim
      · rw [Function.update_of_ne hk₂] at h₂
        exact h.apart k₁ k₂ s h₁ h₂

/-- The names of two tables whose numbers were given one after the other differ. -/
theorem Drawn.ne {table' : K → Option N} {lo' hi' : Nat} {k k' : K} {s s' : N}
    (h : Drawn name lo hi table) (h' : Drawn name lo' hi' table') (hle : hi ≤ lo')
    (hk : table k = some s) (hk' : table' k' = some s') : s ≠ s' := by
  obtain ⟨m, -, hhi, rfl⟩ := h.numbered k s hk
  obtain ⟨m', hlo', -, rfl⟩ := h'.numbered k' s' hk'
  intro heq
  have := hname _ _ _ _ heq
  omega

end
end ProtoClojure.NameSupply
