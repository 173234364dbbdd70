import Mathlib.Data.Finset.Card
import Mathlib.Logic.Relation
import Mathlib.Tactic.Common

/-! Walks over places with a level at each: where no way round gains, the number of places bounds
the levels. -/
namespace ProtoClojure.LevelWalks
open Relation (ReflTransGen)

variable {ι : Type*} {R : ι × ℤ → ι × ℤ → Prop} {start s u : ι × ℤ} {S : Finset ι}

/-- Some way from the start comes round to a place with a higher level than before. -/
def Gains (R : ι × ℤ → ι × ℤ → Prop) (start : ι × ℤ) : Prop :=
  ∃ i d d', ReflTransGen R start (i, d) ∧ ReflTransGen R (i, d) (i, d') ∧ d < d'

/-- A step to a place of `S`. -/
def Within (R : ι × ℤ → ι × ℤ → Prop) (S : Finset ι) (s t : ι × ℤ) : Prop := R s t ∧ t.1 ∈ S

theorem walk_of_within (h : ReflTransGen (Within R S) s u) : ReflTransGen R s u :=
  ReflTransGen.mono (p := R) (fun _ _ hstep => hstep.1) _ _ h

/-- A walk comes to a place for the last time and goes on among the others. -/
theorem last_visit [DecidableEq ι] {i : ι} {x : ℤ} (h : ReflTransGen (Within R S) (i, x) u) :
    ∃ y, ReflTransGen R (i, x) (i, y) ∧ ReflTransGen (Within R (S.erase i)) (i, y) u := by
  induction h with
  | refl => exact ⟨x, .refl, .refl⟩
  | @tail s u hs hstep ih =>
    by_cases hu : u.1 = i
    · obtain ⟨j, z⟩ := u
      obtain rfl : j = i := hu
      exact ⟨z, (walk_of_within hs).tail hstep.1, .refl⟩
    · obtain ⟨y, hround, hrest⟩ := ih
      exact ⟨y, hround, hrest.tail ⟨hstep.1, Finset.mem_erase.mpr ⟨hu, hstep.2⟩⟩⟩

/-- Each place of `S` raises the level by one at most. -/
theorem level_within [DecidableEq ι] (hR : ∀ s t, R s t → t.2 ≤ s.2 + 1) (hno : ¬ Gains R start) {n : ℕ}
    (hn : S.card ≤ n) (hs : ReflTransGen R start s) (h : ReflTransGen (Within R S) s u) : u.2 ≤ s.2 + n := by
  induction n generalizing S s with
  | zero =>
    rcases h.cases_head with rfl | ⟨v, hv, -⟩
    · omega
    · exact absurd (Finset.card_pos.mpr ⟨_, hv.2⟩) (by omega)
  | succ n ih =>
    rcases h.cases_head with rfl | ⟨⟨t, x⟩, hv, hrest⟩
    · omega
    · obtain ⟨y, hround, hlast⟩ := last_visit hrest
      have hreach := hs.tail hv.1
      have hle : y ≤ x := by
        by_contra hlt
        exact hno ⟨t, x, y, hreach, hround, by omega⟩
      have hcard : (S.erase t).card ≤ n := by
        rw [Finset.card_erase_of_mem hv.2]
        omega
      have hrest : u.2 ≤ y + n := ih hcard (hreach.trans hround) hlast
      have hfirst : x ≤ s.2 + 1 := hR _ _ hv.1
      omega

theorem level_le [DecidableEq ι] (hR : ∀ s t, R s t → t.2 ≤ s.2 + 1) (hS : ∀ s t, R s t → t.1 ∈ S)
    (hno : ¬ Gains R start) (h : ReflTransGen R start u) : u.2 ≤ start.2 + S.card :=
  level_within hR hno (Nat.le_refl _) .refl
    (ReflTransGen.mono (p := Within R S) (fun s t hstep => ⟨hstep, hS s t hstep⟩) _ _ h)

end ProtoClojure.LevelWalks
