import Mathlib.Data.List.Chain

/-! The components of a path: what stands between its separators. -/
namespace ProtoClojure

variable {α : Type} [BEq α] [LawfulBEq α]

/-- Empty components do not count. -/
def components (sep : α) (s : List α) : List (List α) := (s.splitOn sep).filter fun c => !c.isEmpty

variable {sep : α}

omit [LawfulBEq α] in
@[simp] theorem components_nil : components sep [] = [] := rfl

theorem components_append_cons (s t : List α) :
    components sep (s ++ sep :: t) = components sep s ++ components sep t := by
  unfold components
  rw [List.splitOn_append_cons_self, List.filter_append]

theorem components_cons (t : List α) : components sep (sep :: t) = components sep t :=
  components_append_cons [] t

theorem components_concat (s : List α) : components sep (s ++ [sep]) = components sep s := by
  rw [components_append_cons, components_nil, List.append_nil]

/-- What follows a prefix is components of its own when a separator stands on either side of the
cut. -/
theorem components_append {s t : List α}
    (h : t = [] ∨ s.getLast? = some sep ∨ t.head? = some sep) :
    components sep (s ++ t) = components sep s ++ components sep t := by
  rcases h with rfl | h | h
  · simp
  · obtain ⟨s, rfl⟩ := List.getLast?_eq_some_iff.mp h
    rw [List.append_assoc, List.singleton_append, components_append_cons, components_concat]
  · obtain ⟨t, rfl⟩ := List.head?_eq_some_iff.mp h
    rw [components_append_cons, components_cons]

theorem components_of_seps {t : List α} (h : ∀ c ∈ t, c = sep) : components sep t = [] := by
  induction t with
  | nil => rfl
  | cons c t ih =>
    obtain ⟨rfl, ht⟩ := List.forall_mem_cons.mp h
    rw [components_cons, ih ht]

theorem components_append_seps (s : List α) {t : List α} (h : ∀ c ∈ t, c = sep) :
    components sep (s ++ t) = components sep s := by
  rw [components_append, components_of_seps h, List.append_nil]
  cases t with
  | nil => exact .inl rfl
  | cons c t =>
    obtain rfl := h c List.mem_cons_self
    exact .inr (.inr rfl)

theorem components_of_notMem {s : List α} (hne : s ≠ []) (h : sep ∉ s) : components sep s = [s] := by
  unfold components
  rw [List.splitOn_eq_singleton h]
  simp [hne]

/-! ### Single separators -/

/-- No separator stands at an end or beside another. -/
structure Tight (sep : α) (s : List α) : Prop where
  head : s.head? ≠ some sep
  last : s.getLast? ≠ some sep
  single : s.IsChain fun c d => c = sep → d ≠ sep

omit [BEq α] [LawfulBEq α] in
theorem Tight.next {a t : List α} (h : Tight sep (a ++ sep :: t)) : t ≠ [] ∧ Tight sep t := by
  have hne : t ≠ [] := by
    rintro rfl
    exact h.last List.getLast?_concat
  obtain ⟨c, t, rfl⟩ := List.exists_cons_of_ne_nil hne
  obtain ⟨-, hc, hsingle⟩ := List.isChain_append_cons_cons.mp h.single
  refine ⟨hne, fun hhead => hc rfl (Option.some.inj hhead), fun hlast => h.last ?_, hsingle⟩
  rw [List.getLast?_append_cons, List.getLast?_cons_cons, hlast]

/-- The first component, and a tight list after it. -/
theorem Tight.split {s : List α} (h : Tight sep s) (hne : s ≠ []) :
    components sep s = [s] ∨
      ∃ a t, s = a ++ sep :: t ∧ t ≠ [] ∧ Tight sep t ∧ components sep s = a :: components sep t := by
  by_cases hmem : sep ∈ s
  · obtain ⟨a, t, rfl, ha⟩ := List.eq_append_cons_of_mem hmem
    obtain ⟨ht, htight⟩ := h.next
    have hane : a ≠ [] := by
      rintro rfl
      exact h.head rfl
    refine .inr ⟨a, t, rfl, ht, htight, ?_⟩
    rw [components_append_cons, components_of_notMem hane ha]
    rfl
  · exact .inl (components_of_notMem hne hmem)

theorem Tight.components_ne_nil {s : List α} (h : Tight sep s) (hne : s ≠ []) : components sep s ≠ [] := by
  rcases h.split hne with hc | ⟨a, t, -, -, -, hc⟩ <;> rw [hc] <;> exact List.cons_ne_nil _ _

/-- A tight list whose components begin those of another begins it, up to a separator. -/
theorem Tight.begins_of_components {r s : List α} (hr : Tight sep r) (hs : Tight sep s) (hne : r ≠ [])
    (h : components sep r <+: components sep s) : ∃ t, s = r ++ t ∧ (t = [] ∨ t.head? = some sep) := by
  have hsne : s ≠ [] := by
    rintro rfl
    exact hr.components_ne_nil hne (List.prefix_nil.mp h)
  induction hk : r.length using Nat.strongRecOn generalizing r s with
  | _ k ih =>
    rcases hr.split hne with hcr | ⟨a, r, rfl, hrne, hrt, hcr⟩
    · rcases hs.split hsne with hcs | ⟨b, s, rfl, -, -, hcs⟩
      · rw [hcr, hcs] at h
        obtain rfl := (List.cons_prefix_cons.mp h).1
        exact ⟨[], (List.append_nil r).symm, .inl rfl⟩
      · rw [hcr, hcs] at h
        obtain rfl := (List.cons_prefix_cons.mp h).1
        exact ⟨sep :: s, rfl, .inr rfl⟩
    · rcases hs.split hsne with hcs | ⟨b, s, rfl, hmorene, hst, hcs⟩
      · rw [hcr, hcs] at h
        exact absurd (List.prefix_nil.mp (List.cons_prefix_cons.mp h).2) (hrt.components_ne_nil hrne)
      · rw [hcr, hcs] at h
        obtain ⟨rfl, hmore⟩ := List.cons_prefix_cons.mp h
        have hlt : r.length < k := by
          rw [← hk, List.length_append, List.length_cons]
          omega
        obtain ⟨t, rfl, ht⟩ := ih r.length hlt hrt hst hrne hmore hmorene rfl
        exact ⟨t, by simp, ht⟩

end ProtoClojure
