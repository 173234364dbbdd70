import Mathlib.Data.List.Basic
import Mathlib.Data.List.Infix
import Mathlib.Data.List.Nodup

/-! A table that holds each value once, at the index it was first added under. -/
namespace ProtoClojure.InternTable

variable {α : Type} [DecidableEq α]

/-- The index of `x`, added at the end when it is new. -/
def add (l : List α) (x : α) : Nat × List α :=
  (l.idxOf x, if x ∈ l then l else l ++ [x])

def addAll : List α → List α → List Nat × List α
  | l, [] => ([], l)
  | l, x :: xs =>
    let r := add l x
    let s := addAll r.2 xs
    (r.1 :: s.1, s.2)

section
variable {l : List α} {x : α} {xs : List α}

theorem prefix_add : l <+: (add l x).2 := by
  unfold add
  split
  · exact List.prefix_refl l
  · exact List.prefix_append l [x]

theorem getElem?_add : (add l x).2[(add l x).1]? = some x := by
  unfold add
  split
  · rename_i hx
    have hlt : l.idxOf x < l.length := List.idxOf_lt_length_of_mem hx
    rw [List.getElem?_eq_getElem hlt, List.getElem_idxOf]
  · rename_i hx
    rw [List.idxOf_eq_length hx, List.getElem?_concat_length]

theorem nodup_add (h : l.Nodup) : (add l x).2.Nodup := by
  unfold add
  split
  · exact h
  · rename_i hx
    exact List.nodup_append.mpr ⟨h, List.pairwise_singleton _ x, fun a ha b hb => by
      rw [List.mem_singleton.mp hb]
      exact fun heq => hx (heq ▸ ha)⟩

omit [DecidableEq α] in
theorem getElem?_of_prefix {l' : List α} (h : l <+: l') {i : Nat} (hi : l[i]? = some x) :
    l'[i]? = some x := by
  obtain ⟨t, rfl⟩ := h
  have hlt : i < l.length := (List.getElem?_eq_some_iff.mp hi).1
  rw [List.getElem?_append_left hlt, hi]

theorem prefix_addAll (l xs : List α) : l <+: (addAll l xs).2 := by
  induction xs generalizing l with
  | nil => exact List.prefix_refl l
  | cons x xs ih => exact prefix_add.trans (ih _)

theorem nodup_addAll (h : l.Nodup) (xs : List α) : (addAll l xs).2.Nodup := by
  induction xs generalizing l with
  | nil => exact h
  | cons x xs ih => exact ih (nodup_add h)

theorem addAll_append (l xs ys : List α) :
    (addAll l (xs ++ ys)).1 = (addAll l xs).1 ++ (addAll (addAll l xs).2 ys).1 ∧
      (addAll l (xs ++ ys)).2 = (addAll (addAll l xs).2 ys).2 := by
  induction xs generalizing l with
  | nil => exact ⟨rfl, rfl⟩
  | cons x xs ih => exact ⟨congrArg (_ :: ·) (ih _).1, (ih _).2⟩

/-- The index answered for the `k`th value added denotes it in the table so far. -/
theorem addAll_resolves (l : List α) {xs : List α} {k : Nat} (hk : xs[k]? = some x) :
    ∃ i, (addAll l xs).1[k]? = some i ∧ (addAll l xs).2[i]? = some x := by
  induction xs generalizing l k with
  | nil => cases hk
  | cons y xs ih =>
    cases k with
    | zero =>
      obtain rfl := Option.some.inj hk
      exact ⟨_, rfl, getElem?_of_prefix (prefix_addAll _ xs) getElem?_add⟩
    | succ k => exact ih _ hk

/-- An index stands for one value, and a value has one index. -/
theorem addAll_index_eq (h : l.Nodup) {j k i i' : Nat} {y : α} (hj : xs[j]? = some x)
    (hk : xs[k]? = some y) (hi : (addAll l xs).1[j]? = some i)
    (hi' : (addAll l xs).1[k]? = some i') : i = i' ↔ x = y := by
  obtain ⟨m, hm, hx⟩ := addAll_resolves l hj
  obtain ⟨n, hn, hy⟩ := addAll_resolves l hk
  obtain rfl := Option.some.inj (hm.symm.trans hi)
  obtain rfl := Option.some.inj (hn.symm.trans hi')
  constructor
  · rintro rfl
    exact Option.some.inj (hx.symm.trans hy)
  · rintro rfl
    have hm : m < (addAll l xs).2.length := (List.getElem?_eq_some_iff.mp hx).1
    exact (List.getElem?_inj hm (nodup_addAll h xs)).mp (hx.trans hy.symm)

end
end ProtoClojure.InternTable
