import ProtoClojure.Sequences.Traversals
import ProtoClojure.Collections.LazyLists

/-! The lazy list a value stands for: what a walk of it can learn. -/
namespace ProtoClojure.Sequences
open Recursion LazyLists LazyList

variable {ω : Type} [DecidableEq ω] {H : Host ω}

def Learns (H : Host ω) (v : Value ω) (p : PartialList (Value ω)) : Prop :=
  if p.complete then Ends H v p.items else Shows H v p.items

section
variable {v u : Value ω} {s : Option (Node ω)} {xs ys : List (Value ω)}
  {p q : PartialList (Value ω)}

theorem learns_ends : Learns H v ⟨xs, true⟩ ↔ Ends H v xs := Iff.rfl

theorem Learns.shows (h : Learns H v p) : Shows H v p.items := by
  unfold Learns at h
  split at h
  · exact h.shows
  · exact h

theorem Shows.comparable (h : Shows H v xs) (h' : Shows H v ys) : xs <+: ys ∨ ys <+: xs := by
  induction xs generalizing v ys with
  | nil => exact .inl List.nil_prefix
  | cons x xs ih =>
    cases ys with
    | nil => exact .inr List.nil_prefix
    | cons y ys =>
      obtain ⟨n, hn, rfl, h⟩ := h
      obtain ⟨n', hn', rfl, h'⟩ := h'
      obtain rfl := Option.some.inj (hn.unique hn')
      exact (ih h h').imp (fun hp => List.cons_prefix_cons.mpr ⟨rfl, hp⟩)
        fun hp => List.cons_prefix_cons.mpr ⟨rfl, hp⟩

/-- Past the end nothing is shown. -/
theorem Ends.prefix_of_shows (h : Ends H v xs) (h' : Shows H v ys) : ys <+: xs := by
  induction xs generalizing v ys with
  | nil =>
    cases ys with
    | nil => exact List.prefix_rfl
    | cons y ys =>
      obtain ⟨n, hn, -, -⟩ := h'
      cases SeqOf.unique h hn
  | cons x xs ih =>
    cases ys with
    | nil => exact List.nil_prefix
    | cons y ys =>
      obtain ⟨n, hn, rfl, h⟩ := h
      obtain ⟨n', hn', rfl, h'⟩ := h'
      obtain rfl := Option.some.inj (hn.unique hn')
      exact List.cons_prefix_cons.mpr ⟨rfl, ih h h'⟩

theorem Learns.comparable (hp : Learns H v p) (hq : Learns H v q) : p ≤ q ∨ q ≤ p := by
  obtain ⟨xs, c⟩ := p
  obtain ⟨ys, d⟩ := q
  cases c with
  | false =>
    cases d with
    | false => exact (hp.shows.comparable hq.shows).imp (fun h => .inr ⟨rfl, h⟩) fun h => .inr ⟨rfl, h⟩
    | true => exact .inl (.inr ⟨rfl, Ends.prefix_of_shows hq hp⟩)
  | true =>
    cases d with
    | false => exact .inr (.inr ⟨rfl, Ends.prefix_of_shows hp hq⟩)
    | true =>
      obtain rfl : xs = ys := Ends.unique hp hq
      exact .inl (le_refl _)

theorem Learns.of_le (h : Learns H v p) (hle : q ≤ p) : Learns H v q := by
  rcases hle with rfl | ⟨hq, hqp⟩
  · exact h
  · unfold Learns
    rw [hq]
    exact h.shows.of_prefix hqp

/-- The list a walk of the value meets. -/
def contents (H : Host ω) (v : Value ω) : LazyList (Value ω) :=
  Order.IsIdeal.toIdeal (I := {p | Learns H v p})
    { IsLowerSet := fun _ _ hle h => Learns.of_le h hle
      Nonempty := ⟨⊥, trivial⟩
      Directed := by
        intro p hp q hq
        rcases Learns.comparable hp hq with h | h
        · exact ⟨q, hq, h, le_refl q⟩
        · exact ⟨p, hp, le_refl p, h⟩ }

theorem mem_contents : p ∈ contents H v ↔ Learns H v p := Iff.rfl

theorem contents_congr (h : ∀ s, SeqOf H v s ↔ SeqOf H u s) : contents H v = contents H u := by
  refine ext_iff_mem.mpr fun p => ?_
  rw [mem_contents, mem_contents]
  unfold Learns
  split
  · exact ends_congr h
  · exact shows_congr h

theorem SeqOf.contents (h : SeqOf H v s) : contents H v = contents H (.ofSeq s) :=
  contents_congr fun _ => h.iff_ofSeq

theorem contents_orEmpty : contents H v.orEmpty = contents H v := contents_congr fun _ => seqOf_orEmpty

theorem Reads.contents (h : Reads H v xs u) : contents H v = prepend xs (contents H u) := by
  refine ext_iff_mem.mpr fun p => ?_
  rw [mem_prepend_iff]
  obtain ⟨zs, c⟩ := p
  cases c with
  | false =>
    refine (h.shows_iff).trans (or_congr ?_ ?_)
    · simp [PartialList.le_iff]
      exact fun hz => hz ▸ List.prefix_rfl
    · constructor
      · rintro ⟨ys, rfl, hy⟩
        exact ⟨⟨ys, false⟩, hy, rfl⟩
      · rintro ⟨⟨ys, c⟩, hy, hz⟩
        cases hz
        exact ⟨ys, rfl, hy⟩
  | true =>
    refine (h.ends_iff).trans ?_
    constructor
    · rintro ⟨ys, rfl, hy⟩
      exact .inr ⟨⟨ys, true⟩, hy, rfl⟩
    · rintro (hle | ⟨⟨ys, c⟩, hy, hz⟩)
      · simp [PartialList.le_iff] at hle
      · cases hz
        exact ⟨ys, rfl, hy⟩

theorem SeqOf.contents_none (h : SeqOf H v none) : Sequences.contents H v = ofList [] := by
  refine ext_iff_mem.mpr fun p => ?_
  obtain ⟨zs, c⟩ := p
  cases c with
  | false =>
    refine (h.shows_none).trans ?_
    show zs = [] ↔ (⟨zs, false⟩ : PartialList (Value ω)) ≤ ⟨[], true⟩
    simp [PartialList.le_iff]
  | true =>
    refine (h.ends_none).trans ?_
    show zs = [] ↔ (⟨zs, true⟩ : PartialList (Value ω)) ≤ ⟨[], true⟩
    simp [PartialList.le_iff]

theorem contents_seq {n : Node ω} :
    contents H (.seq n) = prepend [seqFirst n] (contents H (seqMore n)) := reads_seq.contents

theorem SeqOf.contents_some {n : Node ω} (h : SeqOf H v (some n)) :
    Sequences.contents H v = prepend [seqFirst n] (Sequences.contents H (seqMore n)) :=
  h.contents.trans contents_seq

/-- Something is learnt of a value exactly where `seqOf` answers. -/
theorem contents_ne_bot : contents H v ≠ ⊥ ↔ ∃ s, SeqOf H v s := by
  constructor
  · intro h
    obtain ⟨⟨xs, c⟩, hp, hne⟩ := exists_ne_bot h
    cases xs with
    | nil =>
      cases c with
      | false => exact absurd rfl hne
      | true => exact ⟨none, hp⟩
    | cons x xs =>
      obtain ⟨n, hn, -⟩ := Learns.shows hp
      exact ⟨some n, hn⟩
  · rintro ⟨s, hs⟩
    cases s with
    | none =>
      rw [hs.contents_none]
      exact ofList_ne_bot
    | some n =>
      rw [hs.contents_some]
      exact prepend_ne_bot (List.cons_ne_nil _ _)

end

/-! ### Producing a list -/

/-- The computation answers as the other does, which it comes to in any case. -/
def GoesOn (H : Host ω) {α : Type} (c d : Run ω α) : Prop :=
  (∀ a, Gives H d a → Gives H c a) ∧
  ∀ (R : (q : Call ω) → Answer q → Prop) a, (∀ q b, R q b → (program H).Answers q b) →
    c.Returns R a → d.Returns R a

theorem goesOn_bind {α β : Type} {c : Run ω α} {a : α} (h : Gives H c a) (f : α → Run ω β) :
    GoesOn H (c >>= f) (f a) := by
  refine ⟨fun b hb => Comp.returns_bind.mpr ⟨a, h, hb⟩, fun R b hR hb => ?_⟩
  obtain ⟨a', ha', hb⟩ := Comp.returns_bind.mp hb
  exact Gives.unique (ha'.mono hR) h ▸ hb

/-- The seq agrees with the list: both end, or the same elements come first and the rests agree. -/
def Continues (H : Host ω) (R : Value ω → LazyList (Value ω) → Prop) :
    Option (Node ω) → LazyList (Value ω) → Prop
  | none, l => l = ofList []
  | some n, l => ∃ xs rest m, xs ≠ [] ∧ Reads H (.seq n) xs rest ∧ l = prepend xs m ∧
      (R rest m ∨ contents H rest = m)

/-- Values and the lists they produce, step by step. -/
structure Producing (H : Host ω) (R : Value ω → LazyList (Value ω) → Prop) : Prop where
  agrees : ∀ v l s, R v l → SeqOf H v s → Continues H R s l
  answers : ∀ v l, R v l → l ≠ ⊥ → ∃ s, SeqOf H v s

/-- A step that starts with a source and then always answers. -/
theorem Producing.of_source {R : Value ω → LazyList (Value ω) → Prop}
    (h : ∀ v l, R v l → ∃ thunk coll k, v = .lazy thunk ∧ runThunk H thunk = seqOf H coll >>= k ∧
      (contents H coll = ⊥ → l = ⊥) ∧
      ∀ src, SeqOf H coll src → ∃ s, Gives H (k src) s ∧ Continues H R s l) : Producing H R where
  agrees := by
    intro v l s hR hs
    obtain ⟨thunk, coll, k, rfl, hrun, -, hk⟩ := h v l hR
    have hs := seqOf_lazy.mp hs
    rw [hrun] at hs
    obtain ⟨src, hsrc, hs⟩ := Comp.returns_bind.mp hs
    obtain ⟨s', hs', hc⟩ := hk src hsrc
    exact Gives.unique hs' hs ▸ hc
  answers := by
    intro v l hR hne
    obtain ⟨thunk, coll, k, rfl, hrun, hbot, hk⟩ := h v l hR
    obtain ⟨src, hsrc⟩ := contents_ne_bot.mp fun hcoll => hne (hbot hcoll)
    obtain ⟨s, hs, -⟩ := hk src hsrc
    refine ⟨s, seqOf_lazy.mpr ?_⟩
    rw [hrun]
    exact Comp.returns_bind.mpr ⟨src, hsrc, hs⟩

theorem Producing.contents_eq {R : Value ω → LazyList (Value ω) → Prop} (B : Producing H R)
    {v : Value ω} {l : LazyList (Value ω)} (h : R v l) : contents H v = l := by
  refine ext_iff_mem.mpr fun p => ?_
  -- by induction on how much is learnt
  induction hk : p.items.length using Nat.strong_induction_on generalizing p v l with
  | _ k ih =>
    subst hk
    have onward (s : Option (Node ω)) (hs : SeqOf H v s) : p ∈ contents H v ↔ p ∈ l := by
      have hc := B.agrees v l s h hs
      cases s with
      | none =>
        rw [hs.contents_none, show l = ofList [] from hc]
      | some n =>
        obtain ⟨xs, rest, m, hne, hread, rfl, hrest⟩ := hc
        rw [hs.contents, show contents H (.ofSeq (some n)) = _ from hread.contents,
          mem_prepend_iff, mem_prepend_iff]
        refine or_congr_right (exists_congr fun q => and_congr_left fun hq => ?_)
        rcases hrest with hR | hm
        · refine ih q.items.length ?_ hR q rfl
          have hpos := List.length_pos_of_ne_nil hne
          rw [hq]
          show q.items.length < (xs ++ q.items).length
          rw [List.length_append]
          omega
        · rw [hm]
    by_cases hp : p = ⊥
    · subst hp
      exact iff_of_true (bot_mem _) (bot_mem l)
    · constructor
      · intro hlearn
        obtain ⟨s, hs⟩ := contents_ne_bot.mp fun hbot => hp (eq_bot_iff_mem.mp hbot p hlearn)
        exact (onward s hs).mp hlearn
      · intro hmem
        obtain ⟨s, hs⟩ := B.answers v l h fun hbot => hp (eq_bot_iff_mem.mp hbot p hmem)
        exact (onward s hs).mpr hmem

end ProtoClojure.Sequences
