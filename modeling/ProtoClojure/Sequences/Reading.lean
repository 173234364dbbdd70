import ProtoClojure.Sequences.Steps
import Mathlib.Data.List.Infix

/-! What a walk reads of a value, and that this depends on the elements a representation
holds, not on the representation. -/
namespace ProtoClojure.Sequences
open Recursion

variable {ω : Type} [DecidableEq ω] {H : Host ω}

/-! ### Calls -/

/-- The computation answers `a`. -/
abbrev Gives (H : Host ω) {α : Type} (c : Run ω α) (a : α) : Prop := c.Returns (program H).Answers a

theorem gives_realizeLazy {t : Thunk ω} {s : Option (Node ω)} :
    Gives H (realizeLazy t) s ↔ Gives H (runThunk H t) s :=
  Comp.returns_ask.trans Program.answers_iff

theorem invoke_of_outcome {f : Value ω} {args : List (Value ω)} {r : Except (Raised ω) (Value ω)}
    (h : (program H).Outcome (.invoke f args) r) : H.invoke f args = some r := by
  -- a function that does not return only calls itself: no finite run ends
  refine Program.Outcome.induct
    (motive := fun q => match q with
      | .invoke f args => fun r => H.invoke f args = some r
      | _ => fun _ => True) (fun q r hr => ?_) h
  cases q with
  | invoke f args =>
    have hr : (callFunction H f args).Yields _ r := hr
    unfold callFunction at hr
    split at hr
    · rename_i v hv
      exact hv.trans (congrArg some (Eq.symm hr))
    · rename_i e he
      exact he.trans (congrArg some (Eq.symm hr))
    · exact (Comp.yields_ask.mp hr).2
  | _ => trivial

theorem outcome_invoke {f : Value ω} {args : List (Value ω)} {r : Except (Raised ω) (Value ω)} :
    (program H).Outcome (.invoke f args) r ↔ H.invoke f args = some r := by
  refine ⟨invoke_of_outcome, fun h => Program.outcome_iff.mpr ?_⟩
  show (callFunction H f args).Yields _ r
  unfold callFunction
  rw [h]
  cases r with
  | ok v => exact rfl
  | error e => exact rfl

theorem gives_invoke {f : Value ω} {args : List (Value ω)} {v : Value ω} :
    Gives H (invoke f args) v ↔ H.invoke f args = some (.ok v) :=
  Comp.returns_ask.trans outcome_invoke

theorem Gives.unique {α : Type} {c : Run ω α} {a a' : α} (h : Gives H c a) (h' : Gives H c a') :
    a = a' :=
  Program.returns_unique h h'

/-! ### Reading -/

def SeqOf (H : Host ω) (v : Value ω) (s : Option (Node ω)) : Prop := Gives H (seqOf H v) s

/-- Reading the elements of `v` one after the other meets these and leaves `rest`. -/
def Reads (H : Host ω) (v : Value ω) : List (Value ω) → Value ω → Prop
  | [], rest => v = rest
  | x :: xs, rest => ∃ n, SeqOf H v (some n) ∧ seqFirst n = x ∧ Reads H (seqMore n) xs rest

/-- These are the first elements. -/
def Shows (H : Host ω) (v : Value ω) : List (Value ω) → Prop
  | [] => True
  | x :: xs => ∃ n, SeqOf H v (some n) ∧ seqFirst n = x ∧ Shows H (seqMore n) xs

/-- These are the elements, all of them. -/
def Ends (H : Host ω) (v : Value ω) : List (Value ω) → Prop
  | [] => SeqOf H v none
  | x :: xs => ∃ n, SeqOf H v (some n) ∧ seqFirst n = x ∧ Ends H (seqMore n) xs

section
variable {v u rest : Value ω} {s : Option (Node ω)} {xs ys zs : List (Value ω)}

theorem SeqOf.unique {s' : Option (Node ω)} (h : SeqOf H v s) (h' : SeqOf H v s') : s = s' :=
  Gives.unique h h'

theorem shows_congr (h : ∀ s, SeqOf H v s ↔ SeqOf H u s) : Shows H v xs ↔ Shows H u xs := by
  cases xs with
  | nil => exact .rfl
  | cons x xs => exact exists_congr fun n => and_congr_left' (h (some n))

theorem ends_congr (h : ∀ s, SeqOf H v s ↔ SeqOf H u s) : Ends H v xs ↔ Ends H u xs := by
  cases xs with
  | nil => exact h none
  | cons x xs => exact exists_congr fun n => and_congr_left' (h (some n))

theorem Reads.append (h : Reads H v xs u) (h' : Reads H u ys rest) :
    Reads H v (xs ++ ys) rest := by
  induction xs generalizing v with
  | nil =>
    obtain rfl : v = u := h
    exact h'
  | cons x xs ih =>
    obtain ⟨n, hn, hx, h⟩ := h
    exact ⟨n, hn, hx, ih h⟩

theorem Ends.shows (h : Ends H v xs) : Shows H v xs := by
  induction xs generalizing v with
  | nil => trivial
  | cons x xs ih =>
    obtain ⟨n, hn, hx, h⟩ := h
    exact ⟨n, hn, hx, ih h⟩

theorem Reads.shows (h : Reads H v xs rest) : Shows H v xs := by
  induction xs generalizing v with
  | nil => trivial
  | cons x xs ih =>
    obtain ⟨n, hn, hx, h⟩ := h
    exact ⟨n, hn, hx, ih h⟩

theorem Shows.reads (h : Shows H v xs) : ∃ rest, Reads H v xs rest := by
  induction xs generalizing v with
  | nil => exact ⟨v, rfl⟩
  | cons x xs ih =>
    obtain ⟨n, hn, hx, h⟩ := h
    obtain ⟨rest, h⟩ := ih h
    exact ⟨rest, n, hn, hx, h⟩

theorem Shows.of_prefix (h : Shows H v ys) (hp : xs <+: ys) : Shows H v xs := by
  induction xs generalizing v ys with
  | nil => trivial
  | cons x xs ih =>
    obtain ⟨y, ys, rfl⟩ := List.exists_cons_of_ne_nil (hp.ne_nil (List.cons_ne_nil x xs))
    obtain ⟨rfl, htail⟩ := List.cons_prefix_cons.mp hp
    obtain ⟨n, hn, hx, h⟩ := h
    exact ⟨n, hn, hx, ih h htail⟩

/-- What is shown past what has been read is shown by what is left. -/
theorem Reads.shows_iff (h : Reads H v xs u) :
    Shows H v zs ↔ zs <+: xs ∨ ∃ ys, zs = xs ++ ys ∧ Shows H u ys := by
  induction xs generalizing v zs with
  | nil =>
    obtain rfl : v = u := h
    constructor
    · exact fun hz => .inr ⟨zs, rfl, hz⟩
    · rintro (hz | ⟨ys, rfl, hy⟩)
      · obtain rfl := List.prefix_nil.mp hz
        trivial
      · exact hy
  | cons x xs ih =>
    obtain ⟨n, hn, hx, h⟩ := h
    cases zs with
    | nil => exact ⟨fun _ => .inl (List.nil_prefix), fun _ => trivial⟩
    | cons z zs =>
      constructor
      · rintro ⟨n', hn', rfl, hz⟩
        obtain rfl := Option.some.inj (hn.unique hn')
        rcases (ih h).mp hz with hp | ⟨ys, rfl, hy⟩
        · exact .inl (List.cons_prefix_cons.mpr ⟨hx, hp⟩)
        · exact .inr ⟨ys, by rw [← hx, List.cons_append], hy⟩
      · rintro (hp | ⟨ys, hz, hy⟩)
        · obtain ⟨rfl, htail⟩ := List.cons_prefix_cons.mp hp
          exact ⟨n, hn, hx, (ih h).mpr (.inl htail)⟩
        · obtain ⟨rfl, rfl⟩ := List.cons.inj hz
          exact ⟨n, hn, hx, (ih h).mpr (.inr ⟨ys, rfl, hy⟩)⟩

theorem Reads.ends_iff (h : Reads H v xs u) :
    Ends H v zs ↔ ∃ ys, zs = xs ++ ys ∧ Ends H u ys := by
  induction xs generalizing v zs with
  | nil =>
    obtain rfl : v = u := h
    exact ⟨fun hz => ⟨zs, rfl, hz⟩, fun ⟨ys, hz, hy⟩ => hz ▸ hy⟩
  | cons x xs ih =>
    obtain ⟨n, hn, hx, h⟩ := h
    constructor
    · intro hz
      cases zs with
      | nil => cases hn.unique hz
      | cons z zs =>
        obtain ⟨n', hn', rfl, hz⟩ := hz
        obtain rfl := Option.some.inj (hn.unique hn')
        obtain ⟨ys, rfl, hy⟩ := (ih h).mp hz
        exact ⟨ys, by rw [← hx, List.cons_append], hy⟩
    · rintro ⟨ys, rfl, hy⟩
      exact ⟨n, hn, hx, (ih h).mpr ⟨ys, rfl, hy⟩⟩

theorem Ends.seqOf (h : Ends H v xs) : ∃ s, SeqOf H v s := by
  cases xs with
  | nil => exact ⟨none, h⟩
  | cons x xs =>
    obtain ⟨n, hn, -, -⟩ := h
    exact ⟨some n, hn⟩

theorem Ends.unique (h : Ends H v xs) (h' : Ends H v ys) : xs = ys := by
  induction xs generalizing v ys with
  | nil =>
    cases ys with
    | nil => rfl
    | cons y ys =>
      obtain ⟨n, hn, -, -⟩ := h'
      cases SeqOf.unique h hn
  | cons x xs ih =>
    obtain ⟨n, hn, rfl, h⟩ := h
    cases ys with
    | nil => cases hn.unique h'
    | cons y ys =>
      obtain ⟨n', hn', rfl, h'⟩ := h'
      obtain rfl := Option.some.inj (hn.unique hn')
      rw [ih h h']

/-! ### Representations -/

theorem seqOf_pure {s' : Option (Node ω)} (hv : seqOf H v = pure s') :
    SeqOf H v s ↔ s = s' := by
  unfold SeqOf
  rw [hv]
  exact Comp.returns_pure.trans eq_comm

@[simp] theorem seqOf_nil : SeqOf H .nil s ↔ s = none := seqOf_pure rfl

@[simp] theorem seqOf_emptyList : SeqOf H .emptyList s ↔ s = none := seqOf_pure rfl

@[simp] theorem seqOf_seq {n : Node ω} : SeqOf H (.seq n) s ↔ s = some n := seqOf_pure rfl

@[simp] theorem seqOf_realized {s' : Option (Node ω)} : SeqOf H (.realized s') s ↔ s = s' :=
  seqOf_pure rfl

@[simp] theorem seqOf_lazy {t : Thunk ω} : SeqOf H (.lazy t) s ↔ Gives H (runThunk H t) s :=
  gives_realizeLazy

theorem seqOf_ofSeq {s' : Option (Node ω)} : SeqOf H (.ofSeq s') s ↔ s = s' := by
  cases s' with
  | none => exact seqOf_nil
  | some n => exact seqOf_seq

theorem seqOf_orEmpty : SeqOf H v.orEmpty s ↔ SeqOf H v s := by
  cases v with
  | nil => exact seqOf_emptyList.trans seqOf_nil.symm
  | _ => exact .rfl

theorem SeqOf.iff_ofSeq {s' : Option (Node ω)} (h : SeqOf H v s) :
    SeqOf H v s' ↔ SeqOf H (.ofSeq s) s' :=
  ⟨fun h' => seqOf_ofSeq.mpr (h'.unique h), fun h' => seqOf_ofSeq.mp h' ▸ h⟩

theorem SeqOf.ends_iff (h : SeqOf H v s) : Ends H v xs ↔ Ends H (.ofSeq s) xs :=
  ends_congr fun _ => h.iff_ofSeq

theorem SeqOf.shows_iff (h : SeqOf H v s) : Shows H v xs ↔ Shows H (.ofSeq s) xs :=
  shows_congr fun _ => h.iff_ofSeq

theorem ends_orEmpty : Ends H v.orEmpty xs ↔ Ends H v xs := ends_congr fun _ => seqOf_orEmpty

theorem ends_nil : Ends H .nil xs ↔ xs = [] := by
  cases xs with
  | nil => exact iff_of_true (seqOf_nil.mpr rfl) rfl
  | cons x xs =>
    refine iff_of_false ?_ (List.cons_ne_nil x xs)
    rintro ⟨n, hn, -⟩
    cases seqOf_nil.mp hn

theorem shows_nil : Shows H .nil xs ↔ xs = [] := by
  cases xs with
  | nil => exact iff_of_true trivial rfl
  | cons x xs =>
    refine iff_of_false ?_ (List.cons_ne_nil x xs)
    rintro ⟨n, hn, -⟩
    cases seqOf_nil.mp hn

theorem SeqOf.ends_none (h : SeqOf H v none) : Ends H v xs ↔ xs = [] := h.ends_iff.trans ends_nil

theorem SeqOf.shows_none (h : SeqOf H v none) : Shows H v xs ↔ xs = [] :=
  h.shows_iff.trans shows_nil

theorem reads_seq {n : Node ω} : Reads H (.seq n) [seqFirst n] (seqMore n) :=
  ⟨n, seqOf_seq.mpr rfl, rfl, rfl⟩

theorem reads_list (xs : List (Value ω)) : Reads H (.ofList xs) xs .emptyList := by
  induction xs with
  | nil => rfl
  | cons x xs ih => exact ⟨.list x xs, seqOf_seq.mpr rfl, rfl, ih⟩

theorem ends_ofList : Ends H (.ofList xs) ys ↔ ys = xs := by
  rw [(reads_list xs).ends_iff]
  constructor
  · rintro ⟨zs, rfl, hz⟩
    obtain rfl := (ends_orEmpty (v := .nil)).trans ends_nil |>.mp hz
    exact List.append_nil xs
  · rintro rfl
    exact ⟨[], (List.append_nil ys).symm, seqOf_emptyList.mpr rfl⟩

theorem ends_emptyList : Ends H .emptyList xs ↔ xs = [] := by
  have h : Ends H (.ofList []) xs ↔ xs = [] := ends_ofList
  exact h

theorem ends_list {x : Value ω} : Ends H (.seq (.list x ys)) xs ↔ xs = x :: ys := by
  have h : Ends H (.ofList (x :: ys)) xs ↔ xs = x :: ys := ends_ofList
  exact h

end

/-! #### Chunks -/

theorem reads_chunk (c : Chunk (Value ω)) (chunked : Bool) (more : Value ω) :
    Reads H (.seq (.chunk c chunked more)) c.elements more.orEmpty := by
  -- along the elements after the first
  generalize hr : c.rest = rest
  induction rest generalizing c with
  | nil =>
    refine ⟨_, seqOf_seq.mpr rfl, getAt_items c, ?_⟩
    have hstop : ¬ c.off + 1 < c.stop := fun h => by
      have hlen := c.length_elements
      rw [Chunk.elements, hr] at hlen
      simp at hlen
      omega
    rw [hr, seqMore, dif_neg hstop]
    exact rfl
  | cons x rest ih =>
    refine ⟨_, seqOf_seq.mpr rfl, getAt_items c, ?_⟩
    have hstop : c.off + 1 < c.stop := by
      by_contra h
      rw [c.rest_eq_nil h] at hr
      cases hr
    have hnext := c.elements_next hstop
    rw [seqMore, dif_pos hstop, ← hnext]
    refine ih _ ?_
    rw [hr] at hnext
    exact (List.cons.inj hnext).2

section
variable {c : Chunk (Value ω)} {chunked : Bool} {more : Value ω} {items xs : List (Value ω)}

theorem ends_chunk : Ends H (.seq (.chunk c chunked more)) xs ↔
    ∃ ys, xs = c.elements ++ ys ∧ Ends H more ys := by
  rw [(reads_chunk c chunked more).ends_iff]
  exact exists_congr fun ys => and_congr_right fun _ => ends_orEmpty

omit [DecidableEq ω] in
theorem newChunk_of_nonempty (h : items ≠ []) : ∃ c : Chunk (Value ω), c.elements = items ∧
    newChunk items chunked more = some (.chunk c chunked more) := by
  have hlen : items.length ≠ 0 := fun h' => h (List.eq_nil_of_length_eq_zero h')
  refine ⟨_, ?_, dif_neg hlen⟩
  rw [Chunk.of_elements, List.drop_zero, Nat.sub_zero, List.take_length]

theorem ends_newChunk :
    Ends H (.ofSeq (newChunk items chunked .nil)) xs ↔ xs = items := by
  by_cases h : items = []
  · subst h
    exact ends_nil
  · obtain ⟨c, rfl, hc⟩ : ∃ c : Chunk (Value ω), c.elements = items ∧
        newChunk items chunked .nil = some (.chunk c chunked .nil) := newChunk_of_nonempty h
    rw [hc]
    refine ends_chunk.trans ⟨?_, fun hx => ⟨[], ?_, ends_nil.mpr rfl⟩⟩
    · rintro ⟨ys, rfl, hy⟩
      rw [ends_nil.mp hy, List.append_nil]
    · rw [hx, List.append_nil]

theorem ends_vector : Ends H (.vector items) xs ↔ xs = items :=
  (SeqOf.ends_iff ((seqOf_pure rfl).mpr rfl)).trans ends_newChunk

theorem ends_collection {v : Value ω} (h : collectionItems v = some items) :
    Ends H v xs ↔ xs = items := by
  have hs : SeqOf H v (newChunk items false .nil) := by
    cases v with
    | map entries =>
      cases h
      exact (seqOf_pure rfl).mpr rfl
    | set elements =>
      cases h
      exact (seqOf_pure rfl).mpr rfl
    | string utf8 =>
      cases h
      exact (seqOf_pure rfl).mpr rfl
    | _ => cases h
  exact hs.ends_iff.trans ends_newChunk

end

/-! ### Stages of realisation -/

/-- A later stage of the same value: lazy seqs along it have been realised in place. -/
inductive Stage (H : Host ω) : Value ω → Value ω → Prop
  | same (v : Value ω) : Stage H v v
  | realize {t : Thunk ω} {s : Option (Node ω)} {v : Value ω} : SeqOf H (.lazy t) s →
      Stage H (.realized s) v → Stage H (.lazy t) v
  | realized {n n' : Node ω} : Stage H (.seq n) (.seq n') →
      Stage H (.realized (some n)) (.realized (some n'))
  | cons {x more more' : Value ω} : Stage H more more' →
      Stage H (.seq (.cons x more)) (.seq (.cons x more'))
  | chunk {c : Chunk (Value ω)} {chunked : Bool} {more more' : Value ω} : Stage H more more' →
      Stage H (.seq (.chunk c chunked more)) (.seq (.chunk c chunked more'))

namespace Stage
variable {v v' : Value ω}

theorem orEmpty (h : Stage H v v') : Stage H v.orEmpty v'.orEmpty := by
  have hne : ∀ u u' : Value ω, Stage H u u' → u = u' ∨ u.orEmpty = u ∧ u'.orEmpty = u' := by
    intro u u' h
    induction h with
    | same u => exact .inl rfl
    | realize _ _ ih =>
      rcases ih with rfl | ⟨-, hu⟩
      · exact .inr ⟨rfl, rfl⟩
      · exact .inr ⟨rfl, hu⟩
    | realized => exact .inr ⟨rfl, rfl⟩
    | cons => exact .inr ⟨rfl, rfl⟩
    | chunk => exact .inr ⟨rfl, rfl⟩
  rcases hne v v' h with rfl | ⟨hv, hv'⟩
  · exact .same _
  · rw [hv, hv']
    exact h

/-- The seqs of two stages start alike and go on in stages. -/
abbrev Follows (H : Host ω) : Option (Node ω) → Option (Node ω) → Prop :=
  Option.Rel fun n n' => seqFirst n = seqFirst n' ∧ Stage H (seqMore n) (seqMore n')

theorem follows_refl (s : Option (Node ω)) : Follows H s s := by
  cases s with
  | none => exact .none
  | some n => exact .some ⟨rfl, .same _⟩

theorem seqOf (h : Stage H v v') :
    v = v' ∨ ∃ s s', SeqOf H v s ∧ SeqOf H v' s' ∧ Follows H s s' := by
  induction h with
  | same v => exact .inl rfl
  | realize ht _ ih =>
    rcases ih with rfl | ⟨s, s', hs, hs', hf⟩
    · exact .inr ⟨_, _, ht, seqOf_realized.mpr rfl, follows_refl _⟩
    · obtain rfl := seqOf_realized.mp hs
      exact .inr ⟨_, s', ht, hs', hf⟩
  | realized _ ih =>
    rcases ih with h | ⟨s, s', hs, hs', hf⟩
    · obtain rfl := Value.seq.inj h
      exact .inl rfl
    · obtain rfl := seqOf_seq.mp hs
      obtain rfl := seqOf_seq.mp hs'
      exact .inr ⟨_, _, seqOf_realized.mpr rfl, seqOf_realized.mpr rfl, hf⟩
  | cons h _ =>
    exact .inr ⟨_, _, seqOf_seq.mpr rfl, seqOf_seq.mpr rfl, .some ⟨rfl, h.orEmpty⟩⟩
  | @chunk c chunked more more' h _ =>
    refine .inr ⟨_, _, seqOf_seq.mpr rfl, seqOf_seq.mpr rfl, .some ⟨rfl, ?_⟩⟩
    by_cases hstop : c.off + 1 < c.stop
    · simp only [seqMore, dif_pos hstop]
      exact .chunk h
    · simp only [seqMore, dif_neg hstop]
      exact h.orEmpty

theorem ends_iff {xs : List (Value ω)} (h : Stage H v v') : Ends H v' xs ↔ Ends H v xs := by
  induction xs generalizing v v' with
  | nil =>
    rcases h.seqOf with rfl | ⟨s, s', hs, hs', hf⟩
    · exact .rfl
    · rw [hs.ends_iff, hs'.ends_iff]
      cases hf with
      | none => exact .rfl
      | some hn => exact iff_of_false (fun h => by cases seqOf_seq.mp h) (fun h => by
          cases seqOf_seq.mp h)
  | cons x xs ih =>
    rcases h.seqOf with rfl | ⟨s, s', hs, hs', hf⟩
    · exact .rfl
    · rw [hs.ends_iff, hs'.ends_iff]
      cases hf with
      | none => exact .rfl
      | @some n n' hn =>
        obtain ⟨hfirst, hmore⟩ := hn
        show (∃ m, SeqOf H (.seq n') (some m) ∧ seqFirst m = x ∧ Ends H (seqMore m) xs) ↔
          ∃ m, SeqOf H (.seq n) (some m) ∧ seqFirst m = x ∧ Ends H (seqMore m) xs
        simp only [seqOf_seq, Option.some.injEq, exists_eq_left, hfirst, ih hmore]

end Stage
end ProtoClojure.Sequences
