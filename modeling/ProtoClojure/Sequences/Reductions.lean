import ProtoClojure.Sequences.Traversals

/-! `reduce` folds the elements every walk meets, on each of its three paths, and `tryCount`
counts them. -/
namespace ProtoClojure.Sequences
open Recursion

variable {ω : Type}

/-- The calls `(f acc x)`, one after the other. -/
def foldCalls (H : Host ω) (f : Value ω) :
    Value ω → List (Value ω) → Option (Except (Raised ω) (Value ω))
  | acc, [] => some (.ok acc)
  | acc, x :: xs =>
    match H.invoke f [acc, x] with
    | some (.ok acc) => foldCalls H f acc xs
    | r => r

def folded (H : Host ω) (f : Value ω) :
    Option (Value ω) → List (Value ω) → Option (Except (Raised ω) (Value ω))
  | some acc, xs => foldCalls H f acc xs
  | none, [] => H.invoke f []
  | none, x :: xs => foldCalls H f x xs

section Fold
variable [DecidableEq ω] {H : Host ω} {f acc x : Value ω} {xs ys : List (Value ω)}
  {r : Except (Raised ω) (Value ω)}

theorem outcomes_invoke {args : List (Value ω)} :
    Outcomes H (invoke f args) r ↔ H.invoke f args = some r :=
  Comp.yields_ask.trans outcome_invoke

theorem outcomes_pure {a : Value ω} : Outcomes H (pure a) r ↔ some (.ok a) = some r :=
  ⟨fun h => congrArg some (Eq.symm h), fun h => (Option.some.inj h).symm⟩

/-- A call of the fold, where what follows it folds the other elements. -/
theorem outcomes_call {k : Value ω → Run ω (Value ω)}
    (hk : ∀ acc, Outcomes H (k acc) r ↔ foldCalls H f acc xs = some r) :
    Outcomes H (invoke f [acc, x] >>= k) r ↔ foldCalls H f acc (x :: xs) = some r := by
  unfold foldCalls
  refine Comp.yields_bind.trans ?_
  constructor
  · rintro (⟨a, ha, hr⟩ | ⟨e, he, rfl⟩)
    · rw [outcomes_invoke.mp ha]
      exact (hk a).mp hr
    · rw [outcomes_invoke.mp he]
  · intro h
    cases hv : H.invoke f [acc, x] with
    | none =>
      rw [hv] at h
      cases h
    | some s =>
      rw [hv] at h
      cases s with
      | ok a => exact .inl ⟨a, outcomes_invoke.mpr hv, (hk a).mpr h⟩
      | error e => exact .inr ⟨e, outcomes_invoke.mpr hv, (Option.some.inj h).symm⟩

/-! ### Lists -/

theorem outcomes_indices {items : List (Value ω)} {is : List Nat} {k : Value ω → Run ω (Value ω)}
    (hk : ∀ acc, Outcomes H (k acc) r ↔ foldCalls H f acc ys = some r) :
    Outcomes H (reduceIndices f items acc is >>= k) r ↔
      foldCalls H f acc (is.map (getAt items) ++ ys) = some r := by
  induction is generalizing acc with
  | nil => exact hk acc
  | cons i is ih =>
    have hstep : reduceIndices f items acc (i :: is) >>= k =
        invoke f [acc, getAt items i] >>= fun acc => reduceIndices f items acc is >>= k := by
      unfold reduceIndices
      rw [List.foldlM_cons, bind_assoc]
    rw [hstep]
    exact outcomes_call fun acc => ih

theorem outcomes_reduceIndices {items : List (Value ω)} {is : List Nat} :
    Outcomes H (reduceIndices f items acc is) r ↔
      foldCalls H f acc (is.map (getAt items)) = some r := by
  have h : Outcomes H (reduceIndices f items acc is >>= pure) r ↔
      foldCalls H f acc (is.map (getAt items) ++ []) = some r :=
    outcomes_indices fun _ => outcomes_pure
  rwa [bind_pure, List.append_nil] at h

/-- A cell's elements, then those of the cells after it. -/
theorem outcomes_reduceCells {p : List (Value ω)} {i : Nat} (hi : i ≤ listHeadCount p.length) :
    Outcomes H (reduceCells f p acc i) r ↔ foldCalls H f acc (p.drop i) = some r := by
  induction hn : p.length using Nat.strong_induction_on generalizing p acc i with
  | _ n ih =>
    subst hn
    rw [reduceCells.eq_def]
    by_cases h0 : p.length = 0
    · obtain rfl := List.eq_nil_of_length_eq_zero h0
      rw [dif_pos h0, List.drop_nil]
      exact outcomes_pure
    · rw [dif_neg h0]
      have hpos := listHeadCount_pos p.length
      have hle := listHeadCount_le (Nat.pos_of_ne_zero h0)
      have hsplit : (List.range' i (listHeadCount p.length - i)).map (getAt p) ++
          p.drop (listHeadCount p.length) = p.drop i := by
        have hdrop : p.drop (listHeadCount p.length) =
            (p.drop i).drop (listHeadCount p.length - i) := by
          rw [List.drop_drop]
          congr 1
          omega
        rw [map_getAt_range' (by omega), hdrop, List.take_append_drop]
      rw [← hsplit]
      refine outcomes_indices fun acc => ?_
      have hlen : (p.drop (listHeadCount p.length)).length < p.length := by
        rw [List.length_drop]
        omega
      exact ih _ hlen (Nat.zero_le _) rfl

theorem outcomes_reduceList {init : Option (Value ω)} :
    Outcomes H (reduceList f init xs) r ↔ folded H f init xs = some r := by
  cases init with
  | some acc => exact outcomes_reduceCells (Nat.zero_le _)
  | none =>
    cases xs with
    | nil => exact outcomes_invoke
    | cons x xs =>
      show Outcomes H (reduceCells f (x :: xs) (getAt (x :: xs) 0) 1) r ↔ _
      exact outcomes_reduceCells (listHeadCount_pos _)

/-! ### The cursor -/

/-- From a cursor with `xs` left to its end. -/
theorem outcomes_reduceLoop {w : SeqWalk ω} (h : Ends H (.ofSeq w.seq) xs) :
    Outcomes H (.ask (Call.reduceLoop f acc w)) r ↔ foldCalls H f acc xs = some r := by
  induction xs generalizing acc w with
  | nil =>
    have hs : w.seq = none := (seqOf_ofSeq.mp h).symm
    refine Comp.yields_ask.trans (Program.outcome_iff.trans ?_)
    show Outcomes H (reduceLoopBody H f acc w) r ↔ _
    unfold reduceLoopBody
    rw [if_pos ((w.isDone_iff).mpr hs)]
    exact outcomes_pure
  | cons x xs ih =>
    obtain ⟨n, hn, -, -⟩ := id h
    have hs : w.seq = some n := (seqOf_ofSeq.mp hn).symm
    obtain ⟨w', ys, hw', hx, hy⟩ := (ends_walk_cons hs).mp h
    obtain ⟨rfl, rfl⟩ := List.cons.inj hx
    refine Comp.yields_ask.trans (Program.outcome_iff.trans ?_)
    show Outcomes H (reduceLoopBody H f acc w) r ↔ _
    unfold reduceLoopBody
    rw [if_neg fun hd => by rw [(w.isDone_iff).mp hd] at hs; cases hs]
    refine outcomes_call fun acc => ?_
    have hadvance := Comp.yields_ok.mpr hw'
    exact (hadvance.bind_iff fun _ _ _ => Program.Outcome.unique).trans (ih hy)

/-- A fold that answers has met the end. -/
theorem ends_of_reduceLoop {w : SeqWalk ω} {v : Value ω}
    (h : (program H).Answers (.reduceLoop f acc w) v) : ∃ xs, Ends H (.ofSeq w.seq) xs := by
  refine Program.Answers.induct
    (motive := fun q => match q with
      | .reduceLoop _ _ w => fun _ => ∃ xs, Ends H (.ofSeq w.seq) xs
      | _ => fun _ => True) (fun q a ha => ?_) h
  cases q with
  | reduceLoop f acc w =>
    have ha : (reduceLoopBody H f acc w).Returns _ a := ha
    unfold reduceLoopBody at ha
    split at ha
    · rename_i hd
      refine ⟨[], ?_⟩
      rw [(w.isDone_iff).mp hd]
      exact ends_nil.mpr rfl
    · rename_i hd
      obtain ⟨acc', -, hrest⟩ := Comp.returns_bind.mp ha
      obtain ⟨w', hw', hrest⟩ := Comp.returns_bind.mp hrest
      obtain ⟨-, xs, hxs⟩ := Comp.returns_ask.mp hrest
      obtain ⟨n, hn⟩ := Option.ne_none_iff_exists'.mp fun hs => hd ((w.isDone_iff).mpr hs)
      exact ⟨w.first :: xs, (ends_walk_cons hn).mpr ⟨w', xs, hw'.mono fun _ _ => And.left, rfl, hxs⟩⟩
  | _ => trivial

theorem outcomes_reduceWalk {v : Value ω} {init : Option (Value ω)} (h : Ends H v xs) :
    Outcomes H (reduceWalk H f init v) r ↔ folded H f init xs = some r := by
  obtain ⟨s, hs⟩ := h.seqOf
  obtain ⟨w, hw, rfl⟩ := gives_start.mp hs
  have hx := hs.ends_iff.mp h
  have hstart := Comp.yields_ok.mpr hw
  unfold reduceWalk
  refine (hstart.bind_iff fun _ _ _ => Program.Outcome.unique).trans ?_
  cases init with
  | some acc => exact outcomes_reduceLoop hx
  | none =>
    cases xs with
    | nil =>
      have hd : w.isDone = true := (w.isDone_iff).mpr (seqOf_ofSeq.mp hx).symm
      rw [if_pos hd]
      exact outcomes_invoke
    | cons x xs =>
      obtain ⟨n, hn, -, -⟩ := id hx
      have hseq : w.seq = some n := (seqOf_ofSeq.mp hn).symm
      obtain ⟨w', ys, hw', hcons, hy⟩ := (ends_walk_cons hseq).mp hx
      obtain ⟨rfl, rfl⟩ := List.cons.inj hcons
      rw [if_neg fun hd => by rw [(w.isDone_iff).mp hd] at hseq; cases hseq]
      have hadvance := Comp.yields_ok.mpr hw'
      exact (hadvance.bind_iff fun _ _ _ => Program.Outcome.unique).trans (outcomes_reduceLoop hy)

theorem ends_of_reduceWalk {v a : Value ω} {init : Option (Value ω)}
    (h : Gives H (reduceWalk H f init v) a) : ∃ xs, Ends H v xs := by
  unfold reduceWalk at h
  obtain ⟨w, hw, h⟩ := Comp.returns_bind.mp h
  have hs := gives_start.mpr ⟨w, hw, rfl⟩
  suffices hend : ∃ xs, Ends H (.ofSeq w.seq) xs by
    obtain ⟨xs, hx⟩ := hend
    exact ⟨xs, hs.ends_iff.mpr hx⟩
  cases init with
  | some acc => exact ends_of_reduceLoop (Comp.returns_ask.mp h)
  | none =>
    cases hseq : w.seq with
    | none => exact ⟨[], ends_nil.mpr rfl⟩
    | some n =>
      rw [if_neg fun hd => by rw [(w.isDone_iff).mp hd] at hseq; cases hseq] at h
      obtain ⟨w', hw', h⟩ := Comp.returns_bind.mp h
      obtain ⟨xs, hx⟩ := ends_of_reduceLoop (Comp.returns_ask.mp h)
      rw [← hseq]
      exact ⟨w.first :: xs, (ends_walk_cons hseq).mpr ⟨w', xs, hw', rfl, hx⟩⟩

/-! ### Other collections -/

omit [DecidableEq ω] in
theorem nonEmpty_getD (xs : List (Value ω)) : (nonEmpty xs).getD [] = xs := by
  unfold nonEmpty
  split
  · rename_i h
    exact (List.eq_nil_of_length_eq_zero h).symm
  · rfl

theorem gives_seqToList_getD {v : Value ω} :
    Gives H ((fun l => some (l.getD [])) <$> seqToList H v) (some xs) ↔ Ends H v xs := by
  refine Comp.returns_map.trans ⟨?_, fun h => ⟨nonEmpty xs, ?_, ?_⟩⟩
  · rintro ⟨l, hl, hx⟩
    obtain ⟨ys, hy, rfl⟩ := gives_seqToList.mp hl
    rw [nonEmpty_getD] at hx
    exact Option.some.inj hx ▸ hy
  · exact gives_seqToList.mpr ⟨xs, h, rfl⟩
  · rw [nonEmpty_getD]

/-- nil reads as no element, as an empty collection does. -/
theorem gives_asSeqOrNull {v : Value ω} :
    (∃ l, Gives H (asSeqOrNull H v) l ∧ l.getD [] = xs) ↔ Ends H v xs := by
  have hpure : ∀ l : Option (List (Value ω)), asSeqOrNull H v = pure l →
      (∀ ys, Ends H v ys ↔ ys = l.getD []) →
        ((∃ l, Gives H (asSeqOrNull H v) l ∧ l.getD [] = xs) ↔ Ends H v xs) := by
    intro l hl hv
    rw [hl, hv]
    constructor
    · rintro ⟨l', hl', rfl⟩
      obtain rfl := Comp.returns_pure.mp hl'
      rfl
    · rintro rfl
      exact ⟨l, rfl, rfl⟩
  have hlist : asSeqOrNull H v = (fun l => some (l.getD [])) <$> seqToList H v →
      ((∃ l, Gives H (asSeqOrNull H v) l ∧ l.getD [] = xs) ↔ Ends H v xs) := by
    intro hl
    rw [hl, ← gives_seqToList_getD]
    constructor
    · rintro ⟨l, hl, rfl⟩
      obtain ⟨items, hitems, rfl⟩ := Comp.returns_map.mp hl
      exact hl
    · exact fun h => ⟨some xs, h, rfl⟩
  have hnone : asSeqOrNull H v = notSeqable H v → seqOf H v = notSeqable H v →
      ((∃ l, Gives H (asSeqOrNull H v) l ∧ l.getD [] = xs) ↔ Ends H v xs) := by
    intro hl hv
    rw [hl]
    refine iff_of_false (fun ⟨l, h, _⟩ => not_gives_notSeqable h) fun h => ?_
    obtain ⟨s, hs⟩ := h.seqOf
    unfold SeqOf at hs
    rw [hv] at hs
    exact not_gives_notSeqable hs
  cases v with
  | nil => exact hpure none rfl fun ys => ends_nil
  | vector items => exact hpure (some items) rfl fun ys => ends_vector
  | map entries => exact hpure (some _) rfl fun ys => ends_collection rfl
  | set elements => exact hpure (some _) rfl fun ys => ends_collection rfl
  | string utf8 => exact hpure (some _) rfl fun ys => ends_collection rfl
  | emptyList => exact hlist rfl
  | seq n => exact hlist rfl
  | lazy thunk => exact hlist rfl
  | realized s => exact hlist rfl
  | bool b => exact hnone rfl rfl
  | int n => exact hnone rfl rfl
  | object o captured => exact hnone rfl rfl

theorem outcomes_reduceItems {v : Value ω} {init : Option (Value ω)} (h : Ends H v xs) :
    Outcomes H (reduceItems H f init v) r ↔ folded H f init xs = some r := by
  obtain ⟨l, hl, rfl⟩ := gives_asSeqOrNull.mpr h
  have hitems := Comp.yields_ok.mpr hl
  unfold reduceItems
  refine (hitems.bind_iff fun _ _ _ => Program.Outcome.unique).trans ?_
  generalize l.getD [] = items
  cases init with
  | some acc =>
    refine outcomes_reduceIndices.trans ?_
    rw [map_getAt_range' (by omega), List.drop_zero, List.take_length]
    exact .rfl
  | none =>
    cases items with
    | nil => exact outcomes_invoke
    | cons x items =>
      refine outcomes_reduceIndices.trans ?_
      rw [map_getAt_range' (by simp only [List.length_cons]; omega)]
      simp only [List.length_cons, Nat.add_sub_cancel, List.drop_one, List.tail_cons,
        List.take_length]
      exact .rfl

theorem ends_of_reduceItems {v a : Value ω} {init : Option (Value ω)}
    (h : Gives H (reduceItems H f init v) a) : ∃ xs, Ends H v xs := by
  unfold reduceItems at h
  obtain ⟨l, hl, -⟩ := Comp.returns_bind.mp h
  exact ⟨_, gives_asSeqOrNull.mp ⟨l, hl, rfl⟩⟩

end Fold

/-! ### Counting -/

section Count
variable [DecidableEq ω] {H : Host ω}

theorem ends_cons {first more : Value ω} {ys : List (Value ω)} (h : Ends H more ys) :
    Ends H (.seq (.cons first more)) (first :: ys) :=
  ⟨_, seqOf_seq.mpr rfl, rfl, ends_orEmpty.mpr h⟩

theorem ends_of_tryCountFrom {v : Value ω} {m n : Nat} (h : tryCountFrom m v = some n) :
    ∃ xs, Ends H v xs ∧ n = m + xs.length := by
  induction m, v using tryCountFrom.induct with
  | case1 m =>
    obtain rfl := Option.some.inj h
    exact ⟨[], ends_nil.mpr rfl, rfl⟩
  | case2 m items =>
    obtain rfl := Option.some.inj h
    exact ⟨items, ends_vector.mpr rfl, rfl⟩
  | case3 m first rest =>
    obtain rfl := Option.some.inj h
    exact ⟨first :: rest, ends_list.mpr rfl, rfl⟩
  | case4 m =>
    obtain rfl := Option.some.inj h
    exact ⟨[], ends_emptyList.mpr rfl, rfl⟩
  | case5 m first more ih =>
    obtain ⟨xs, hx, hn⟩ := ih h
    refine ⟨first :: xs, ends_cons hx, ?_⟩
    rw [hn, List.length_cons]
    omega
  | case6 m c chunked more ih =>
    obtain ⟨xs, hx, hn⟩ := ih h
    refine ⟨c.elements ++ xs, ends_chunk.mpr ⟨xs, rfl, hx⟩, ?_⟩
    rw [hn, List.length_append, c.length_elements, Nat.add_assoc]
  | case7 m v => simp_all [tryCountFrom]

end Count

/-! ### Every traversal -/

/-- The computation folds what a walk of `v` meets: it answers only where the walk ends, and
there it does, raising included, what the calls one after the other do. -/
def FoldsWalk [DecidableEq ω] (H : Host ω) (v f : Value ω) (init : Option (Value ω))
    (c : Run ω (Value ω)) : Prop :=
  (∀ a, Gives H c a → ∃ xs, Enumerates H v xs) ∧
    ∀ xs, Enumerates H v xs → ∀ r, Outcomes H c r ↔ folded H f init xs = some r

section Every
variable [DecidableEq ω] {H : Host ω} {v f : Value ω} {init : Option (Value ω)}

theorem foldsWalk_reduceWalk : FoldsWalk H v f init (reduceWalk H f init v) := by
  refine ⟨fun a h => ?_, fun xs hx r => outcomes_reduceWalk (enumerates_iff.mp hx)⟩
  obtain ⟨xs, hx⟩ := ends_of_reduceWalk h
  exact ⟨xs, enumerates_iff.mpr hx⟩

theorem foldsWalk_reduceItems : FoldsWalk H v f init (reduceItems H f init v) := by
  refine ⟨fun a h => ?_, fun xs hx r => outcomes_reduceItems (enumerates_iff.mp hx)⟩
  obtain ⟨xs, hx⟩ := ends_of_reduceItems h
  exact ⟨xs, enumerates_iff.mpr hx⟩

theorem foldsWalk_reduceList (p : List (Value ω)) :
    FoldsWalk H (.ofList p) f init (reduceList f init p) := by
  refine ⟨fun a h => ⟨p, enumerates_iff.mpr (ends_ofList.mpr rfl)⟩, fun xs hx r => ?_⟩
  rw [ends_ofList.mp (enumerates_iff.mp hx)]
  exact outcomes_reduceList

theorem foldsWalk_reduce : FoldsWalk H v f init (reduce H f init v) := by
  cases v with
  | emptyList => exact foldsWalk_reduceList []
  | seq n =>
    cases n with
    | list first rest => exact foldsWalk_reduceList (first :: rest)
    | cons first more => exact foldsWalk_reduceWalk
    | chunk c chunked more => exact foldsWalk_reduceWalk
  | lazy thunk => exact foldsWalk_reduceWalk
  | realized s => exact foldsWalk_reduceWalk
  | _ => exact foldsWalk_reduceItems

/-- The walk by `seqFirst` and `seqMore` sets the elements; every other traversal reads the
same ones, with the same outcome at each position, and so does a walk at a later stage. -/
theorem walks_agree (H : Host ω) (v : Value ω) :
    (∀ k, (byCursor H).element v k = (bySeqMore H).element v k) ∧
    (∀ k, (byNext H).element v k = (bySeqMore H).element v k) ∧
    (∀ k r, Outcomes H ((byRest H).element v k) r ↔ Outcomes H ((bySeqMore H).element v k) r) ∧
    (∀ l, Gives H (seqToList H v) l ↔ ∃ xs, Enumerates H v xs ∧ l = nonEmpty xs) ∧
    (∀ f init, FoldsWalk H v f init (reduce H f init v) ∧
      FoldsWalk H v f init (reduceWalk H f init v) ∧
      FoldsWalk H v f init (reduceItems H f init v) ∧
      ∀ p, v = .ofList p → FoldsWalk H v f init (reduceList f init p)) ∧
    (∀ n, tryCount v = some n → ∃ xs, Enumerates H v xs ∧ xs.length = n) ∧
    ∀ v', Stage H v v' → ∀ xs, Enumerates H v' xs ↔ Enumerates H v xs := by
  refine ⟨byCursor_element v, byNext_element v, byRest_element v, fun l => ?_,
    fun f init => ⟨foldsWalk_reduce, foldsWalk_reduceWalk, foldsWalk_reduceItems, ?_⟩,
    fun n h => ?_, fun v' h xs => ?_⟩
  · simp only [enumerates_iff]
    exact gives_seqToList
  · rintro p rfl
    exact foldsWalk_reduceList p
  · obtain ⟨xs, hx, hn⟩ := ends_of_tryCountFrom h
    exact ⟨xs, enumerates_iff.mpr hx, by omega⟩
  · rw [enumerates_iff, enumerates_iff]
    exact h.ends_iff

end Every
end ProtoClojure.Sequences
