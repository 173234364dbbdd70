import ProtoClojure.Sequences.Reading

/-! Every way of walking a sequence meets the same elements. -/
namespace ProtoClojure.Sequences
open Recursion

variable {ω : Type}

/-! ### Traversals -/

/-- A position, the element there (none at the end) and the step to the next. -/
structure Traversal (ω : Type) where
  State : Type
  start : Value ω → Run ω State
  read : State → Run ω (Option (Value ω))
  advance : State → Run ω State

namespace Traversal

def position (T : Traversal ω) (v : Value ω) : Nat → Run ω T.State
  | 0 => T.start v
  | k + 1 => do T.advance (← T.position v k)

def element (T : Traversal ω) (v : Value ω) (k : Nat) : Run ω (Option (Value ω)) := do
  T.read (← T.position v k)

/-- One traversal follows another when `G` turns its positions into the other's. -/
theorem position_bind {T U : Traversal ω} {G : T.State → Run ω U.State}
    (hstart : ∀ v, T.start v >>= G = U.start v)
    (hadvance : ∀ s, T.advance s >>= G = G s >>= U.advance) (v : Value ω) (k : Nat) :
    T.position v k >>= G = U.position v k := by
  induction k with
  | zero => exact hstart v
  | succ k ih =>
    show (T.position v k >>= T.advance) >>= G = U.position v k >>= U.advance
    rw [bind_assoc, ← ih, bind_assoc]
    exact bind_congr hadvance

theorem element_eq {T U : Traversal ω} {G : T.State → Run ω U.State}
    (hstart : ∀ v, T.start v >>= G = U.start v)
    (hadvance : ∀ s, T.advance s >>= G = G s >>= U.advance)
    (hread : ∀ s, T.read s = G s >>= U.read) (v : Value ω) (k : Nat) :
    T.element v k = U.element v k := by
  show T.position v k >>= T.read = U.position v k >>= U.read
  rw [← position_bind hstart hadvance, bind_assoc]
  exact bind_congr hread

end Traversal

variable (H : Host ω)

def seqStep (s : Option (Node ω)) : Run ω (Option (Node ω)) :=
  match s with
  | none => pure none
  | some s => seqOf H (seqMore s)

@[reducible] def bySeqMore : Traversal ω where
  State := Option (Node ω)
  start := seqOf H
  read s := pure (s.map seqFirst)
  advance := seqStep H

def byCursor : Traversal ω where
  State := SeqWalk ω
  start := SeqWalk.start H
  read w := pure (if w.isDone then none else some w.first)
  advance := SeqWalk.advance H

/-- `seq` once, then `first` and `next` until nil, as `doseq` does. -/
def byNext : Traversal ω where
  State := Value ω
  start := seq H
  read s := match s with
    | .nil => pure none
    | s => some <$> first H s
  advance := next H

/-- `first` and `rest` while `seq` answers one. -/
def byRest : Traversal ω where
  State := Value ω
  start := pure
  read v := do
    match ← seqOf H v with
    | none => return none
    | some _ => some <$> first H v
  advance := rest H

/-! ### The cursor -/

def listSeq : List (Value ω) → Option (Node ω)
  | [] => none
  | x :: xs => some (.list x xs)

variable {H}

theorem seqOf_ofList (xs : List (Value ω)) : seqOf H (.ofList xs) = pure (listSeq xs) := by
  cases xs <;> rfl

theorem seqOf_orEmpty_eq (v : Value ω) : seqOf H v.orEmpty = seqOf H v := by
  cases v <;> rfl

/-- The chunk from `i` on. -/
abbrev Chunk.onward {α : Type} (c : Chunk α) (i : Nat) (h : c.off ≤ i ∧ i < c.stop) : Chunk α :=
  .of c.items i c.stop ⟨h.2, c.stop_le⟩

namespace SeqWalk

/-- The seq from the cursor on. -/
def seq : SeqWalk ω → Option (Node ω)
  | .done => none
  | .cons first more => some (.cons first more)
  | .list first rest i _ => listSeq ((first :: rest).drop i)
  | .chunk c chunked more i h => some (.chunk (c.onward i h) chunked more)

theorem seq_list {first : Value ω} {rest : List (Value ω)} {i : Nat}
    (h : i < listHeadCount (rest.length + 1)) :
    (SeqWalk.list first rest i h).seq = listSeq ((first :: rest).drop i) := rfl

theorem seq_chunk {c : Chunk (Value ω)} {chunked : Bool} {more : Value ω} {i : Nat}
    (h : c.off ≤ i ∧ i < c.stop) : (SeqWalk.chunk c chunked more i h).seq =
      some (.chunk (.of c.items i c.stop ⟨h.2, c.stop_le⟩) chunked more) := rfl

theorem load_seq (s : Option (Node ω)) : (load s).seq = s := by
  cases s with
  | none => rfl
  | some n =>
    cases n with
    | list first rest => rfl
    | cons first more => rfl
    | chunk c chunked more =>
      show some (Node.chunk (.of c.items c.off c.stop _) chunked more) = _
      rw [Chunk.of_self]

/-- The head cell never ends past the list. -/
theorem drop_list {first : Value ω} {rest : List (Value ω)} {i : Nat}
    (h : i < listHeadCount (rest.length + 1)) :
    (first :: rest).drop i = getAt (first :: rest) i :: (first :: rest).drop (i + 1) := by
  have hle := listHeadCount_le (Nat.succ_pos rest.length)
  have hi : i < (first :: rest).length := Nat.lt_of_lt_of_le h hle
  rw [getAt_eq hi, List.drop_eq_getElem_cons hi]

theorem read_eq (w : SeqWalk ω) :
    (if w.isDone then none else some w.first) = w.seq.map seqFirst := by
  cases w with
  | done => rfl
  | cons first more => rfl
  | list first rest i h =>
    rw [seq_list, drop_list h]
    rfl
  | chunk c chunked more i h => simp [isDone, SeqWalk.first, seq_chunk, seqFirst]

theorem isDone_iff (w : SeqWalk ω) : w.isDone = true ↔ w.seq = none := by
  have h := w.read_eq
  cases hw : w.isDone <;> cases hs : w.seq <;> simp_all

theorem first_of_seq {w : SeqWalk ω} {n : Node ω} (h : w.seq = some n) : w.first = seqFirst n := by
  have hr := w.read_eq
  have hd : w.isDone = false := by
    have := w.isDone_iff
    cases hw : w.isDone <;> simp_all
  rw [hd, h] at hr
  exact Option.some.inj hr

theorem moveTo_seq (more : Value ω) : seq <$> moveTo H more = seqOf H more := by
  have hload : ∀ c : Run ω (Option (Node ω)), seq <$> load <$> c = c := fun c => by
    rw [← comp_map]
    have hid : seq ∘ load = (id : Option (Node ω) → _) := funext load_seq
    rw [hid, id_map]
  cases more with
  | nil => rfl
  | emptyList => rfl
  | seq s => exact congrArg (pure : _ → Run ω _) (load_seq (some s))
  | _ => exact hload _

theorem start_seq (v : Value ω) : seq <$> start H v = seqOf H v := by
  cases v with
  | nil => rfl
  | emptyList => rfl
  | seq s => exact moveTo_seq (.seq s)
  | bool b => exact moveTo_seq (.bool b)
  | int n => exact moveTo_seq (.int n)
  | string utf8 => exact moveTo_seq (.string utf8)
  | object o captured => exact moveTo_seq (.object o captured)
  | vector items => exact moveTo_seq (.vector items)
  | map entries => exact moveTo_seq (.map entries)
  | set elements => exact moveTo_seq (.set elements)
  | lazy thunk => exact moveTo_seq (.lazy thunk)
  | realized s => exact moveTo_seq (.realized s)

/-- The cursor's step is the step of the seq from the cursor on. -/
theorem advance_seq (w : SeqWalk ω) : seq <$> w.advance H = seqStep H w.seq := by
  cases w with
  | done => rfl
  | cons first more =>
    show seq <$> moveTo H more = seqOf H more.orEmpty
    rw [moveTo_seq, seqOf_orEmpty_eq]
  | list first rest i h =>
    rw [seq_list, drop_list h]
    show seq <$> (if h : i + 1 < listHeadCount (rest.length + 1) then _
      else moveTo H (.ofList ((first :: rest).drop (listHeadCount (rest.length + 1))))) =
        seqOf H (.ofList ((first :: rest).drop (i + 1)))
    split
    · exact (seqOf_ofList _).symm
    · have hlast : listHeadCount (rest.length + 1) = i + 1 := by omega
      rw [moveTo_seq, hlast]
  | chunk c chunked more i hi =>
    have hmore : ∀ h, seqMore (.chunk (.of c.items i c.stop h) chunked more) =
        if h : i + 1 < c.stop then
          .seq (.chunk (.of c.items (i + 1) c.stop ⟨h, c.stop_le⟩) chunked more)
        else more.orEmpty := fun h => by
      simp only [seqMore, Chunk.of_off, Chunk.of_stop, Chunk.of_items]
    show seq <$> (if h : i + 1 < c.stop then _ else moveTo H more) =
      seqOf H (seqMore (.chunk (.of c.items i c.stop _) chunked more))
    rw [hmore]
    split
    · rfl
    · rw [moveTo_seq, seqOf_orEmpty_eq]

theorem seqOf_remaining (w : SeqWalk ω) : seqOf H w.remaining = pure w.seq := by
  cases w with
  | done => rfl
  | cons first more => rfl
  | list first rest i h =>
    show seqOf H (if i = 0 then _ else _) = _
    split
    · subst i
      rfl
    · exact seqOf_ofList _
  | chunk c chunked more i h =>
    show seqOf H (if i = c.off then _ else _) = _
    split
    · subst i
      rw [seq_chunk, Chunk.of_self]
      rfl
    · rfl

end SeqWalk

theorem byCursor_element (v : Value ω) (k : Nat) :
    (byCursor H).element v k = (bySeqMore H).element v k := by
  refine Traversal.element_eq (T := byCursor H) (U := bySeqMore H) (G := fun w => pure w.seq)
    SeqWalk.start_seq (fun w => ?_) (fun w => congrArg pure w.read_eq) v k
  exact SeqWalk.advance_seq w

/-! ### `first`, `next` and `rest` -/

/-- At the last element of a node, `next` is the seq of what follows. -/
theorem next_last {n : Node ω} {more : Value ω} (hn : tryNext (.seq n) = trySeq more)
    (hm : seqMore n = more.orEmpty) : next H (.seq n) = .ofSeq <$> seqOf H more := by
  unfold next
  rw [hn]
  cases more with
  | nil => rfl
  | emptyList => rfl
  | seq s => rfl
  | vector items => rfl
  | _ =>
    show (do return Value.ofSeq (← seqOf H (seqMore n))) = _
    rw [hm, bind_pure_comp]
    rfl

theorem next_ofSeq (s : Option (Node ω)) : next H (.ofSeq s) = .ofSeq <$> seqStep H s := by
  cases s with
  | none => rfl
  | some n =>
    cases n with
    | list first rest =>
      cases rest with
      | nil => rfl
      | cons x xs => rfl
    | cons first more =>
      show _ = Value.ofSeq <$> seqOf H more.orEmpty
      rw [seqOf_orEmpty_eq]
      exact next_last rfl rfl
    | chunk c chunked more =>
      show _ = Value.ofSeq <$> seqOf H (if h : c.off + 1 < c.stop then _ else more.orEmpty)
      split
      · rename_i h
        simp only [Value.ofSeq, next, tryNext, dif_pos h]
        rfl
      · rename_i h
        rw [seqOf_orEmpty_eq]
        exact next_last (dif_neg h) (dif_neg h)

theorem first_seq (n : Node ω) : first H (.seq n) = pure (seqFirst n) := by
  cases n <;> rfl

theorem byNext_element (v : Value ω) (k : Nat) :
    (byNext H).element v k = (bySeqMore H).element v k := by
  refine (Traversal.element_eq (T := bySeqMore H) (U := byNext H)
    (G := fun s => pure (.ofSeq s)) (fun _ => rfl) (fun s => ?_) (fun s => ?_) v k).symm
  · exact (bind_pure_comp _ _).trans (next_ofSeq s).symm
  · cases s with
    | none => rfl
    | some n =>
      show _ = some <$> first H (.seq n)
      rw [first_seq]
      rfl

/-- `seq` of `rest` is the step of `seq`. -/
theorem rest_seqOf (v : Value ω) : rest H v >>= seqOf H = seqOf H v >>= seqStep H := by
  have hslow : (do
      match ← seqOf H v with
      | none => return .emptyList
      | some s => return seqMore s) >>= seqOf H = seqOf H v >>= seqStep H := by
    rw [bind_assoc]
    refine bind_congr fun s => ?_
    cases s <;> rfl
  cases v with
  | seq n => cases n <;> rfl
  | vector items =>
    unfold rest tryRest vectorRest
    show seqOf H _ = seqStep H (newChunk items true .nil)
    unfold newChunk
    split
    · by_cases h0 : items.length = 0
      · rw [dif_pos h0]
        rfl
      · rw [dif_neg h0]
        have h1 : ¬ 0 + 1 < items.length := by omega
        simp only [seqStep, seqMore, Chunk.of_off, Chunk.of_stop, dif_neg h1]
        rfl
    · rename_i h
      have h0 : ¬ items.length = 0 := by omega
      have h1 : 0 + 1 < items.length := by omega
      rw [dif_neg h0]
      simp only [seqStep, seqMore, Chunk.of_off, Chunk.of_stop, Chunk.of_items, dif_pos h1]
  | nil => rfl
  | emptyList => rfl
  | _ => exact hslow

theorem byRest_position (v : Value ω) (k : Nat) :
    (byRest H).position v k >>= seqOf H = (bySeqMore H).position v k :=
  Traversal.position_bind (T := byRest H) (U := bySeqMore H) (fun _ => rfl) rest_seqOf v k

section Elements
variable [DecidableEq ω]

abbrev Outcomes (H : Host ω) {α : Type} (c : Run ω α) (r : Except (Raised ω) α) : Prop :=
  c.Yields (program H).Outcome r

theorem byRest_read (v : Value ω) (r : Except (Raised ω) (Option (Value ω))) :
    Outcomes H ((byRest H).read v) r ↔
      Outcomes H (seqOf H v >>= fun s => pure (s.map seqFirst)) r := by
  -- where `first` goes through `seqOf`, the lazy seq has been realised by then
  have hslow : (first H v = do
      match ← seqOf H v with
      | none => return .nil
      | some s => return seqFirst s) →
      (Outcomes H ((byRest H).read v) r ↔
        Outcomes H (seqOf H v >>= fun s => pure (s.map seqFirst)) r) := by
    intro hfirst
    refine Comp.yields_bind_congr fun s hs => ?_
    cases s with
    | none => exact .rfl
    | some n =>
      show Outcomes H (some <$> first H v) r ↔ _
      rw [hfirst, map_bind]
      exact hs.bind_iff fun _ _ _ => Program.Outcome.unique
  cases v with
  | nil => exact .rfl
  | emptyList => exact .rfl
  | seq n =>
    show Outcomes H (some <$> first H (.seq n)) r ↔ _
    rw [first_seq]
    exact .rfl
  | vector items =>
    have hread : (byRest H).read (.vector items) =
        seqOf H (.vector items) >>= fun s => pure (s.map seqFirst) := by
      show seqOf H (.vector items) >>= _ = seqOf H (.vector items) >>= _
      have hseq : seqOf H (.vector items) = pure (newChunk items true .nil) := rfl
      rw [hseq, pure_bind, pure_bind]
      by_cases h : items.length = 0
      · rw [newChunk, dif_pos h]
        rfl
      · rw [newChunk, dif_neg h]
        show some <$> first H (.vector items) = pure (some (getAt (Chunk.of items 0 _ _).items _))
        rw [Chunk.of_items, Chunk.of_off]
        simp only [first, tryFirst, if_neg h, map_pure]
    rw [hread]
  | _ => exact hslow rfl

theorem byRest_element (v : Value ω) (k : Nat) (r : Except (Raised ω) (Option (Value ω))) :
    Outcomes H ((byRest H).element v k) r ↔ Outcomes H ((bySeqMore H).element v k) r := by
  have hposition : (bySeqMore H).element v k =
      (byRest H).position v k >>= fun u => seqOf H u >>= fun s => pure (s.map seqFirst) := by
    refine Eq.trans ?_ (bind_assoc _ _ _)
    exact congrArg (· >>= fun s => pure (s.map seqFirst)) (byRest_position v k).symm
  rw [hposition]
  exact Comp.yields_bind_congr fun u _ => byRest_read u r

end Elements

/-! ### Whole sequences -/

section Whole

/-- Walking `v` meets these elements and then its end. -/
def Enumerates [DecidableEq ω] (H : Host ω) (v : Value ω) (xs : List (Value ω)) : Prop :=
  ∀ k, Gives H ((bySeqMore H).element v k) xs[k]?

/-- The walk from the front: the first step, then the walk of what follows. -/
theorem position_succ (v : Value ω) (k : Nat) :
    (bySeqMore H).position v (k + 1) = seqOf H v >>= fun s =>
      match s with
      | none => pure none
      | some n => (bySeqMore H).position (seqMore n) k := by
  induction k with
  | zero =>
    refine bind_congr fun s => ?_
    cases s <;> rfl
  | succ k ih =>
    show (bySeqMore H).position v (k + 1) >>= (bySeqMore H).advance = _
    rw [ih, bind_assoc]
    refine bind_congr fun s => ?_
    cases s <;> rfl

variable [DecidableEq ω]

theorem gives_element_zero {v : Value ω} {x : Option (Value ω)} :
    Gives H ((bySeqMore H).element v 0) x ↔ ∃ s, SeqOf H v s ∧ s.map seqFirst = x :=
  Comp.returns_bind

theorem gives_element_succ {v : Value ω} {k : Nat} {x : Option (Value ω)} :
    Gives H ((bySeqMore H).element v (k + 1)) x ↔ (SeqOf H v none ∧ x = none) ∨
      ∃ n, SeqOf H v (some n) ∧ Gives H ((bySeqMore H).element (seqMore n) k) x := by
  show Gives H ((bySeqMore H).position v (k + 1) >>= (bySeqMore H).read) x ↔ _
  rw [position_succ, bind_assoc]
  refine Comp.returns_bind.trans ?_
  constructor
  · rintro ⟨s, hs, hx⟩
    cases s with
    | none => exact .inl ⟨hs, (Comp.returns_pure.mp hx).symm⟩
    | some n => exact .inr ⟨n, hs, hx⟩
  · rintro (⟨hs, rfl⟩ | ⟨n, hs, hx⟩)
    · exact ⟨none, hs, rfl⟩
    · exact ⟨some n, hs, hx⟩

theorem enumerates_iff {v : Value ω} {xs : List (Value ω)} : Enumerates H v xs ↔ Ends H v xs := by
  induction xs generalizing v with
  | nil =>
    constructor
    · intro h
      obtain ⟨s, hs, hx⟩ := gives_element_zero.mp (h 0)
      cases s with
      | none => exact hs
      | some n => cases hx
    · intro h k
      cases k with
      | zero => exact gives_element_zero.mpr ⟨none, h, rfl⟩
      | succ k => exact gives_element_succ.mpr (.inl ⟨h, rfl⟩)
  | cons x xs ih =>
    constructor
    · intro h
      obtain ⟨s, hs, hx⟩ := gives_element_zero.mp (h 0)
      cases s with
      | none => cases hx
      | some n =>
        refine ⟨n, hs, Option.some.inj hx, ih.mp fun k => ?_⟩
        rcases gives_element_succ.mp (h (k + 1)) with ⟨hn, -⟩ | ⟨n', hn, hk⟩
        · cases hs.unique hn
        · obtain rfl := Option.some.inj (hs.unique hn)
          exact hk
    · rintro ⟨n, hn, rfl, h⟩ k
      cases k with
      | zero => exact gives_element_zero.mpr ⟨some n, hn, rfl⟩
      | succ k => exact gives_element_succ.mpr (.inr ⟨n, hn, ih.mpr h k⟩)

/-! #### `seqToList` -/

/-- A step of the cursor is a step of the seq from it on. -/
theorem gives_advance {w : SeqWalk ω} {n : Node ω} (hw : w.seq = some n) {s : Option (Node ω)} :
    SeqOf H (seqMore n) s ↔ ∃ w', Gives H (w.advance H) w' ∧ w'.seq = s := by
  have h := SeqWalk.advance_seq (H := H) w
  rw [hw] at h
  show Gives H (seqStep H (some n)) s ↔ _
  rw [← h]
  exact Comp.returns_map

theorem gives_start {v : Value ω} {s : Option (Node ω)} :
    SeqOf H v s ↔ ∃ w, Gives H (SeqWalk.start H v) w ∧ w.seq = s := by
  unfold SeqOf
  rw [← SeqWalk.start_seq]
  exact Comp.returns_map

theorem ends_walk_cons {w : SeqWalk ω} {n : Node ω} (hw : w.seq = some n)
    {xs : List (Value ω)} : Ends H (.ofSeq w.seq) xs ↔
      ∃ w' ys, Gives H (w.advance H) w' ∧ xs = w.first :: ys ∧ Ends H (.ofSeq w'.seq) ys := by
  have hread : Reads H (.ofSeq w.seq) [w.first] (seqMore n) := by
    rw [hw, SeqWalk.first_of_seq hw]
    exact reads_seq
  rw [hread.ends_iff]
  constructor
  · rintro ⟨ys, rfl, hy⟩
    obtain ⟨s, hs⟩ := hy.seqOf
    obtain ⟨w', hw', rfl⟩ := (gives_advance hw).mp hs
    exact ⟨w', ys, hw', rfl, hs.ends_iff.mp hy⟩
  · rintro ⟨w', ys, hw', rfl, hy⟩
    have hs := (gives_advance hw).mpr ⟨w', hw', rfl⟩
    exact ⟨ys, rfl, hs.ends_iff.mpr hy⟩

theorem toListLoop_sound {acc out : List (Value ω)} {w : SeqWalk ω}
    (h : (program H).Answers (.toListLoop acc w) out) :
    ∃ xs, Ends H (.ofSeq w.seq) xs ∧ out = acc ++ xs := by
  refine Program.Answers.induct
    (motive := fun q => match q with
      | .toListLoop acc w => fun out => ∃ xs, Ends H (.ofSeq w.seq) xs ∧ out = acc ++ xs
      | _ => fun _ => True) (fun q a ha => ?_) h
  cases q with
  | toListLoop acc w =>
    have ha : (toListLoopBody H acc w).Returns _ a := ha
    unfold toListLoopBody at ha
    split at ha
    · rename_i hd
      obtain rfl := Comp.returns_pure.mp ha
      refine ⟨[], ?_, (List.append_nil acc).symm⟩
      rw [(w.isDone_iff).mp hd]
      exact ends_nil.mpr rfl
    · rename_i hd
      obtain ⟨w', hw', hrest⟩ := Comp.returns_bind.mp ha
      obtain ⟨-, xs, hxs, rfl⟩ := Comp.returns_ask.mp hrest
      obtain ⟨n, hn⟩ := Option.ne_none_iff_exists'.mp fun hs => hd ((w.isDone_iff).mpr hs)
      refine ⟨w.first :: xs, (ends_walk_cons hn).mpr ⟨w', xs, ?_, rfl, hxs⟩, ?_⟩
      · exact hw'.mono fun _ _ => And.left
      · rw [List.append_assoc, List.singleton_append]
  | _ => trivial

theorem toListLoop_complete {acc xs : List (Value ω)} {w : SeqWalk ω}
    (h : Ends H (.ofSeq w.seq) xs) : (program H).Answers (.toListLoop acc w) (acc ++ xs) := by
  induction xs generalizing acc w with
  | nil =>
    have hs : w.seq = none := (seqOf_ofSeq.mp h).symm
    refine Program.answers_iff.mpr ?_
    show (toListLoopBody H acc w).Returns _ _
    unfold toListLoopBody
    rw [if_pos ((w.isDone_iff).mpr hs), List.append_nil]
    exact rfl
  | cons x xs ih =>
    obtain ⟨n, hn, -, -⟩ := id h
    have hs : w.seq = some n := (seqOf_ofSeq.mp hn).symm
    obtain ⟨w', ys, hw', hx, hy⟩ := (ends_walk_cons hs).mp h
    obtain ⟨rfl, rfl⟩ := List.cons.inj hx
    refine Program.answers_iff.mpr ?_
    show (toListLoopBody H acc w).Returns _ _
    unfold toListLoopBody
    rw [if_neg fun hd => by rw [(w.isDone_iff).mp hd] at hs; cases hs]
    refine Comp.returns_bind.mpr ⟨w', hw', Comp.returns_ask.mpr ?_⟩
    have hloop : (program H).Answers (.toListLoop (acc ++ [w.first]) w')
        ((acc ++ [w.first]) ++ xs) := ih hy
    rwa [List.append_assoc, List.singleton_append] at hloop

theorem gives_walkToList {v : Value ω} {l : Option (List (Value ω))} :
    Gives H (walkToList H v) l ↔ ∃ xs, Ends H v xs ∧ l = nonEmpty xs := by
  unfold walkToList
  constructor
  · intro h
    obtain ⟨w, hw, h⟩ := Comp.returns_bind.mp h
    obtain ⟨out, hout, h⟩ := Comp.returns_bind.mp h
    obtain ⟨xs, hxs, hacc⟩ := toListLoop_sound (Comp.returns_ask.mp hout)
    have hs := gives_start.mpr ⟨w, hw, rfl⟩
    rw [hacc] at h
    exact ⟨xs, hs.ends_iff.mpr hxs, (Comp.returns_pure.mp h).symm⟩
  · rintro ⟨xs, hxs, hl⟩
    obtain ⟨s, hs⟩ := hxs.seqOf
    obtain ⟨w, hw, rfl⟩ := gives_start.mp hs
    refine Comp.returns_bind.mpr ⟨w, hw, Comp.returns_bind.mpr ⟨xs, ?_, hl.symm⟩⟩
    have hloop : (program H).Answers (.toListLoop [] w) ([] ++ xs) :=
      toListLoop_complete (hs.ends_iff.mp hxs)
    exact Comp.returns_ask.mpr hloop

/-- A representation of finitely many elements, read without a walk. -/
theorem gives_of_ends {v : Value ω} {α : Type} {a : α} (f : List (Value ω) → α)
    (items : List (Value ω)) (hv : ∀ xs, Ends H v xs ↔ xs = items) :
    Gives H (pure (f items)) a ↔ ∃ xs, Ends H v xs ∧ a = f xs := by
  refine Comp.returns_pure.trans ⟨?_, ?_⟩
  · rintro rfl
    exact ⟨items, (hv items).mpr rfl, rfl⟩
  · rintro ⟨xs, hx, rfl⟩
    rw [(hv xs).mp hx]

theorem not_gives_notSeqable {v : Value ω} {α : Type} {a : α} : ¬ Gives H (notSeqable H v) a :=
  Comp.returns_throw

theorem gives_seqToList {v : Value ω} {l : Option (List (Value ω))} :
    Gives H (seqToList H v) l ↔ ∃ xs, Ends H v xs ∧ l = nonEmpty xs := by
  have hcollection : ∀ items, collectionItems v = some items →
      (Gives H (pure (nonEmpty items)) l ↔ ∃ xs, Ends H v xs ∧ l = nonEmpty xs) :=
    fun items hv => gives_of_ends nonEmpty items fun xs => ends_collection hv
  have hnone : seqOf H v = notSeqable H v →
      (Gives H (notSeqable H v) l ↔ ∃ xs, Ends H v xs ∧ l = nonEmpty xs) := by
    intro hv
    refine iff_of_false not_gives_notSeqable ?_
    rintro ⟨xs, hx, -⟩
    obtain ⟨s, hs⟩ := hx.seqOf
    unfold SeqOf at hs
    rw [hv] at hs
    exact not_gives_notSeqable hs
  cases v with
  | nil => exact gives_of_ends nonEmpty [] fun xs => ends_nil
  | emptyList => exact gives_of_ends nonEmpty [] fun xs => ends_emptyList
  | vector items => exact gives_of_ends nonEmpty items fun xs => ends_vector
  | seq n =>
    cases n with
    | list first rest => exact gives_of_ends nonEmpty (first :: rest) fun xs => ends_list
    | cons first more => exact gives_walkToList
    | chunk c chunked more => exact gives_walkToList
  | lazy thunk => exact gives_walkToList
  | realized s => exact gives_walkToList
  | map entries => exact hcollection _ rfl
  | set elements => exact hcollection _ rfl
  | string utf8 => exact hcollection _ rfl
  | bool b => exact hnone rfl
  | int n => exact hnone rfl
  | object o captured => exact hnone rfl

end Whole
end ProtoClojure.Sequences
