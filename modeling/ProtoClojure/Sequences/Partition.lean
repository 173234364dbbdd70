import ProtoClojure.Sequences.Traversals
import ProtoClojure.Collections.Windows

/-! What `partition`, `partition` with a pad and `partition-all` enumerate. -/
namespace ProtoClojure.Sequences
open Recursion Windows

variable {ω : Type}

/-! ### The windows -/

section Windows
variable {α : Type}

/-- Clojure's windows. `partition` stops before the first short one, a pad completes it, and
`partition-all` goes on while there are elements. -/
def partitions (mode : PartitionMode) (n step : Nat) (pad es : Nat → Option α) (i : Nat) :
    Option (List α) :=
  let w := window n step es i
  match mode with
  | .partition => if FullBefore n step es (i + 1) then some w else none
  | .padded =>
    if FullBefore n step es i ∧ (es (i * step)).isSome then
      some (w ++ firsts (n - w.length) pad)
    else none
  | .all => if (es (i * step)).isSome then some w else none

/-- The windows the step answers: the first short one ends them in every mode. -/
def stepWindows (mode : PartitionMode) (n step : Nat) (pad es : Nat → Option α) (i : Nat) :
    Option (List α) :=
  if FullBefore n step es i then partitions mode n step pad es i else none

end Windows

/-! ### What a value produces -/

/-- A walk of `v` meets these elements, and then its end if they have one. -/
def Produces [DecidableEq ω] (H : Host ω) (v : Value ω) (es : Nat → Option (Value ω)) : Prop :=
  ∀ k, Gives H ((bySeqMore H).element v k) (es k)

variable [DecidableEq ω] {H : Host ω}

section
variable {v u : Value ω} {es es' : Nat → Option (Value ω)} {s : Option (Node ω)}

theorem Produces.unique (h : Produces H v es) (h' : Produces H v es') : es = es' := by
  funext k
  exact (h k).unique (h' k)

theorem Produces.seqOf (h : Produces H v es) : ∃ s, SeqOf H v s ∧ s.map seqFirst = es 0 :=
  gives_element_zero.mp (h 0)

theorem produces_none (hs : SeqOf H v none) : Produces H v es ↔ ∀ k, es k = none := by
  have hnone : Produces H v fun _ => none := by
    intro k
    cases k with
    | zero => exact gives_element_zero.mpr ⟨none, hs, rfl⟩
    | succ k => exact gives_element_succ.mpr (.inl ⟨hs, rfl⟩)
  constructor
  · exact fun h k => congrFun (h.unique hnone) k
  · exact fun h k => (h k).symm ▸ hnone k

theorem gives_element_end (hs : SeqOf H v none) (k : Nat) :
    Gives H ((bySeqMore H).element v k) none := by
  have hnone : Produces H v fun _ => none := (produces_none hs).mpr fun _ => rfl
  exact hnone k

theorem produces_some {m : Node ω} (hs : SeqOf H v (some m)) :
    Produces H v es ↔ es 0 = some (seqFirst m) ∧ Produces H (seqMore m) (drop es 1) := by
  constructor
  · intro h
    obtain ⟨s, hs', h0⟩ := h.seqOf
    obtain rfl := hs.unique hs'
    refine ⟨h0.symm, fun k => ?_⟩
    rcases gives_element_succ.mp (h (k + 1)) with ⟨hn, -⟩ | ⟨m', hm, hk⟩
    · cases hs.unique hn
    · obtain rfl := Option.some.inj (hs.unique hm)
      exact hk
  · rintro ⟨h0, h⟩ k
    cases k with
    | zero => exact gives_element_zero.mpr ⟨some m, hs, h0.symm⟩
    | succ k => exact gives_element_succ.mpr (.inr ⟨m, hs, h k⟩)

theorem produces_congr (hv : SeqOf H v s) (hu : SeqOf H u s) : Produces H v es ↔ Produces H u es := by
  cases s with
  | none => rw [produces_none hv, produces_none hu]
  | some m => rw [produces_some hv, produces_some hu]

theorem Produces.closed (h : Produces H v es) : Closed es := by
  intro k hk
  induction k generalizing v es with
  | zero =>
    obtain ⟨s, hs, h0⟩ := h.seqOf
    cases s with
    | none => exact (produces_none hs).mp h 1
    | some m => cases h0.trans hk
  | succ k ih =>
    obtain ⟨s, hs, h0⟩ := h.seqOf
    cases s with
    | none => exact (produces_none hs).mp h (k + 1 + 1)
    | some m => exact ih ((produces_some hs).mp h).2 hk

theorem produces_of_ends {xs : List (Value ω)} (h : Ends H v xs) : Produces H v fun k => xs[k]? :=
  enumerates_iff.mpr h

end

/-! ### The cursor -/

section
variable {w : SeqWalk ω} {v : Value ω} {es : Nat → Option (Value ω)}

theorem seqOf_walk (w : SeqWalk ω) : SeqOf H (.ofSeq w.seq) w.seq := seqOf_ofSeq.mpr rfl

theorem Produces.done (h : Produces H (.ofSeq w.seq) es) (hd : w.isDone = true) (k : Nat) :
    es k = none := by
  have hs := seqOf_walk (H := H) w
  rw [(w.isDone_iff).mp hd] at hs h
  exact (produces_none hs).mp h k

theorem Produces.advance (h : Produces H (.ofSeq w.seq) es) (hd : ¬ w.isDone = true) :
    es 0 = some w.first ∧
      ∃ w', Gives H (w.advance H) w' ∧ Produces H (.ofSeq w'.seq) (drop es 1) := by
  obtain ⟨m, hm⟩ := Option.ne_none_iff_exists'.mp fun hs => hd ((w.isDone_iff).mpr hs)
  have hs : SeqOf H (.ofSeq w.seq) (some m) := hm ▸ seqOf_walk w
  obtain ⟨h0, hmore⟩ := (produces_some hs).mp h
  obtain ⟨s, hs', -⟩ := hmore.seqOf
  obtain ⟨w', hw', rfl⟩ := (gives_advance hm).mp hs'
  rw [SeqWalk.first_of_seq hm]
  exact ⟨h0, w', hw', (produces_congr hs' (seqOf_walk w')).mp hmore⟩

theorem Produces.start (h : Produces H v es) :
    ∃ w, Gives H (SeqWalk.start H v) w ∧ Produces H (.ofSeq w.seq) es := by
  obtain ⟨s, hs, -⟩ := h.seqOf
  obtain ⟨w, hw, rfl⟩ := gives_start.mp hs
  exact ⟨w, hw, (produces_congr hs (seqOf_walk w)).mp h⟩

theorem gives_collect (h : Produces H (.ofSeq w.seq) es) (n : Nat) :
    Gives H (collect H n w) (firsts n es) := by
  induction n generalizing w es with
  | zero => exact Comp.returns_pure.mpr rfl
  | succ n ih =>
    rw [collect, firsts]
    by_cases hd : w.isDone = true
    · rw [if_pos hd, h.done hd 0]
      exact Comp.returns_pure.mpr rfl
    · obtain ⟨h0, w', hw', hrest⟩ := h.advance hd
      rw [if_neg hd, h0]
      refine Comp.returns_bind.mpr ⟨w', hw', Comp.returns_bind.mpr ⟨_, ih hrest, ?_⟩⟩
      exact Comp.returns_pure.mpr rfl

theorem gives_skip (h : Produces H (.ofSeq w.seq) es) (n : Nat) :
    ∃ w', Gives H (skip H n w) w' ∧ Produces H (.ofSeq w'.seq) (drop es n) := by
  induction n generalizing w es with
  | zero => exact ⟨w, Comp.returns_pure.mpr rfl, h⟩
  | succ n ih =>
    rw [skip]
    by_cases hd : w.isDone = true
    · rw [if_pos hd]
      refine ⟨w, Comp.returns_pure.mpr rfl, fun k => ?_⟩
      have hnone : drop es (n + 1) k = es k := (h.done hd _).trans (h.done hd k).symm
      rw [hnone]
      exact h k
    · obtain ⟨-, w', hw', hrest⟩ := h.advance hd
      obtain ⟨w'', hw'', hskip⟩ := ih hrest
      rw [drop_drop] at hskip
      rw [if_neg hd]
      exact ⟨w'', Comp.returns_bind.mpr ⟨w', hw', hw''⟩, hskip⟩

/-- What the cursor has still before it, nil at the end. -/
theorem Produces.remaining (h : Produces H (.ofSeq w.seq) es) :
    Produces H (if w.isDone then .nil else w.remaining) es := by
  have hs := seqOf_walk (H := H) w
  split
  · rename_i hd
    exact (produces_none (seqOf_nil.mpr rfl)).mpr (h.done hd)
  · have hrem : SeqOf H w.remaining w.seq := by
      unfold SeqOf
      rw [SeqWalk.seqOf_remaining]
      exact Comp.returns_pure.mpr rfl
    exact (produces_congr hs hrem).mp h

end

/-! ### The step -/

section
variable {n step : Nat} {mode : PartitionMode} {pad coll : Value ω}
  {ps es : Nat → Option (Value ω)}

/-- What a short window at the front answers: in every mode it is the last. -/
def shortWindow (mode : PartitionMode) (n : Nat) (pad : Nat → Option (Value ω))
    (items : List (Value ω)) : Option (List (Value ω)) :=
  match mode with
  | .partition => none
  | .padded => some (items ++ firsts (n - items.length) pad)
  | .all => some items

omit [DecidableEq ω] in
theorem stepWindows_end (hn : 0 < n) (hes : ∀ k, es k = none) (i : Nat) :
    stepWindows mode n step ps es i = none := by
  have h0 : (window n step es 0).length ≠ n := by
    obtain ⟨n, rfl⟩ := Nat.exists_eq_succ_of_ne_zero (Nat.ne_of_gt hn)
    simp [window_zero, firsts, hes]
  unfold stepWindows partitions
  cases mode with
  | partition =>
    have hnot : ¬ FullBefore n step es (i + 1) := fun h => h0 (h 0 (Nat.zero_lt_succ i))
    simp [hnot]
  | _ => simp [hes]

omit [DecidableEq ω] in
theorem stepWindows_succ (i : Nat) : stepWindows mode n step ps es (i + 1) =
    if (firsts n es).length = n then stepWindows mode n step ps (drop es step) i else none := by
  unfold stepWindows partitions
  rw [drop_succ_mul es, window_succ]
  by_cases hfull : (firsts n es).length = n
  · cases mode <;> simp [fullBefore_succ, hfull]
  · simp [fullBefore_succ, hfull]

omit [DecidableEq ω] in
theorem stepWindows_zero (h0 : (es 0).isSome = true) : stepWindows mode n step ps es 0 =
    if (firsts n es).length = n then some (firsts n es) else shortWindow mode n ps (firsts n es) := by
  have hone : FullBefore n step es 1 ↔ (firsts n es).length = n :=
    fullBefore_succ.trans (and_iff_left fullBefore_zero)
  unfold stepWindows partitions
  rw [if_pos fullBefore_zero, window_zero, Nat.zero_mul, Nat.zero_add]
  by_cases hfull : (firsts n es).length = n
  · cases mode <;> simp [hone, hfull, h0, fullBefore_zero, firsts]
  · cases mode <;> simp [hone, hfull, h0, fullBefore_zero, shortWindow]

variable (step mode)

theorem gives_partition_end (hc : Produces H coll es) (h0 : es 0 = none) :
    SeqOf H (.lazy (.partition n step pad mode coll)) none := by
  obtain ⟨s, hs, hfirst⟩ := hc.seqOf
  have hnone : s = none := by
    cases s with
    | none => rfl
    | some m => cases hfirst.trans h0
  subst hnone
  exact seqOf_lazy.mpr (Comp.returns_bind.mpr ⟨none, hs, Comp.returns_pure.mpr rfl⟩)

theorem gives_partition_short (hc : Produces H coll es) (hp : Produces H pad ps)
    (h0 : (es 0).isSome = true) (hshort : (firsts n es).length < n) :
    SeqOf H (.lazy (.partition n step pad mode coll))
      ((shortWindow mode n ps (firsts n es)).map fun items => .cons (.ofList items) .nil) := by
  obtain ⟨s, hs, hfirst⟩ := hc.seqOf
  obtain ⟨m, rfl⟩ : ∃ m, s = some m := by
    cases s with
    | none => rw [← hfirst] at h0; cases h0
    | some m => exact ⟨m, rfl⟩
  obtain ⟨w, hw, hwalk⟩ := ((produces_congr hs (seqOf_seq.mpr rfl)).mp hc).start
  refine seqOf_lazy.mpr (Comp.returns_bind.mpr ⟨some m, hs, Comp.returns_bind.mpr ⟨w, hw, ?_⟩⟩)
  refine Comp.returns_bind.mpr ⟨firsts n es, gives_collect hwalk n, ?_⟩
  rw [if_pos (by exact_mod_cast hshort)]
  cases mode with
  | partition => exact Comp.returns_pure.mpr rfl
  | padded =>
    obtain ⟨wp, hwp, hpad⟩ := hp.start
    refine Comp.returns_bind.mpr ⟨wp, hwp, Comp.returns_bind.mpr ⟨_, gives_collect hpad _, ?_⟩⟩
    exact Comp.returns_pure.mpr rfl
  | all =>
    have hne : ¬ (firsts n es).length = 0 := by
      obtain ⟨n, rfl⟩ := Nat.exists_eq_succ_of_ne_zero (Nat.ne_of_gt (Nat.zero_lt_of_lt hshort))
      obtain ⟨x, hx⟩ := Option.isSome_iff_exists.mp h0
      simp [firsts, hx]
    show Gives H (if _ then _ else _) _
    rw [if_neg hne]
    exact Comp.returns_pure.mpr rfl

theorem gives_partition_full (pad : Value ω) (hc : Produces H coll es) (hn : 0 < n)
    (hfull : (firsts n es).length = n) :
    ∃ more, SeqOf H (.lazy (.partition n step pad mode coll))
        (some (.cons (.ofList (firsts n es)) more)) ∧
      (more = .nil ∧ (∀ k, drop es step k = none) ∨
        ∃ after, more = .lazy (.partition n step pad mode after) ∧
          Produces H after (drop es step)) := by
  obtain ⟨s, hs, hfirst⟩ := hc.seqOf
  obtain ⟨m, rfl⟩ : ∃ m, s = some m := by
    cases s with
    | none =>
      have hnone : es 0 = none := hfirst.symm
      obtain ⟨n, rfl⟩ := Nat.exists_eq_succ_of_ne_zero (Nat.ne_of_gt hn)
      simp [firsts, hnone] at hfull
    | some m => exact ⟨m, rfl⟩
  obtain ⟨w, hw, hwalk⟩ := ((produces_congr hs (seqOf_seq.mpr rfl)).mp hc).start
  obtain ⟨w', hskip, hwalk'⟩ := gives_skip hwalk step
  have hafter := hwalk'.remaining
  set after : Value ω := if w'.isDone then .nil else w'.remaining with hdef
  refine ⟨lazyUnlessNil after fun after => .partition n step pad mode after, ?_, ?_⟩
  · refine seqOf_lazy.mpr (Comp.returns_bind.mpr ⟨some m, hs, Comp.returns_bind.mpr ⟨w, hw, ?_⟩⟩)
    refine Comp.returns_bind.mpr ⟨firsts n es, gives_collect hwalk n, ?_⟩
    rw [if_neg (by omega)]
    refine Comp.returns_bind.mpr ⟨w, hw, Comp.returns_bind.mpr ⟨w', hskip, ?_⟩⟩
    exact Comp.returns_pure.mpr rfl
  · rcases lazyUnlessNil_cases after fun after => .partition n step pad mode after with
      ⟨hnil, hmore⟩ | hmore
    · rw [hnil] at hafter
      exact .inl ⟨hmore, (produces_none (seqOf_nil.mpr rfl)).mp hafter⟩
    · exact .inr ⟨after, hmore, hafter⟩

/-- The windows the lazy seq has, whatever holds the source and the pad. -/
theorem produces_partition (hn : 0 < n) (hc : Produces H coll es) (hp : Produces H pad ps) :
    Produces H (.lazy (.partition n step pad mode coll))
      fun i => (stepWindows mode n step ps es i).map .ofList := by
  suffices h : ∀ i, Gives H ((bySeqMore H).element (.lazy (.partition n step pad mode coll)) i)
      ((stepWindows mode n step ps es i).map .ofList) from h
  intro i
  have atEnd {coll : Value ω} {es : Nat → Option (Value ω)} (hc : Produces H coll es)
      (h0 : es 0 = none) (i : Nat) : Gives H ((bySeqMore H).element
        (.lazy (.partition n step pad mode coll)) i)
        ((stepWindows mode n step ps es i).map .ofList) := by
    rw [stepWindows_end hn fun k => hc.closed.none_of_le h0 (Nat.zero_le k)]
    exact gives_element_end (gives_partition_end step mode hc h0) i
  induction i generalizing coll es with
  | zero =>
    cases h0 : es 0 with
    | none => exact atEnd hc h0 0
    | some x =>
      have hsome : (es 0).isSome = true := by rw [h0]; rfl
      rw [stepWindows_zero hsome]
      refine gives_element_zero.mpr ?_
      by_cases hfull : (firsts n es).length = n
      · obtain ⟨more, hs, -⟩ := gives_partition_full step mode pad hc hn hfull
        rw [if_pos hfull]
        exact ⟨_, hs, rfl⟩
      · have hshort := Nat.lt_of_le_of_ne firsts_length_le hfull
        rw [if_neg hfull]
        refine ⟨_, gives_partition_short step mode hc hp hsome hshort, ?_⟩
        cases mode <;> rfl
  | succ i ih =>
    cases h0 : es 0 with
    | none => exact atEnd hc h0 (i + 1)
    | some x =>
      have hsome : (es 0).isSome = true := by rw [h0]; rfl
      rw [stepWindows_succ]
      by_cases hfull : (firsts n es).length = n
      · obtain ⟨more, hs, hmore⟩ := gives_partition_full step mode pad hc hn hfull
        rw [if_pos hfull]
        refine gives_element_succ.mpr (.inr ⟨_, hs, ?_⟩)
        rcases hmore with ⟨rfl, hnone⟩ | ⟨after, rfl, hafter⟩
        · rw [stepWindows_end hn hnone]
          exact gives_element_end (seqOf_emptyList.mpr rfl) i
        · exact ih hafter
      · -- the short window is the last
        have hshort := Nat.lt_of_le_of_ne firsts_length_le hfull
        have hs := gives_partition_short step mode hc hp hsome hshort
        rw [if_neg hfull]
        refine gives_element_succ.mpr ?_
        cases hw : shortWindow mode n ps (firsts n es) with
        | none =>
          rw [hw] at hs
          exact .inl ⟨hs, rfl⟩
        | some items =>
          rw [hw] at hs
          refine .inr ⟨_, hs, ?_⟩
          exact gives_element_end (seqOf_emptyList.mpr rfl) i

variable {step mode}

omit [DecidableEq ω] in
theorem window_full_iff (hn : 0 < n) (h : Closed es) (i : Nat) :
    (window n step es i).length = n ↔ (es (i * step + (n - 1))).isSome = true := by
  obtain ⟨n, rfl⟩ := Nat.exists_eq_succ_of_ne_zero (Nat.ne_of_gt hn)
  rw [window, firsts_full_iff (h.drop _), Windows.drop, Nat.add_comm]
  rfl

omit [DecidableEq ω] in
/-- Where elements remain for the next window every earlier window is full. -/
theorem fullBefore_of_remaining (hn : 0 < n) (h : Closed es)
    (hall : ∀ i, (es ((i + 1) * step)).isSome = true → (es (i * step + (n - 1))).isSome = true)
    {i : Nat} (hi : (es (i * step)).isSome = true) : FullBefore n step es i := by
  intro j hj
  refine (window_full_iff hn h j).mpr (hall j ?_)
  rw [Option.isSome_iff_ne_none] at hi ⊢
  exact fun hnone => hi (h.none_of_le hnone (Nat.mul_le_mul_right step hj))

end

/-! ### Three elements -/

/-- An engine whose functions never return. -/
def idleHost : Host Unit where
  invoke _ _ := none
  keys := ⟨fun _ => true, fun _ => 0, fun _ _ => false⟩
  helper := ⟨⟨0, []⟩, fun _ _ _ => none, fun _ m _ _ => m, fun _ m _ => m⟩
  isSmallInt _ := true
  typeName _ := ""

theorem produces_vector (items : List (Value ω)) : Produces H (.vector items) fun k => items[k]? :=
  produces_of_ends (ends_vector.mpr rfl)

def three : List (Value Unit) := [.int 1, .int 2, .int 3]

end ProtoClojure.Sequences
