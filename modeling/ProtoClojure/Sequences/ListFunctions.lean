import ProtoClojure.Sequences.Contents

/-! What the steps over one source produce: the list functions of what the source produces. -/
namespace ProtoClojure.Sequences
open Recursion LazyLists LazyList

variable {ω : Type} [DecidableEq ω] {H : Host ω}

/-! ### How a step's answer continues -/

section Continue
variable {R : Value ω → LazyList (Value ω) → Prop} {l m : LazyList (Value ω)} {v more x : Value ω}
  {s : Option (Node ω)} {n : Node ω}

@[simp] theorem contents_nil : contents H .nil = ofList [] := SeqOf.contents_none (seqOf_nil.mpr rfl)

@[simp] theorem contents_emptyList : contents H .emptyList = ofList [] :=
  SeqOf.contents_none (seqOf_emptyList.mpr rfl)

theorem continues_self (h : l = contents H (.ofSeq s)) : Continues H R s l := by
  cases s with
  | none => exact h.trans contents_nil
  | some n =>
    exact ⟨[seqFirst n], seqMore n, _, List.cons_ne_nil _ _, reads_seq, h.trans contents_seq,
      .inr rfl⟩

theorem continues_cons (hl : l = prepend [x] m) (h : R more.orEmpty m ∨ contents H more = m) :
    Continues H R (some (.cons x more)) l :=
  ⟨[x], more.orEmpty, m, List.cons_ne_nil _ _, reads_seq, hl, h.imp id contents_orEmpty.trans⟩

theorem continues_newChunk {out : List (Value ω)} {chunked : Bool} (hne : out ≠ [])
    (hl : l = prepend out m) (h : R more.orEmpty m ∨ contents H more = m) :
    Continues H R (newChunk out chunked more) l := by
  obtain ⟨c, rfl, hc⟩ : ∃ c : Chunk (Value ω), c.elements = out ∧
      newChunk out chunked more = some (.chunk c chunked more) := newChunk_of_nonempty hne
  rw [hc]
  exact ⟨c.elements, more.orEmpty, m, hne, reads_chunk c chunked more, hl,
    h.imp id contents_orEmpty.trans⟩

/-- A chunked step's answer, with the step again over what is left. -/
theorem continues_slice {out : List (Value ω)} {after : Value ω} {step : Value ω → Thunk ω}
    (hne : out ≠ []) (hl : l = prepend out m) (hnil : after = .nil → m = ofList [])
    (hR : R (.lazy (step after)) m) :
    Continues H R (newChunk out true (lazyUnlessNil after step)) l := by
  refine continues_newChunk hne hl ?_
  rcases lazyUnlessNil_cases after step with ⟨hafter, hmore⟩ | hmore
  · rw [hmore, hnil hafter]
    exact .inr contents_nil
  · rw [hmore]
    exact .inl hR

theorem walk_contents {w : SeqWalk ω} (hd : ¬ w.isDone = true) {w' : SeqWalk ω}
    (hw : Gives H (w.advance H) w') :
    contents H (.ofSeq w.seq) = prepend [w.first] (contents H (.ofSeq w'.seq)) := by
  obtain ⟨m, hm⟩ := Option.ne_none_iff_exists'.mp fun hs => hd ((w.isDone_iff).mpr hs)
  have hs : SeqOf H (seqMore m) w'.seq := (gives_advance hm).mpr ⟨w', hw, rfl⟩
  rw [SeqWalk.first_of_seq hm, ← hs.contents, hm]
  exact contents_seq

end Continue

/-! ### Slices of a chunk -/

section Slice
variable {c : Chunk (Value ω)} {chunked : Bool} {more : Value ω}

omit [DecidableEq ω] in
theorem off_lt_sliceStop (c : Chunk (Value ω)) : c.off < sliceStop c := by
  have h := c.off_lt_stop
  unfold sliceStop kChunk
  omega

omit [DecidableEq ω] in
theorem slice_eq (c : Chunk (Value ω)) :
    slice c c.off (sliceStop c) = c.elements.take (sliceStop c - c.off) := by
  have hstop := c.stop_le
  have hle : sliceStop c ≤ c.stop := Nat.min_le_left _ _
  have hoff := off_lt_sliceStop c
  unfold slice
  rw [map_getAt_range' (by omega), c.elements_eq, List.take_take]
  congr 1
  omega

omit [DecidableEq ω] in
theorem slice_ne_nil (c : Chunk (Value ω)) : slice c c.off (sliceStop c) ≠ [] := by
  have hoff := off_lt_sliceStop c
  rw [slice_eq, Chunk.elements]
  obtain ⟨k, hk⟩ : ∃ k, sliceStop c - c.off = k + 1 := ⟨sliceStop c - c.off - 1, by omega⟩
  rw [hk, List.take_succ_cons]
  exact List.cons_ne_nil _ _

/-- A chunk is the slice a step reads and what follows the slice. -/
theorem contents_slice : contents H (.seq (.chunk c chunked more)) =
    prepend (slice c c.off (sliceStop c)) (contents H (sliceAfter c more)) := by
  have hoff := off_lt_sliceStop c
  have hlen := c.length_elements
  rw [(reads_chunk c chunked more).contents, contents_orEmpty, slice_eq]
  unfold sliceAfter
  split
  · rename_i hstop
    have hrest : (Chunk.of c.items (sliceStop c) c.stop ⟨hstop, c.stop_le⟩).elements =
        c.elements.drop (sliceStop c - c.off) := by
      rw [Chunk.of_elements, c.elements_drop]
      congr 2 <;> omega
    rw [(reads_chunk _ true more).contents, contents_orEmpty, hrest, prepend_prepend,
      List.take_append_drop]
  · have hall : c.elements.take (sliceStop c - c.off) = c.elements :=
      List.take_of_length_le (by omega)
    rw [hall]

theorem SeqOf.contents_chunk {v : Value ω} (h : SeqOf H v (some (.chunk c chunked more))) :
    Sequences.contents H v =
      prepend (slice c c.off (sliceStop c)) (Sequences.contents H (sliceAfter c more)) :=
  h.contents.trans contents_slice

end Slice

/-! ### map -/

/-- The function answers for each of the elements. -/
def AnswersOn (H : Host ω) (f : Value ω) (F : Value ω → Value ω) (l : LazyList (Value ω)) : Prop :=
  ∀ x, Has l x → H.invoke f [x] = some (.ok (F x))

section Map
variable {f : Value ω} {F : Value ω → Value ω} {l : LazyList (Value ω)} {xs : List (Value ω)}

omit [DecidableEq ω] in
theorem answersOn_prepend :
    AnswersOn H f F (prepend xs l) ↔ (∀ x ∈ xs, H.invoke f [x] = some (.ok (F x))) ∧
      AnswersOn H f F l := by
  unfold AnswersOn
  simp only [has_prepend]
  constructor
  · exact fun h => ⟨fun x hx => h x (.inl hx), fun x hx => h x (.inr hx)⟩
  · rintro ⟨hxs, hl⟩ x (hx | hx)
    · exact hxs x hx
    · exact hl x hx

theorem gives_mapM (hxs : ∀ x ∈ xs, H.invoke f [x] = some (.ok (F x))) {out : List (Value ω)} :
    Gives H (xs.mapM fun x => invoke f [x]) out ↔ out = xs.map F := by
  induction xs generalizing out with
  | nil => exact Comp.returns_pure.trans eq_comm
  | cons x xs ih =>
    have hx := hxs x List.mem_cons_self
    have hrest (out : List (Value ω)) : Gives H (xs.mapM fun x => invoke f [x]) out ↔
        out = xs.map F := ih fun y hy => hxs y (List.mem_cons_of_mem x hy)
    rw [List.mapM_cons, List.map_cons]
    constructor
    · intro h
      obtain ⟨y, hy, h⟩ := Comp.returns_bind.mp h
      obtain ⟨ys, hys, h⟩ := Comp.returns_bind.mp h
      obtain rfl := Comp.returns_pure.mp h
      have hy := gives_invoke.mp hy
      rw [hx] at hy
      rw [(hrest ys).mp hys, Except.ok.inj (Option.some.inj hy)]
    · rintro rfl
      exact Comp.returns_bind.mpr ⟨F x, gives_invoke.mpr hx,
        Comp.returns_bind.mpr ⟨xs.map F, (hrest _).mpr rfl, Comp.returns_pure.mpr rfl⟩⟩

/-- Values and what mapping `f` over their sources produces. -/
inductive Mapping (H : Host ω) (f : Value ω) (F : Value ω → Value ω) :
    Value ω → LazyList (Value ω) → Prop
  | mk {coll : Value ω} (hF : AnswersOn H f F (contents H coll)) :
      Mapping H f F (.lazy (.map1 f coll)) (map F (contents H coll))

theorem mapping_producing : Producing H (Mapping H f F) := by
  refine .of_source ?_
  rintro _ _ ⟨hF⟩
  rename_i coll
  refine ⟨_, coll, _, rfl, rfl, fun hbot => by rw [hbot, map_bot], fun src hsrc => ?_⟩
  have element (n : Node ω) (hn : SeqOf H coll (some n)) : ∃ s, Gives H (do
      let y ← invoke f [seqFirst n]
      return some (.cons y (.lazy (.map1 f (seqMore n))))) s ∧
      Continues H (Mapping H f F) s (map F (contents H coll)) := by
    rw [hn.contents_some] at hF ⊢
    obtain ⟨hfirst, hmore⟩ := answersOn_prepend.mp hF
    refine ⟨_, Comp.returns_bind.mpr ⟨_, gives_invoke.mpr (hfirst _ (List.mem_singleton_self _)),
      Comp.returns_pure.mpr rfl⟩, ?_⟩
    exact continues_cons map_prepend (.inl (.mk hmore))
  cases src with
  | none =>
    refine ⟨none, Comp.returns_pure.mpr rfl, ?_⟩
    rw [hsrc.contents_none]
    exact map_ofList
  | some n =>
    cases n with
    | list first rest => exact element _ hsrc
    | cons first more => exact element _ hsrc
    | chunk c chunked more =>
      cases chunked with
      | false => exact element _ hsrc
      | true =>
        rw [hsrc.contents_chunk] at hF ⊢
        obtain ⟨hslice, hafter⟩ := answersOn_prepend.mp hF
        refine ⟨_, Comp.returns_bind.mpr ⟨_, (gives_mapM hslice).mpr rfl,
          Comp.returns_pure.mpr rfl⟩, ?_⟩
        refine continues_slice (fun h => slice_ne_nil c (List.map_eq_nil_iff.mp h)) map_prepend
          (fun h => ?_) (.mk hafter)
        rw [h, contents_nil]
        exact map_ofList

theorem contents_map1 {coll : Value ω} (hF : AnswersOn H f F (contents H coll)) :
    contents H (.lazy (.map1 f coll)) = map F (contents H coll) :=
  mapping_producing.contents_eq (.mk hF)

end Map
/-! ### filter -/

section Filter
variable {pred : Value ω} {P : Value ω → Value ω} {negate : Bool} {xs : List (Value ω)}
  {src s : Option (Node ω)}

/-- Does the step keep an element with this answer? -/
def kept (P : Value ω → Value ω) (negate : Bool) (x : Value ω) : Bool := (P x).truthy != negate

theorem gives_keep (hxs : ∀ x ∈ xs, H.invoke pred [x] = some (.ok (P x))) {out : List (Value ω)} :
    Gives H (keep pred negate xs) out ↔ out = xs.filter (kept P negate) := by
  induction xs generalizing out with
  | nil => exact Comp.returns_pure.trans eq_comm
  | cons x xs ih =>
    have hx := hxs x List.mem_cons_self
    have hrest (out : List (Value ω)) : Gives H (keep pred negate xs) out ↔
        out = xs.filter (kept P negate) := ih fun y hy => hxs y (List.mem_cons_of_mem x hy)
    rw [keep, List.filter_cons]
    constructor
    · intro h
      obtain ⟨r, hr, h⟩ := Comp.returns_bind.mp h
      obtain ⟨out', hout, h⟩ := Comp.returns_bind.mp h
      obtain rfl := Comp.returns_pure.mp h
      have hr := gives_invoke.mp hr
      rw [hx] at hr
      rw [(hrest out').mp hout, ← Except.ok.inj (Option.some.inj hr)]
      rfl
    · rintro rfl
      exact Comp.returns_bind.mpr ⟨P x, gives_invoke.mpr hx,
        Comp.returns_bind.mpr ⟨_, (hrest _).mpr rfl, Comp.returns_pure.mpr rfl⟩⟩

/-- Values and what filtering their sources produces. -/
inductive Filtering (H : Host ω) (pred : Value ω) (P : Value ω → Value ω) (negate : Bool) :
    Value ω → LazyList (Value ω) → Prop
  | mk {coll : Value ω} (hP : AnswersOn H pred P (contents H coll)) :
      Filtering H pred P negate (.lazy (.filter pred coll negate))
        (filter (kept P negate) (contents H coll))

/-- A turn of the loop answers, or drops all it has read and goes on with the rest. -/
def FilterTurn (H : Host ω) (pred : Value ω) (P : Value ω → Value ω) (negate : Bool)
    (src : Option (Node ω)) : Prop :=
  (∃ s, Gives H (filterLoopBody H pred negate src) s ∧
    Continues H (Filtering H pred P negate) s (filter (kept P negate) (contents H (.ofSeq src)))) ∨
  ∃ xs more, xs ≠ [] ∧ xs.filter (kept P negate) = [] ∧
    contents H (.ofSeq src) = prepend xs (contents H more) ∧
    GoesOn H (filterLoopBody H pred negate src)
      (seqOf H more >>= fun src => .ask (Call.filterLoop pred negate src))

theorem filterLoop_element {n : Node ω}
    (hbody : filterLoopBody H pred negate (some n) = do
      let r ← invoke pred [seqFirst n]
      if r.truthy != negate then
        return some (.cons (seqFirst n) (.lazy (.filter pred (seqMore n) negate)))
      else
        let src ← seqOf H (seqMore n)
        .ask (Call.filterLoop pred negate src))
    (hP : AnswersOn H pred P (contents H (.seq n))) : FilterTurn H pred P negate (some n) := by
  have hn : contents H (.seq n) = prepend [seqFirst n] (contents H (seqMore n)) := contents_seq
  rw [hn] at hP
  obtain ⟨hfirst, hmore⟩ := answersOn_prepend.mp hP
  have hon := goesOn_bind (gives_invoke.mpr (hfirst _ (List.mem_singleton_self _))) fun r =>
    if r.truthy != negate then
      pure (some (.cons (seqFirst n) (.lazy (.filter pred (seqMore n) negate))))
    else seqOf H (seqMore n) >>= fun src => .ask (Call.filterLoop pred negate src)
  rw [FilterTurn, hbody]
  cases hkept : kept P negate (seqFirst n) with
  | true =>
    have hpos : ((P (seqFirst n)).truthy != negate) = true := hkept
    rw [if_pos hpos] at hon
    refine .inl ⟨some _, hon.1 _ (Comp.returns_pure.mpr rfl), ?_⟩
    refine continues_cons ((congrArg _ hn).trans (filter_prepend.trans ?_)) (.inl (.mk hmore))
    rw [List.filter_cons_of_pos hkept, List.filter_nil]
  | false =>
    have hneg : ¬ ((P (seqFirst n)).truthy != negate) = true := ne_true_of_eq_false hkept
    rw [if_neg hneg] at hon
    refine .inr ⟨[seqFirst n], seqMore n, List.cons_ne_nil _ _, ?_, hn, hon⟩
    rw [List.filter_cons_of_neg (by simp [hkept]), List.filter_nil]

theorem filterLoop_turn (hP : AnswersOn H pred P (contents H (.ofSeq src))) :
    FilterTurn H pred P negate src := by
  cases src with
  | none =>
    refine .inl ⟨none, Comp.returns_pure.mpr rfl, ?_⟩
    rw [show contents H (.ofSeq none) = _ from contents_nil]
    exact filter_ofList
  | some n =>
    cases n with
    | list first rest => exact filterLoop_element rfl hP
    | cons first more => exact filterLoop_element rfl hP
    | chunk c chunked more =>
      cases chunked with
      | false => exact filterLoop_element rfl hP
      | true =>
        have hc : contents H (.ofSeq (some (.chunk c true more))) = _ := contents_slice
        rw [hc] at hP
        obtain ⟨hslice, hafter⟩ := answersOn_prepend.mp hP
        have hkeep : Gives H (keep pred negate _) _ := (gives_keep hslice).mpr rfl
        have hon := goesOn_bind hkeep fun out =>
          if out.length = 0 then
            seqOf H (sliceAfter c more) >>= fun src => .ask (Call.filterLoop pred negate src)
          else
            pure (newChunk out true
              (lazyUnlessNil (sliceAfter c more) fun after => .filter pred after negate))
        by_cases hnil : (slice c c.off (sliceStop c)).filter (kept P negate) = []
        · rw [if_pos (List.length_eq_zero_iff.mpr hnil)] at hon
          exact .inr ⟨_, _, slice_ne_nil c, hnil, hc, hon⟩
        · rw [if_neg fun h => hnil (List.length_eq_zero_iff.mp h)] at hon
          refine .inl ⟨_, hon.1 _ (Comp.returns_pure.mpr rfl), ?_⟩
          refine continues_slice hnil ((congrArg _ hc).trans filter_prepend) (fun h => ?_)
            (.mk hafter)
          rw [h, contents_nil]
          exact filter_ofList

theorem filterLoop_agrees (h : (program H).Answers (.filterLoop pred negate src) s)
    (hP : AnswersOn H pred P (contents H (.ofSeq src))) :
    Continues H (Filtering H pred P negate) s
      (filter (kept P negate) (contents H (.ofSeq src))) := by
  revert hP
  refine Program.Answers.induct
    (motive := fun q => match q with
      | .filterLoop pred negate src => fun s => AnswersOn H pred P (contents H (.ofSeq src)) →
          Continues H (Filtering H pred P negate) s
            (filter (kept P negate) (contents H (.ofSeq src)))
      | _ => fun _ => True) (fun q a ha => ?_) h
  cases q with
  | filterLoop pred negate src =>
    intro hP
    have ha : (filterLoopBody H pred negate src).Returns _ a := ha
    have hturn : FilterTurn H pred P negate src := filterLoop_turn hP
    rcases hturn with ⟨s, hs, hc⟩ | ⟨xs, more, -, hnil, hmore, hon⟩
    · exact Gives.unique hs (ha.mono fun _ _ => And.left) ▸ hc
    · obtain ⟨src', hsrc, hloop⟩ := Comp.returns_bind.mp (hon.2 _ a (fun _ _ => And.left) ha)
      have hsrc : SeqOf H more src' := hsrc.mono fun _ _ => And.left
      rw [hmore] at hP ⊢
      rw [filter_prepend, hnil, prepend_nil, hsrc.contents]
      exact (Comp.returns_ask.mp hloop).2 (hsrc.contents ▸ (answersOn_prepend.mp hP).2)
  | _ => trivial

theorem filterLoop_answers (hP : AnswersOn H pred P (contents H (.ofSeq src)))
    (h : filter (kept P negate) (contents H (.ofSeq src)) ≠ ⊥) :
    ∃ s, (program H).Answers (.filterLoop pred negate src) s := by
  obtain ⟨p, hp, hne⟩ := exists_read_ne_bot h
  clear h
  -- by induction on what is learnt of the source until an element is kept
  induction hk : p.items.length using Nat.strong_induction_on generalizing src p with
  | _ k ih =>
    subst hk
    have hturn : FilterTurn H pred P negate src := filterLoop_turn hP
    rcases hturn with ⟨s, hs, -⟩ | ⟨xs, more, hxs, hnil, hmore, hon⟩
    · exact ⟨s, Program.answers_iff.mpr hs⟩
    · rw [hmore] at hp hP
      have hdrop (zs : List (Value ω)) : (xs ++ zs).filter (kept P negate) =
          zs.filter (kept P negate) := by
        rw [List.filter_append, hnil, List.nil_append]
      obtain ⟨q, hq, rfl, hne'⟩ := read_onward hdrop (fun _ => rfl) rfl hp hne
      obtain ⟨src', hsrc⟩ := contents_ne_bot.mp fun hbot =>
        hne' ((eq_bot_iff_mem.mp hbot q hq).symm ▸ rfl)
      rw [hsrc.contents] at hq hP
      have hlen : q.items.length < (xs ++ q.items).length := by
        have hpos := List.length_pos_of_ne_nil hxs
        rw [List.length_append]
        omega
      obtain ⟨s, hs⟩ := ih _ hlen (answersOn_prepend.mp hP).2 q hq hne' rfl
      refine ⟨s, Program.answers_iff.mpr (hon.1 s ?_)⟩
      exact Comp.returns_bind.mpr ⟨src', hsrc, Comp.returns_ask.mpr hs⟩

theorem filtering_producing : Producing H (Filtering H pred P negate) where
  agrees := by
    rintro _ _ s ⟨hP⟩ hs
    obtain ⟨src, hsrc, hs⟩ := Comp.returns_bind.mp (seqOf_lazy.mp hs)
    have hsrc : SeqOf H _ src := hsrc
    rw [hsrc.contents] at hP ⊢
    exact filterLoop_agrees (Comp.returns_ask.mp hs) hP
  answers := by
    rintro _ _ ⟨hP⟩ hne
    obtain ⟨src, hsrc⟩ := contents_ne_bot.mp fun hbot => hne (by
      rw [hbot, filter_bot])
    rw [hsrc.contents] at hP hne
    obtain ⟨s, hs⟩ := filterLoop_answers hP hne
    exact ⟨s, seqOf_lazy.mpr (Comp.returns_bind.mpr ⟨src, hsrc, Comp.returns_ask.mpr hs⟩)⟩

theorem contents_filter {coll : Value ω} (hP : AnswersOn H pred P (contents H coll)) :
    contents H (.lazy (.filter pred coll negate)) = filter (kept P negate) (contents H coll) :=
  filtering_producing.contents_eq (.mk hP)

end Filter

/-! ### take, drop -/

section Take
variable {pred : Value ω} {P : Value ω → Value ω} {n : Int}

inductive Taking (H : Host ω) : Value ω → LazyList (Value ω) → Prop
  | mk {n : Int} {coll : Value ω} (hn : 0 < n) :
      Taking H (.lazy (.take n coll)) (take n.toNat (contents H coll))

omit [DecidableEq ω] in
theorem runThunk_take (hn : ¬ n ≤ 0) (coll : Value ω) :
    runThunk H (.take n coll) = seqOf H coll >>= fun
      | none => pure none
      | some s =>
        if n = 1 then pure (some (.cons (seqFirst s) .nil))
        else pure (some (.cons (seqFirst s) (.lazy (.take (n - 1) (seqMore s))))) := by
  exact if_neg hn

theorem taking_producing : Producing H (Taking H) := by
  refine .of_source ?_
  rintro _ _ ⟨hn⟩
  rename_i n coll
  have hsucc : n.toNat = (n - 1).toNat + 1 := by omega
  refine ⟨_, coll, _, rfl, runThunk_take (by omega) coll, fun hbot => ?_, fun src hsrc => ?_⟩
  · rw [hbot, hsucc, take_bot]
  · cases src with
    | none =>
      refine ⟨none, Comp.returns_pure.mpr rfl, ?_⟩
      rw [hsrc.contents_none]
      exact take_ofList.trans (congrArg ofList List.take_nil)
    | some s =>
      rw [hsrc.contents_some, hsucc]
      by_cases h1 : n = 1
      · refine ⟨some (.cons (seqFirst s) .nil), ?_, continues_cons take_cons (.inr ?_)⟩
        · show Gives H (if n = 1 then _ else _) _
          rw [if_pos h1]
          exact Comp.returns_pure.mpr rfl
        · rw [h1, contents_nil]
          exact take_zero.symm
      · refine ⟨some (.cons (seqFirst s) (.lazy (.take (n - 1) (seqMore s)))), ?_,
          continues_cons take_cons (.inl (.mk (by omega)))⟩
        show Gives H (if n = 1 then _ else _) _
        rw [if_neg h1]
        exact Comp.returns_pure.mpr rfl

theorem contents_take (n : Int) (coll : Value ω) :
    contents H (.lazy (.take n coll)) = take n.toNat (contents H coll) := by
  by_cases hn : n ≤ 0
  · have hs : SeqOf H (.lazy (.take n coll)) none := by
      refine seqOf_lazy.mpr ?_
      show Gives H (if n ≤ 0 then _ else _) _
      rw [if_pos hn]
      exact Comp.returns_pure.mpr rfl
    rw [hs.contents_none, show n.toNat = 0 by omega]
    exact take_zero.symm
  · exact taking_producing.contents_eq (.mk (by omega))

/-- A predicate taken for the truth of its answer. -/
def holds (P : Value ω → Value ω) (x : Value ω) : Bool := (P x).truthy

inductive TakingWhile (H : Host ω) (pred : Value ω) (P : Value ω → Value ω) :
    Value ω → LazyList (Value ω) → Prop
  | mk {coll : Value ω} (hP : AnswersOn H pred P (contents H coll)) :
      TakingWhile H pred P (.lazy (.takeWhile pred coll)) (takeWhile (holds P) (contents H coll))

theorem takingWhile_producing : Producing H (TakingWhile H pred P) := by
  refine .of_source ?_
  rintro _ _ ⟨hP⟩
  rename_i coll
  refine ⟨_, coll, _, rfl, rfl, fun hbot => by rw [hbot, takeWhile_bot], fun src hsrc => ?_⟩
  cases src with
  | none =>
    refine ⟨none, Comp.returns_pure.mpr rfl, ?_⟩
    rw [hsrc.contents_none]
    exact takeWhile_ofList
  | some s =>
    rw [hsrc.contents_some] at hP ⊢
    obtain ⟨hfirst, hmore⟩ := answersOn_prepend.mp hP
    have hr := gives_invoke.mpr (hfirst _ (List.mem_singleton_self _))
    cases hx : holds P (seqFirst s) with
    | true =>
      refine ⟨some (.cons (seqFirst s) (.lazy (.takeWhile pred (seqMore s)))),
        Comp.returns_bind.mpr ⟨_, hr, ?_⟩, continues_cons (takeWhile_cons_true hx) (.inl (.mk hmore))⟩
      rw [if_pos (show (P (seqFirst s)).truthy = true from hx)]
      exact Comp.returns_pure.mpr rfl
    | false =>
      refine ⟨none, Comp.returns_bind.mpr ⟨_, hr, ?_⟩, takeWhile_cons_false hx⟩
      rw [if_neg (show ¬ (P (seqFirst s)).truthy = true from ne_true_of_eq_false hx)]
      exact Comp.returns_pure.mpr rfl

theorem contents_takeWhile {coll : Value ω} (hP : AnswersOn H pred P (contents H coll)) :
    contents H (.lazy (.takeWhile pred coll)) = takeWhile (holds P) (contents H coll) :=
  takingWhile_producing.contents_eq (.mk hP)

end Take

section Drop
variable {pred : Value ω} {P : Value ω → Value ω} {w w' : SeqWalk ω} {s : Option (Node ω)}

theorem contents_done (hd : w.isDone = true) : contents H (.ofSeq w.seq) = ofList [] := by
  rw [(w.isDone_iff).mp hd]
  exact contents_nil

/-- What a step answers when it has walked to `w`. -/
theorem gives_remaining : Gives H (if w.isDone then pure none else seqOf H w.remaining) s ↔
    s = w.seq := by
  split
  · rename_i hd
    rw [(w.isDone_iff).mp hd]
    exact Comp.returns_pure.trans eq_comm
  · rw [SeqWalk.seqOf_remaining]
    exact Comp.returns_pure.trans eq_comm

theorem skip_agrees {n : Nat} (h : Gives H (skip H n w) w') :
    drop n (contents H (.ofSeq w.seq)) = contents H (.ofSeq w'.seq) := by
  induction n generalizing w with
  | zero =>
    obtain rfl := Comp.returns_pure.mp h
    exact drop_zero
  | succ n ih =>
    unfold skip at h
    split at h
    · rename_i hd
      obtain rfl := Comp.returns_pure.mp h
      rw [contents_done hd]
      exact drop_ofList
    · rename_i hd
      obtain ⟨w₁, hw₁, h⟩ := Comp.returns_bind.mp h
      rw [walk_contents hd hw₁, drop_cons]
      exact ih h

theorem advance_of_ne_bot (hd : ¬ w.isDone = true) {m : LazyList (Value ω)} (hm : m ≠ ⊥)
    (h : ∀ n : Node ω, w.seq = some n → contents H (seqMore n) = ⊥ → m = ⊥) :
    ∃ w', Gives H (w.advance H) w' := by
  obtain ⟨n, hn⟩ := Option.ne_none_iff_exists'.mp fun hs => hd ((w.isDone_iff).mpr hs)
  obtain ⟨s, hs⟩ := contents_ne_bot.mp fun hbot => hm (h n hn hbot)
  obtain ⟨w', hw', -⟩ := (gives_advance hn).mp hs
  exact ⟨w', hw'⟩

theorem skip_answers {n : Nat} (h : drop n (contents H (.ofSeq w.seq)) ≠ ⊥) :
    ∃ w', Gives H (skip H n w) w' := by
  induction n generalizing w with
  | zero => exact ⟨w, Comp.returns_pure.mpr rfl⟩
  | succ n ih =>
    rw [skip]
    by_cases hd : w.isDone = true
    · rw [if_pos hd]
      exact ⟨w, Comp.returns_pure.mpr rfl⟩
    · rw [if_neg hd]
      obtain ⟨w₁, hw₁⟩ := advance_of_ne_bot hd h fun m hm hbot => by
        rw [hm, show contents H (.ofSeq (some m)) = _ from contents_seq, drop_cons, hbot, drop_bot]
      rw [walk_contents hd hw₁, drop_cons] at h
      obtain ⟨w', hw'⟩ := ih h
      exact ⟨w', Comp.returns_bind.mpr ⟨w₁, hw₁, hw'⟩⟩

inductive Dropping (H : Host ω) : Value ω → LazyList (Value ω) → Prop
  | mk (n : Int) (coll : Value ω) :
      Dropping H (.lazy (.drop n coll)) (drop n.toNat (contents H coll))

theorem dropping_producing : Producing H (Dropping H) where
  agrees := by
    rintro _ _ s ⟨n, coll⟩ hs
    obtain ⟨w, hw, hs⟩ := Comp.returns_bind.mp (seqOf_lazy.mp hs)
    obtain ⟨w', hw', hs⟩ := Comp.returns_bind.mp hs
    have hcoll : SeqOf H coll w.seq := gives_start.mpr ⟨w, hw, rfl⟩
    obtain rfl := gives_remaining.mp hs
    refine continues_self ?_
    rw [hcoll.contents]
    exact skip_agrees hw'
  answers := by
    rintro _ _ ⟨n, coll⟩ hne
    obtain ⟨src, hsrc⟩ := contents_ne_bot.mp fun hbot => hne (by rw [hbot, drop_bot])
    obtain ⟨w, hw, rfl⟩ := gives_start.mp hsrc
    rw [hsrc.contents] at hne
    obtain ⟨w', hw'⟩ := skip_answers hne
    refine ⟨w'.seq, seqOf_lazy.mpr (Comp.returns_bind.mpr ⟨w, hw, Comp.returns_bind.mpr ⟨w', hw', ?_⟩⟩)⟩
    exact gives_remaining.mpr rfl

theorem contents_drop (n : Int) (coll : Value ω) :
    contents H (.lazy (.drop n coll)) = drop n.toNat (contents H coll) :=
  dropping_producing.contents_eq (.mk n coll)

end Drop

section DropWhile
variable {pred coll : Value ω} {P : Value ω → Value ω} {w : SeqWalk ω} {s : Option (Node ω)}

/-- A turn of the loop answers from where it stands, or drops an element. -/
theorem dropWhileLoop_turn (hP : AnswersOn H pred P (contents H (.ofSeq w.seq))) :
    (Gives H (dropWhileLoopBody H pred w) w.seq ∧
      dropWhile (holds P) (contents H (.ofSeq w.seq)) = contents H (.ofSeq w.seq)) ∨
    ¬ w.isDone = true ∧ holds P w.first = true ∧
      GoesOn H (dropWhileLoopBody H pred w)
        (w.advance H >>= fun w' => .ask (Call.dropWhileLoop pred w')) := by
  unfold dropWhileLoopBody
  by_cases hd : w.isDone = true
  · rw [if_pos hd]
    refine .inl ⟨?_, ?_⟩
    · rw [(w.isDone_iff).mp hd]
      exact Comp.returns_pure.mpr rfl
    · rw [contents_done hd]
      exact dropWhile_ofList
  · rw [if_neg hd]
    obtain ⟨n, hn⟩ := Option.ne_none_iff_exists'.mp fun hs => hd ((w.isDone_iff).mpr hs)
    have hseq : contents H (.ofSeq w.seq) = prepend [w.first] (contents H (seqMore n)) := by
      rw [SeqWalk.first_of_seq hn, hn]
      exact contents_seq
    rw [hseq] at hP ⊢
    have hfirst := (answersOn_prepend.mp hP).1 _ (List.mem_singleton_self _)
    have hon := goesOn_bind (gives_invoke.mpr hfirst) fun r =>
      if r.truthy then w.advance H >>= fun w' => .ask (Call.dropWhileLoop pred w')
      else seqOf H w.remaining
    cases hx : holds P w.first with
    | true =>
      rw [if_pos (show (P w.first).truthy = true from hx)] at hon
      exact .inr ⟨hd, rfl, hon⟩
    | false =>
      rw [if_neg (show ¬ (P w.first).truthy = true from ne_true_of_eq_false hx)] at hon
      refine .inl ⟨hon.1 _ ?_, dropWhile_cons_false hx⟩
      rw [SeqWalk.seqOf_remaining]
      exact Comp.returns_pure.mpr rfl

theorem dropWhileLoop_agrees (h : (program H).Answers (.dropWhileLoop pred w) s)
    (hP : AnswersOn H pred P (contents H (.ofSeq w.seq))) :
    dropWhile (holds P) (contents H (.ofSeq w.seq)) = contents H (.ofSeq s) := by
  revert hP
  refine Program.Answers.induct
    (motive := fun q => match q with
      | .dropWhileLoop pred w => fun s => AnswersOn H pred P (contents H (.ofSeq w.seq)) →
          dropWhile (holds P) (contents H (.ofSeq w.seq)) = contents H (.ofSeq s)
      | _ => fun _ => True) (fun q a ha => ?_) h
  cases q with
  | dropWhileLoop pred w =>
    intro hP
    have ha : (dropWhileLoopBody H pred w).Returns _ a := ha
    rcases dropWhileLoop_turn hP with ⟨hs, hall⟩ | ⟨hd, hx, hon⟩
    · exact Gives.unique hs (ha.mono fun _ _ => And.left) ▸ hall
    · obtain ⟨w', hw', hloop⟩ := Comp.returns_bind.mp (hon.2 _ a (fun _ _ => And.left) ha)
      rw [walk_contents hd (hw'.mono fun _ _ => And.left)] at hP ⊢
      rw [dropWhile_cons_true hx]
      exact (Comp.returns_ask.mp hloop).2 (answersOn_prepend.mp hP).2
  | _ => trivial

theorem dropWhileLoop_answers (hP : AnswersOn H pred P (contents H (.ofSeq w.seq)))
    (h : dropWhile (holds P) (contents H (.ofSeq w.seq)) ≠ ⊥) :
    ∃ s, (program H).Answers (.dropWhileLoop pred w) s := by
  obtain ⟨p, hp, hne⟩ := exists_read_ne_bot h
  -- by induction on what is learnt of the source until an element stays
  induction hk : p.items.length using Nat.strong_induction_on generalizing w p with
  | _ k ih =>
    subst hk
    rcases dropWhileLoop_turn hP with ⟨hs, -⟩ | ⟨hd, hx, hon⟩
    · exact ⟨_, Program.answers_iff.mpr hs⟩
    · obtain ⟨w', hw'⟩ := advance_of_ne_bot hd h fun n hn hbot => by
        rw [SeqWalk.first_of_seq hn] at hx
        rw [hn, show contents H (.ofSeq (some n)) = _ from contents_seq, dropWhile_cons_true hx,
          hbot, dropWhile_bot]
      rw [walk_contents hd hw'] at hp hP h
      rw [dropWhile_cons_true hx] at h
      obtain ⟨q, hq, rfl, hne'⟩ := read_onward (fun _ => List.dropWhile_cons_of_pos hx)
        (fun _ => rfl) rfl hp hne
      have hlen : q.items.length < ([w.first] ++ q.items).length := Nat.lt_succ_self _
      obtain ⟨s, hs⟩ := ih _ hlen (answersOn_prepend.mp hP).2 h q hq hne' rfl
      refine ⟨s, Program.answers_iff.mpr (hon.1 s ?_)⟩
      exact Comp.returns_bind.mpr ⟨w', hw', Comp.returns_ask.mpr hs⟩

inductive DroppingWhile (H : Host ω) (pred : Value ω) (P : Value ω → Value ω) :
    Value ω → LazyList (Value ω) → Prop
  | mk {coll : Value ω} (hP : AnswersOn H pred P (contents H coll)) :
      DroppingWhile H pred P (.lazy (.dropWhile pred coll)) (dropWhile (holds P) (contents H coll))

theorem droppingWhile_producing : Producing H (DroppingWhile H pred P) where
  agrees := by
    rintro _ _ s ⟨hP⟩ hs
    obtain ⟨w, hw, hs⟩ := Comp.returns_bind.mp (seqOf_lazy.mp hs)
    have hcoll := gives_start.mpr ⟨w, hw, rfl⟩
    refine continues_self ?_
    rw [hcoll.contents] at hP ⊢
    exact dropWhileLoop_agrees (Comp.returns_ask.mp hs) hP
  answers := by
    rintro _ _ ⟨hP⟩ hne
    obtain ⟨src, hsrc⟩ := contents_ne_bot.mp fun hbot => hne (by rw [hbot, dropWhile_bot])
    obtain ⟨w, hw, rfl⟩ := gives_start.mp hsrc
    rw [hsrc.contents] at hne hP
    obtain ⟨s, hs⟩ := dropWhileLoop_answers hP hne
    exact ⟨s, seqOf_lazy.mpr (Comp.returns_bind.mpr ⟨w, hw, Comp.returns_ask.mpr hs⟩)⟩

theorem contents_dropWhile (hP : AnswersOn H pred P (contents H coll)) :
    contents H (.lazy (.dropWhile pred coll)) = dropWhile (holds P) (contents H coll) :=
  droppingWhile_producing.contents_eq (.mk hP)

end DropWhile

/-! ### Endless sequences -/

section Endless
variable {f : Value ω} {F : Value ω → Value ω}

/-- The function answers for each of the iterates. -/
def Iterates (H : Host ω) (f : Value ω) (F : Value ω → Value ω) (x : Value ω) : Prop :=
  ∀ n, H.invoke f [F^[n] x] = some (.ok (F^[n + 1] x))

inductive Iterating (H : Host ω) (f : Value ω) (F : Value ω → Value ω) :
    Value ω → LazyList (Value ω) → Prop
  | mk {x : Value ω} (hF : Iterates H f F x) :
      Iterating H f F (.lazy (.iterateNext f x)) (ofStream (Stream'.iterate F (F x)))

theorem iterating_producing : Producing H (Iterating H f F) := by
  have answer {x : Value ω} (hF : Iterates H f F x) :
      SeqOf H (.lazy (.iterateNext f x)) (some (.cons (F x) (.lazy (.iterateNext f (F x))))) :=
    seqOf_lazy.mpr (Comp.returns_bind.mpr ⟨F x, gives_invoke.mpr (hF 0), Comp.returns_pure.mpr rfl⟩)
  constructor
  · rintro _ _ s ⟨hF⟩ hs
    obtain rfl := hs.unique (answer hF)
    refine continues_cons (m := ofStream (Stream'.iterate F (F (F _)))) ?_ (.inl (.mk fun n => ?_))
    · rw [prepend_ofStream, Stream'.iterate_eq]
      rfl
    · exact hF (n + 1)
  · rintro _ _ ⟨hF⟩ -
    exact ⟨_, answer hF⟩

theorem contents_iterate {x : Value ω} (hF : Iterates H f F x) :
    contents H (.lazy (.iterate f x)) = ofStream (Stream'.iterate F x) := by
  have hs : SeqOf H (.lazy (.iterate f x)) (some (.cons x (.lazy (.iterateNext f x)))) :=
    seqOf_lazy.mpr (Comp.returns_pure.mpr rfl)
  rw [hs.contents_some, Stream'.iterate_eq]
  show prepend [x] (contents H (.lazy (.iterateNext f x))) = _
  rw [iterating_producing.contents_eq (.mk hF), prepend_ofStream]
  rfl

end Endless

section Repeat
variable {x : Value ω}

theorem contents_repeat (x : Value ω) :
    contents H (.lazy (.repeated x none)) = ofStream (Stream'.const x) := by
  have answer : SeqOf H (.lazy (.repeated x none))
      (some (.cons x (.lazy (.repeated x none)))) := seqOf_lazy.mpr (Comp.returns_pure.mpr rfl)
  suffices h : Producing H fun v l =>
      v = .lazy (.repeated x none) ∧ l = ofStream (Stream'.const x) from h.contents_eq ⟨rfl, rfl⟩
  constructor
  · rintro _ _ s ⟨rfl, rfl⟩ hs
    obtain rfl := hs.unique answer
    refine continues_cons (m := ofStream (Stream'.const x)) ?_ (.inl ⟨rfl, rfl⟩)
    rw [prepend_ofStream]
    exact congrArg ofStream (Stream'.const_eq x)
  · rintro _ _ ⟨rfl, rfl⟩ -
    exact ⟨_, answer⟩

theorem repeat_answer (x : Value ω) (n : Int) : SeqOf H (.lazy (.repeated x (some n)))
    (if n ≤ 0 then none else if n = 1 then some (.cons x .nil)
      else some (.cons x (.lazy (.repeated x (some (n - 1)))))) := by
  refine seqOf_lazy.mpr ?_
  show Gives H (if n ≤ 0 then _ else if n = 1 then _ else _) _
  split
  · exact Comp.returns_pure.mpr rfl
  · split
    · exact Comp.returns_pure.mpr rfl
    · exact Comp.returns_pure.mpr rfl

theorem contents_repeat_count (x : Value ω) (n : Int) :
    contents H (.lazy (.repeated x (some n))) = ofList (List.replicate n.toNat x) := by
  have answer := repeat_answer (H := H) x n
  -- by induction on the count
  induction hk : n.toNat generalizing n with
  | zero =>
    rw [if_pos (by omega)] at answer
    exact answer.contents_none
  | succ k ih =>
    rw [if_neg (by omega)] at answer
    rw [List.replicate_succ, ← List.singleton_append, ← prepend_ofList]
    by_cases h1 : n = 1
    · rw [if_pos h1] at answer
      obtain rfl : k = 0 := by omega
      refine answer.contents_some.trans (congrArg (prepend [x]) ?_)
      exact contents_emptyList
    · rw [if_neg h1] at answer
      refine answer.contents_some.trans (congrArg (prepend [x]) ?_)
      exact ih (n - 1) (repeat_answer x (n - 1)) (by omega)

end Repeat

/-! ### range -/

/-- How far the end is, in the direction of the step. -/
def rangeDistance (stop step x : Int) : Int := if step > 0 then stop - x else x - stop

/-- The numbers from `start` on, up to the end. -/
def rangeList (start stop step : Int) : List Int :=
  (List.range ((rangeDistance stop step start + (step.natAbs - 1)) / step.natAbs).toNat).map
    fun i : Nat => start + (i : Int) * step

section Range
variable {stop step x : Int}

theorem beforeEnd_iff : beforeEnd stop step x = true ↔ 0 < rangeDistance stop step x := by
  unfold beforeEnd rangeDistance
  split <;> simp

theorem rangeDistance_next :
    rangeDistance stop step (x + step) = rangeDistance stop step x - step.natAbs := by
  unfold rangeDistance
  split <;> omega

theorem rangeList_end (hstep : step ≠ 0) (h : ¬ beforeEnd stop step x = true) :
    rangeList x stop step = [] := by
  rw [beforeEnd_iff] at h
  have hpos : (0 : Int) < step.natAbs := by omega
  have hlt : (rangeDistance stop step x + (step.natAbs - 1)) / step.natAbs < 1 :=
    Int.ediv_lt_of_lt_mul hpos (by omega)
  have hzero : ((rangeDistance stop step x + (step.natAbs - 1)) / step.natAbs).toNat = 0 := by
    omega
  rw [rangeList, hzero]
  rfl

theorem rangeList_before (hstep : step ≠ 0) (h : beforeEnd stop step x = true) :
    rangeList x stop step = x :: rangeList (x + step) stop step := by
  rw [beforeEnd_iff] at h
  have hpos : (0 : Int) < step.natAbs := by omega
  have hle : 1 ≤ (rangeDistance stop step x + (step.natAbs - 1)) / step.natAbs :=
    (Int.le_ediv_iff_mul_le hpos).mpr (by omega)
  have hnext : (rangeDistance stop step (x + step) + (step.natAbs - 1)) / step.natAbs =
      (rangeDistance stop step x + (step.natAbs - 1)) / step.natAbs - 1 := by
    rw [rangeDistance_next, ← Int.sub_mul_ediv_right _ 1 (by omega), Int.one_mul]
    congr 1
    omega
  obtain ⟨k, hk⟩ : ∃ k : Nat, (rangeDistance stop step x + (step.natAbs - 1)) / step.natAbs =
      (k : Int) + 1 :=
    ⟨((rangeDistance stop step x + (step.natAbs - 1)) / step.natAbs - 1).toNat, by omega⟩
  have hk' : ((k : Int) + 1 - 1).toNat = k := by omega
  have hsucc : ((k : Int) + 1).toNat = k + 1 := by omega
  rw [rangeList, rangeList, hnext, hk, hk', hsucc, List.range_succ_eq_map, List.map_cons,
    List.map_map]
  congr 1
  · omega
  · refine List.map_congr_left fun i _ => ?_
    simp only [Function.comp_apply, Int.natCast_succ, Int.add_mul, Int.one_mul]
    omega

/-- A chunk of numbers, and the number after them. -/
structure RangeChunk (stop step x : Int) (r : List Int × Int) : Prop where
  numbers : rangeList x stop step = r.1 ++ rangeList r.2 stop step
  nonempty : beforeEnd stop step x = true → r.1 ≠ []

omit [DecidableEq ω] in
theorem rangeSmall_chunk (hstep : step ≠ 0) (k : Nat) (x : Int) :
    RangeChunk stop step x (rangeSmall H stop step (k + 1) x) := by
  induction k generalizing x with
  | zero =>
    unfold rangeSmall
    by_cases hb : beforeEnd stop step x = true
    · rw [if_pos hb]
      refine ⟨rangeList_before hstep hb ▸ ?_, fun _ => ?_⟩
      · split <;> rfl
      · split <;> exact List.cons_ne_nil _ _
    · rw [if_neg hb]
      exact ⟨rfl, fun h => absurd h hb⟩
  | succ k ih =>
    unfold rangeSmall
    by_cases hb : beforeEnd stop step x = true
    · rw [if_pos hb]
      refine ⟨rangeList_before hstep hb ▸ ?_, fun _ => ?_⟩
      · split
        · exact congrArg (x :: ·) (ih (x + step)).numbers
        · rfl
      · split <;> exact List.cons_ne_nil _ _
    · rw [if_neg hb]
      exact ⟨rfl, fun h => absurd h hb⟩

theorem rangeLarge_chunk (hstep : step ≠ 0) (k : Nat) (x : Int) :
    RangeChunk stop step x (rangeLarge stop step (k + 1) x) := by
  induction k generalizing x with
  | zero =>
    unfold rangeLarge
    by_cases hb : beforeEnd stop step x = true
    · rw [if_pos hb]
      exact ⟨rangeList_before hstep hb, fun _ => List.cons_ne_nil _ _⟩
    · rw [if_neg hb]
      exact ⟨rfl, fun h => absurd h hb⟩
  | succ k ih =>
    unfold rangeLarge
    by_cases hb : beforeEnd stop step x = true
    · rw [if_pos hb]
      refine ⟨(rangeList_before hstep hb).trans ?_, fun _ => List.cons_ne_nil _ _⟩
      exact congrArg (x :: ·) (ih (x + step)).numbers
    · rw [if_neg hb]
      exact ⟨rfl, fun h => absurd h hb⟩

/-- The step's chunk, in tagged integers or not. -/
def rangeTurn (H : Host ω) (start stop step : Int) : List Int × Int :=
  if H.isSmallInt start && H.isSmallInt stop && H.isSmallInt step then
    rangeSmall H stop step kChunk start
  else rangeLarge stop step kChunk start

omit [DecidableEq ω] in
theorem rangeTurn_chunk (hstep : step ≠ 0) (x : Int) :
    RangeChunk stop step x (rangeTurn H x stop step) := by
  unfold rangeTurn
  split
  · exact rangeSmall_chunk hstep 31 x
  · exact rangeLarge_chunk hstep 31 x

theorem contents_range (hstep : step ≠ 0) (start : Int) :
    contents H (.lazy (.range start stop step)) = ofList ((rangeList start stop step).map .int) := by
  have answer (x : Int) : SeqOf H (.lazy (.range x stop step))
      (newChunk ((rangeTurn H x stop step).1.map .int) true
        (if beforeEnd stop step (rangeTurn H x stop step).2 then
          .lazy (.range (rangeTurn H x stop step).2 stop step) else .nil)) :=
    seqOf_lazy.mpr (Comp.returns_pure.mpr rfl)
  suffices h : Producing H fun v l => ∃ x, v = .lazy (.range x stop step) ∧
      l = ofList ((rangeList x stop step).map .int) from h.contents_eq ⟨start, rfl, rfl⟩
  constructor
  · rintro _ _ s ⟨x, rfl, rfl⟩ hs
    obtain rfl := hs.unique (answer x)
    obtain ⟨hnumbers, hne⟩ : RangeChunk stop step x (rangeTurn H x stop step) :=
      rangeTurn_chunk hstep x
    generalize rangeTurn H x stop step = r at hnumbers hne ⊢
    by_cases hb : beforeEnd stop step x = true
    · refine continues_newChunk (m := ofList ((rangeList r.2 stop step).map .int))
        (fun h => hne hb (List.map_eq_nil_iff.mp h)) ?_ ?_
      · rw [hnumbers, List.map_append, prepend_ofList]
      · by_cases hb' : beforeEnd stop step r.2 = true
        · rw [if_pos hb']
          exact .inl ⟨r.2, rfl, rfl⟩
        · rw [if_neg hb', rangeList_end hstep hb']
          exact .inr contents_nil
    · rw [rangeList_end hstep hb] at hnumbers ⊢
      rw [(List.append_eq_nil_iff.mp hnumbers.symm).1]
      exact rfl
  · rintro _ _ ⟨x, rfl, rfl⟩ -
    exact ⟨_, answer x⟩

theorem contents_rangeInf (start step : Int) :
    contents H (.lazy (.rangeInf start step)) =
      ofStream ((Stream'.iterate (· + step) start).map .int) := by
  suffices h : Producing H fun v l => ∃ x, v = .lazy (.rangeInf x step) ∧
      l = ofStream ((Stream'.iterate (· + step) x).map .int) from h.contents_eq ⟨start, rfl, rfl⟩
  have answer (x : Int) : SeqOf H (.lazy (.rangeInf x step))
      (some (.cons (.int x) (.lazy (.rangeInf (x + step) step)))) :=
    seqOf_lazy.mpr (Comp.returns_pure.mpr rfl)
  constructor
  · rintro _ _ s ⟨x, rfl, rfl⟩ hs
    obtain rfl := hs.unique (answer x)
    refine continues_cons (m := ofStream ((Stream'.iterate (· + step) (x + step)).map .int)) ?_
      (.inl ⟨x + step, rfl, rfl⟩)
    rw [prepend_ofStream, Stream'.iterate_eq, Stream'.map_cons]
    rfl
  · rintro _ _ ⟨x, rfl, rfl⟩ -
    exact ⟨_, answer x⟩

end Range

end ProtoClojure.Sequences
