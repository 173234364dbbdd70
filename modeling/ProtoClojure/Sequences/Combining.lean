import ProtoClojure.Sequences.ListFunctions

/-! What the steps over several sources produce, and those that go round a source or remember
what they have met. -/
namespace ProtoClojure.Sequences
open Recursion LazyLists LazyList KeyedMap

variable {ω : Type} [DecidableEq ω] {H : Host ω}

/-! ### The first elements of several collections -/

section Heads
variable {coll : Value ω} {colls : List (Value ω)}

/-- What the heads say of the tuples. -/
def HeadsAgree (H : Host ω) (colls : List (Value ω)) :
    Option (List (Value ω) × List (Value ω)) → Prop
  | none => tuples (colls.map (contents H)) = ofList []
  | some (firsts, rests) => firsts.length = colls.length ∧ rests.length = colls.length ∧
      tuples (colls.map (contents H)) = prepend [firsts] (tuples (rests.map (contents H)))

theorem readHeads_agree {r : Option (List (Value ω) × List (Value ω))}
    (h : Gives H (readHeads H colls) r) : HeadsAgree H colls r := by
  induction colls generalizing r with
  | nil =>
    obtain rfl := Comp.returns_pure.mp h
    exact ⟨rfl, rfl, tuples_none⟩
  | cons coll colls ih =>
    obtain ⟨s, hs, h⟩ := Comp.returns_bind.mp h
    have hs : SeqOf H coll s := hs
    cases s with
    | none =>
      obtain rfl := Comp.returns_pure.mp h
      show zipWith List.cons (contents H coll) _ = ofList []
      rw [hs.contents_none, zipWith_nil_left]
    | some n =>
      obtain ⟨r', hr', h⟩ := Comp.returns_bind.mp h
      have hrest := ih hr'
      cases r' with
      | none =>
        obtain rfl := Comp.returns_pure.mp h
        show zipWith List.cons (contents H coll) (tuples (colls.map (contents H))) = ofList []
        rw [hs.contents_some, show tuples (colls.map (contents H)) = ofList [] from hrest,
          zipWith_nil_right]
      | some heads =>
        obtain rfl := Comp.returns_pure.mp h
        obtain ⟨hfirsts, hrests, htuples⟩ := hrest
        refine ⟨congrArg Nat.succ hfirsts, congrArg Nat.succ hrests, ?_⟩
        show zipWith List.cons (contents H coll) (tuples (colls.map (contents H))) = _
        rw [hs.contents_some, htuples, zipWith_cons]
        rfl

theorem readHeads_answers (h : tuples (colls.map (contents H)) ≠ ⊥) :
    ∃ r, Gives H (readHeads H colls) r := by
  induction colls with
  | nil => exact ⟨_, Comp.returns_pure.mpr rfl⟩
  | cons coll colls ih =>
    replace h : zipWith List.cons (contents H coll) (tuples (colls.map (contents H))) ≠ ⊥ := h
    obtain ⟨s, hs⟩ := contents_ne_bot.mp fun hbot => h (by rw [hbot, zipWith_bot_left])
    cases s with
    | none => exact ⟨none, Comp.returns_bind.mpr ⟨none, hs, Comp.returns_pure.mpr rfl⟩⟩
    | some n =>
      obtain ⟨r, hr⟩ := ih fun hbot => h (by rw [hs.contents_some, hbot, zipWith_bot_right])
      cases r with
      | none =>
        exact ⟨none, Comp.returns_bind.mpr ⟨some n, hs,
          Comp.returns_bind.mpr ⟨none, hr, Comp.returns_pure.mpr rfl⟩⟩⟩
      | some heads =>
        exact ⟨_, Comp.returns_bind.mpr ⟨some n, hs,
          Comp.returns_bind.mpr ⟨some heads, hr, Comp.returns_pure.mpr rfl⟩⟩⟩

end Heads

/-! ### map over several collections -/

section MapN
variable {f : Value ω} {F : List (Value ω) → Value ω} {colls : List (Value ω)}

/-- The function answers for each of the tuples. -/
def AnswersTuples (H : Host ω) (f : Value ω) (F : List (Value ω) → Value ω)
    (l : LazyList (List (Value ω))) : Prop :=
  ∀ xs, Has l xs → H.invoke f xs = some (.ok (F xs))

inductive MappingTuples (H : Host ω) (f : Value ω) (F : List (Value ω) → Value ω) :
    Value ω → LazyList (Value ω) → Prop
  | mk {colls : List (Value ω)} (hF : AnswersTuples H f F (tuples (colls.map (contents H)))) :
      MappingTuples H f F (.lazy (.mapN f colls)) (map F (tuples (colls.map (contents H))))

theorem mappingTuples_producing : Producing H (MappingTuples H f F) where
  agrees := by
    rintro _ _ s ⟨hF⟩ hs
    obtain ⟨r, hr, hs⟩ := Comp.returns_bind.mp (seqOf_lazy.mp hs)
    have hheads := readHeads_agree hr
    cases r with
    | none =>
      obtain rfl := Comp.returns_pure.mp hs
      rw [show tuples _ = ofList [] from hheads]
      exact map_ofList
    | some heads =>
      obtain ⟨firsts, rests⟩ := heads
      obtain ⟨-, -, htuples⟩ := hheads
      rw [htuples] at hF ⊢
      have hfirsts := hF firsts (has_prepend.mpr (.inl (List.mem_singleton_self _)))
      obtain ⟨y, hy, hs⟩ := Comp.returns_bind.mp hs
      obtain rfl := Comp.returns_pure.mp hs
      obtain rfl := Gives.unique hy (gives_invoke.mpr hfirsts)
      exact continues_cons map_prepend
        (.inl (.mk fun xs hxs => hF xs (has_prepend.mpr (.inr hxs))))
  answers := by
    rintro _ _ ⟨hF⟩ hne
    obtain ⟨r, hr⟩ := readHeads_answers fun hbot => hne (by rw [hbot, map_bot])
    have hheads := readHeads_agree hr
    cases r with
    | none =>
      exact ⟨none, seqOf_lazy.mpr (Comp.returns_bind.mpr ⟨none, hr, Comp.returns_pure.mpr rfl⟩)⟩
    | some heads =>
      obtain ⟨firsts, rests⟩ := heads
      obtain ⟨-, -, htuples⟩ := hheads
      rw [htuples] at hF
      have hfirsts := hF firsts (has_prepend.mpr (.inl (List.mem_singleton_self _)))
      exact ⟨_, seqOf_lazy.mpr (Comp.returns_bind.mpr ⟨_, hr, Comp.returns_bind.mpr
        ⟨_, gives_invoke.mpr hfirsts, Comp.returns_pure.mpr rfl⟩⟩)⟩

theorem contents_mapN (hF : AnswersTuples H f F (tuples (colls.map (contents H)))) :
    contents H (.lazy (.mapN f colls)) = map F (tuples (colls.map (contents H))) :=
  mappingTuples_producing.contents_eq (.mk hF)

end MapN

/-! ### interleave -/

section Interleave
variable {colls : List (Value ω)}

inductive Interleaving (H : Host ω) : Value ω → LazyList (Value ω) → Prop
  | mk {colls : List (Value ω)} (hne : colls.length ≠ 0) :
      Interleaving H (.lazy (.interleave colls)) (flatten (tuples (colls.map (contents H))))

theorem gives_interleave (hne : colls.length ≠ 0) {s : Option (Node ω)} :
    SeqOf H (.lazy (.interleave colls)) s ↔
      ∃ r, Gives H (readHeads H colls) r ∧ s = r.bind fun heads =>
        newChunk heads.1 false (.lazy (.interleave heads.2)) := by
  rw [seqOf_lazy]
  show Gives H (if colls.length = 0 then _ else readHeads H colls >>= _) s ↔ _
  rw [if_neg hne]
  refine Comp.returns_bind.trans (exists_congr fun r => and_congr_right fun _ => ?_)
  cases r with
  | none => exact Comp.returns_pure.trans eq_comm
  | some heads => exact Comp.returns_pure.trans eq_comm

theorem interleaving_producing : Producing H (Interleaving H) where
  agrees := by
    rintro _ _ s ⟨hne⟩ hs
    obtain ⟨r, hr, rfl⟩ := (gives_interleave hne).mp hs
    have hheads := readHeads_agree hr
    cases r with
    | none =>
      rw [show tuples _ = ofList [] from hheads]
      exact flatten_ofList
    | some heads =>
      obtain ⟨firsts, rests⟩ := heads
      obtain ⟨hfirsts, hrests, htuples⟩ := hheads
      rw [htuples]
      refine continues_newChunk (fun h => hne ?_) flatten_cons (.inl (.mk (hrests.symm ▸ hne)))
      rw [← hfirsts, show firsts = [] from h, List.length_nil]
  answers := by
    rintro _ _ ⟨hne⟩ hbot
    obtain ⟨r, hr⟩ := readHeads_answers fun h => hbot (by rw [h, flatten_bot])
    exact ⟨_, (gives_interleave hne).mpr ⟨r, hr, rfl⟩⟩

/-- Of no collections nothing is interleaved. -/
theorem contents_interleave (colls : List (Value ω)) :
    contents H (.lazy (.interleave colls)) =
      if colls.length = 0 then ofList [] else flatten (tuples (colls.map (contents H))) := by
  split
  · rename_i h0
    have hs : SeqOf H (.lazy (.interleave colls)) none := by
      refine seqOf_lazy.mpr ?_
      show Gives H (if colls.length = 0 then _ else _) _
      rw [if_pos h0]
      exact Comp.returns_pure.mpr rfl
    exact hs.contents_none
  · rename_i hne
    exact interleaving_producing.contents_eq (.mk hne)

end Interleave

/-! ### cycle -/

section Cycle
variable {coll turn : Value ω}

inductive Cycling (H : Host ω) (coll : Value ω) : Value ω → LazyList (Value ω) → Prop
  | mk (turn : Value ω) : Cycling H coll (.lazy (.cycle coll turn))
      (append (contents H turn) (cycle (contents H coll)))

/-- This turn goes on, or the next one starts. -/
theorem gives_cycle {s : Option (Node ω)} : SeqOf H (.lazy (.cycle coll turn)) s ↔
    ∃ src, (SeqOf H turn src ∧ src ≠ none ∨ SeqOf H turn none ∧ SeqOf H coll src) ∧
      s = src.map fun n => .cons (seqFirst n) (.lazy (.cycle coll (seqMore n))) := by
  rw [seqOf_lazy]
  constructor
  · intro h
    obtain ⟨t, ht, h⟩ := Comp.returns_bind.mp h
    cases t with
    | none =>
      obtain ⟨src, hsrc, h⟩ := Comp.returns_bind.mp h
      refine ⟨src, .inr ⟨ht, hsrc⟩, ?_⟩
      cases src with
      | none => exact (Comp.returns_pure.mp h).symm
      | some n => exact (Comp.returns_pure.mp h).symm
    | some n => exact ⟨some n, .inl ⟨ht, Option.some_ne_none n⟩, (Comp.returns_pure.mp h).symm⟩
  · rintro ⟨src, ⟨ht, hne⟩ | ⟨ht, hsrc⟩, rfl⟩
    · obtain ⟨n, rfl⟩ := Option.ne_none_iff_exists'.mp hne
      exact Comp.returns_bind.mpr ⟨some n, ht, Comp.returns_pure.mpr rfl⟩
    · refine Comp.returns_bind.mpr ⟨none, ht, Comp.returns_bind.mpr ⟨src, hsrc, ?_⟩⟩
      cases src with
      | none => exact Comp.returns_pure.mpr rfl
      | some n => exact Comp.returns_pure.mpr rfl

theorem cycling_producing : Producing H (Cycling H coll) where
  agrees := by
    rintro _ _ s ⟨turn⟩ hs
    obtain ⟨src, ⟨ht, hne⟩ | ⟨ht, hsrc⟩, rfl⟩ := gives_cycle.mp hs
    · obtain ⟨n, rfl⟩ := Option.ne_none_iff_exists'.mp hne
      rw [ht.contents_some, append_prepend]
      exact continues_cons rfl (.inl (.mk _))
    · rw [ht.contents_none, append_nil]
      cases src with
      | none =>
        rw [hsrc.contents_none]
        exact cycle_ofList.trans (dif_pos rfl)
      | some n =>
        refine continues_cons ?_ (.inl (.mk _))
        conv_lhs => rw [← append_cycle]
        rw [← append_prepend, ← hsrc.contents_some]
  answers := by
    rintro _ _ ⟨turn⟩ hne
    obtain ⟨t, ht⟩ := contents_ne_bot.mp fun hbot => hne (by rw [hbot, append_bot])
    cases t with
    | some n => exact ⟨_, gives_cycle.mpr ⟨some n, .inl ⟨ht, Option.some_ne_none n⟩, rfl⟩⟩
    | none =>
      rw [ht.contents_none, append_nil] at hne
      obtain ⟨src, hsrc⟩ := contents_ne_bot.mp fun hbot => hne (by rw [hbot, cycle_bot])
      exact ⟨_, gives_cycle.mpr ⟨src, .inr ⟨ht, hsrc⟩, rfl⟩⟩

theorem contents_cycle (coll : Value ω) :
    contents H (.lazy (.cycle coll .nil)) = cycle (contents H coll) := by
  rw [cycling_producing.contents_eq (.mk .nil), contents_nil, append_nil]

end Cycle

/-! ### concat -/

section Concat
variable {coll restColls : Value ω} {s t : Option (Node ω)}

inductive Concatenating (H : Host ω) : Value ω → LazyList (Value ω) → Prop
  | mk (coll restColls : Value ω) : Concatenating H (.lazy (.concat coll restColls))
      (append (contents H coll) (flatMap (contents H) (contents H restColls)))

omit [DecidableEq ω] in
theorem prependSeq_eq (n : Node ω) (restColls : Value ω) :
    (restColls = .nil ∨ restColls = .emptyList) ∧ prependSeq n restColls = n ∨
    prependSeq n restColls = match n with
      | .chunk c chunked more => .chunk c chunked (.lazy (.concat more restColls))
      | .list first rest => .cons first (.lazy (.concat (.ofList rest) restColls))
      | .cons first more => .cons first (.lazy (.concat more restColls)) := by
  cases restColls with
  | nil => exact .inl ⟨.inl rfl, rfl⟩
  | emptyList => exact .inl ⟨.inr rfl, rfl⟩
  | _ => exact .inr rfl

theorem continues_prependSeq (n : Node ω) (restColls : Value ω) :
    Continues H (Concatenating H) (some (prependSeq n restColls))
      (append (contents H (.seq n)) (flatMap (contents H) (contents H restColls))) := by
  rcases prependSeq_eq n restColls with ⟨hnil, heq⟩ | heq
  · have hrest : contents H restColls = ofList [] := by
      rcases hnil with rfl | rfl
      · exact contents_nil
      · exact contents_emptyList
    rw [heq, hrest, flatMap_nil, append_ofList_nil]
    exact continues_self rfl
  · rw [heq]
    cases n with
    | list first rest =>
      rw [contents_seq, append_prepend]
      exact continues_cons rfl (.inl (.mk _ _))
    | cons first more =>
      rw [contents_seq, append_prepend]
      show Continues H _ _ (prepend [first] (append (contents H more.orEmpty) _))
      rw [contents_orEmpty]
      exact continues_cons rfl (.inl (.mk _ _))
    | chunk c chunked more =>
      rw [(reads_chunk c chunked more).contents, contents_orEmpty, append_prepend]
      exact ⟨c.elements, _, _, List.cons_ne_nil _ _, reads_chunk c chunked _, rfl, .inl (.mk _ _)⟩

theorem concatLoop_agrees (h : (program H).Answers (.concatLoop s restColls) t) :
    Continues H (Concatenating H) t
      (append (contents H (.ofSeq s)) (flatMap (contents H) (contents H restColls))) := by
  refine Program.Answers.induct
    (motive := fun q => match q with
      | .concatLoop s restColls => fun t => Continues H (Concatenating H) t
          (append (contents H (.ofSeq s)) (flatMap (contents H) (contents H restColls)))
      | _ => fun _ => True) (fun q a ha => ?_) h
  cases q with
  | concatLoop s restColls =>
    have ha : (concatLoopBody H s restColls).Returns _ a := ha
    cases s with
    | some n =>
      obtain rfl := Comp.returns_pure.mp ha
      exact continues_prependSeq n restColls
    | none =>
      show Continues H (Concatenating H) a
        (append (contents H .nil) (flatMap (contents H) (contents H restColls)))
      rw [contents_nil, append_nil]
      obtain ⟨colls, hcolls, ha⟩ := Comp.returns_bind.mp ha
      have hcolls : SeqOf H restColls colls := hcolls.mono fun _ _ => And.left
      cases colls with
      | none =>
        obtain rfl := Comp.returns_pure.mp ha
        rw [hcolls.contents_none]
        exact flatMap_nil
      | some n =>
        obtain ⟨s', hs', ha⟩ := Comp.returns_bind.mp ha
        have hs' : SeqOf H (seqFirst n) s' := hs'.mono fun _ _ => And.left
        rw [hcolls.contents_some, flatMap_cons, hs'.contents]
        exact (Comp.returns_ask.mp ha).2
  | _ => trivial

theorem concatLoop_answers {xs : List (Value ω)} {c : Bool}
    (hp : ⟨xs, c⟩ ∈ contents H restColls)
    (h : chain (contents H) xs (if c then ofList [] else ⊥) ≠ ⊥) :
    ∃ t, (program H).Answers (.concatLoop none restColls) t := by
  -- by induction on the collections known: one has an element, or the last has been asked
  induction xs generalizing restColls with
  | nil =>
    cases c with
    | false => exact absurd rfl h
    | true =>
      have hnone : SeqOf H restColls none := learns_ends.mp hp
      exact ⟨none, Program.answers_iff.mpr
        (Comp.returns_bind.mpr ⟨none, hnone, Comp.returns_pure.mpr rfl⟩)⟩
  | cons x xs ih =>
    obtain ⟨n, hn, rfl, -⟩ := Learns.shows hp
    rw [hn.contents_some] at hp
    obtain ⟨q, hq, heq⟩ := mem_prepend_singleton hp fun hbot => by
      cases congrArg PartialList.items hbot
    obtain rfl : q = ⟨xs, c⟩ := by
      cases q
      cases heq
      rfl
    replace h : append (contents H (seqFirst n)) (chain (contents H) xs _) ≠ ⊥ := h
    obtain ⟨s, hs⟩ := contents_ne_bot.mp fun hbot => h (by rw [hbot, append_bot])
    suffices hloop : ∃ t, (program H).Answers (.concatLoop s (seqMore n)) t from
      hloop.imp fun t ht => Program.answers_iff.mpr (Comp.returns_bind.mpr ⟨some n, hn,
        Comp.returns_bind.mpr ⟨s, hs, Comp.returns_ask.mpr ht⟩⟩)
    cases s with
    | some m => exact ⟨_, Program.answers_iff.mpr (Comp.returns_pure.mpr rfl)⟩
    | none =>
      rw [hs.contents_none, append_nil] at h
      exact ih hq h

theorem concatenating_producing : Producing H (Concatenating H) where
  agrees := by
    rintro _ _ t ⟨coll, restColls⟩ ht
    obtain ⟨s, hs, ht⟩ := Comp.returns_bind.mp (seqOf_lazy.mp ht)
    have hs : SeqOf H coll s := hs
    rw [hs.contents]
    exact concatLoop_agrees (Comp.returns_ask.mp ht)
  answers := by
    rintro _ _ ⟨coll, restColls⟩ hne
    obtain ⟨s, hs⟩ := contents_ne_bot.mp fun hbot => hne (by rw [hbot, append_bot])
    suffices h : ∃ t, (program H).Answers (.concatLoop s restColls) t from
      h.imp fun t ht => seqOf_lazy.mpr (Comp.returns_bind.mpr ⟨s, hs, Comp.returns_ask.mpr ht⟩)
    cases s with
    | some n => exact ⟨_, Program.answers_iff.mpr (Comp.returns_pure.mpr rfl)⟩
    | none =>
      rw [hs.contents_none, append_nil] at hne
      obtain ⟨q, ⟨p, hp, hq⟩, hne⟩ := exists_ne_bot hne
      exact concatLoop_answers hp fun hbot => hne (eq_bot_iff_mem.mp hbot q hq)

theorem contents_concat (coll restColls : Value ω) :
    contents H (.lazy (.concat coll restColls)) =
      append (contents H coll) (flatMap (contents H) (contents H restColls)) :=
  concatenating_producing.contents_eq (.mk coll restColls)

end Concat

/-! ### distinct -/

section Distinct
variable {coll x : Value ω} {ks : List (Value ω)} {m seen : HashedMap (Value ω) (Value ω)}
  {s t : Option (Node ω)}

/-- The map holds these elements. -/
structure Remembers (H : Host ω) (m : HashedMap (Value ω) (Value ω)) (ks : List (Value ω)) :
    Prop where
  distinct : KeyedMap.Distinct H.keys m.entries
  elements : (m.entries.map Prod.fst).Perm ks

/-- Keys behave on the remembered elements and on those still to come. -/
abbrev Comparable (H : Host ω) (ks : List (Value ω)) (l : LazyList (Value ω)) : Prop :=
  H.keys.LawfulOn fun a => a ∈ ks ∨ Has l a

omit [DecidableEq ω] in
theorem comparable_seen {l : LazyList (Value ω)} (h : Comparable H ks (prepend [x] l)) :
    Comparable H ks l :=
  h.mono fun _ ha => ha.imp id fun hl => has_prepend.mpr (.inr hl)

omit [DecidableEq ω] in
theorem comparable_new {l : LazyList (Value ω)} (h : Comparable H ks (prepend [x] l)) :
    Comparable H (x :: ks) l := by
  refine h.mono fun a ha => ?_
  rcases ha with ha | ha
  · rcases List.mem_cons.mp ha with rfl | ha
    · exact .inr (has_prepend.mpr (.inl (List.mem_singleton_self _)))
    · exact .inl ha
  · exact .inr (has_prepend.mpr (.inr ha))

omit [DecidableEq ω] in
theorem among_comparable {l : LazyList (Value ω)} (hr : Remembers H m ks)
    (h : Comparable H ks (prepend [x] l)) : H.keys.LawfulOn (Among m.entries x) := by
  refine h.mono fun a ha => ?_
  rcases ha with rfl | ha
  · exact .inr (has_prepend.mpr (.inl (List.mem_singleton_self _)))
  · exact .inl (hr.elements.mem_iff.mp ha)

omit [DecidableEq ω] in
theorem remembers_iff (hh : H.helper.Lawful) (hr : Remembers H m ks)
    (hl : H.keys.LawfulOn (Among m.entries x)) :
    (H.helper.hashedGet H.keys m x).isSome = ks.any (H.keys.equals x) := by
  rw [hh.get H.keys m x hl hr.distinct, lookup, find, Option.isSome_map, Bool.eq_iff_iff,
    List.find?_isSome, List.any_eq_true]
  constructor
  · rintro ⟨e, he, heq⟩
    exact ⟨e.1, hr.elements.mem_iff.mp (List.mem_map_of_mem he), heq⟩
  · rintro ⟨k, hk, heq⟩
    obtain ⟨e, he, rfl⟩ := List.mem_map.mp (hr.elements.mem_iff.mpr hk)
    exact ⟨e, he, heq⟩

omit [DecidableEq ω] in
theorem Remembers.put (hh : H.helper.Lawful) (hr : Remembers H m ks)
    (hl : H.keys.LawfulOn (Among m.entries x)) (hnew : ks.any (H.keys.equals x) = false) :
    Remembers H (H.helper.hashedPut H.keys m x x) (x :: ks) := by
  have hput := hh.put H.keys m x x hl hr.distinct
  have habsent : insert H.keys m.entries x x = m.entries ++ [(x, x)] := by
    refine insert_of_absent fun e he => ?_
    have hmem := hr.elements.mem_iff.mp (List.mem_map_of_mem he)
    simpa using List.any_eq_false.mp hnew e.1 hmem
  have hkeys : ∀ a ∈ (insert H.keys m.entries x x).map Prod.fst, Among m.entries x a :=
    fun a ha => among_insert ha
  refine ⟨(hr.distinct.insert hl).perm hput.symm (hl.mono hkeys), ?_⟩
  refine (hput.map Prod.fst).trans ?_
  rw [habsent, List.map_append]
  exact List.perm_append_comm.trans (hr.elements.cons x)

inductive Distincting (H : Host ω) : Value ω → LazyList (Value ω) → Prop
  | mk {coll : Value ω} {seen : Option (HashedMap (Value ω) (Value ω))} {ks : List (Value ω)}
      (hr : Remembers H (seen.getD H.helper.newMap) ks) (hc : Comparable H ks (contents H coll)) :
      Distincting H (.lazy (.distinct coll seen)) (distinct H.keys.equals ks (contents H coll))

/-- A turn of the loop answers, or passes over an element met before. -/
theorem distinctLoop_turn (hh : H.helper.Lawful) (hr : Remembers H m ks)
    (hc : Comparable H ks (contents H (.ofSeq s))) :
    (∃ t, Gives H (distinctLoopBody H s m) t ∧
      Continues H (Distincting H) t (distinct H.keys.equals ks (contents H (.ofSeq s)))) ∨
    ∃ x more, ks.any (H.keys.equals x) = true ∧
      contents H (.ofSeq s) = prepend [x] (contents H more) ∧
      distinctLoopBody H s m = seqOf H more >>= fun s => .ask (Call.distinctLoop s m) := by
  cases s with
  | none =>
    refine .inl ⟨none, Comp.returns_pure.mpr rfl, ?_⟩
    show distinct H.keys.equals ks (contents H .nil) = ofList []
    rw [contents_nil]
    exact distinct_ofList
  | some n =>
    have hn : contents H (.ofSeq (some n)) = prepend [seqFirst n] (contents H (seqMore n)) :=
      contents_seq
    rw [hn] at hc ⊢
    have hget := remembers_iff hh hr (among_comparable hr hc)
    cases hseen : ks.any (H.keys.equals (seqFirst n)) with
    | true =>
      refine .inr ⟨seqFirst n, seqMore n, hseen, rfl, if_pos (hget.trans hseen)⟩
    | false =>
      refine .inl ⟨some (.cons (seqFirst n) (.lazy (.distinct (seqMore n)
        (some (H.helper.hashedPut H.keys m (seqFirst n) (seqFirst n)))))), ?_, ?_⟩
      · show Gives H (if _ then _ else _) _
        rw [if_neg (by rw [hget, hseen]; exact Bool.false_ne_true)]
        exact Comp.returns_pure.mpr rfl
      · refine continues_cons (distinct_cons_new hseen) (.inl (.mk ?_ (comparable_new hc)))
        exact hr.put hh (among_comparable hr hc) hseen

theorem distinctLoop_agrees (hh : H.helper.Lawful)
    (h : (program H).Answers (.distinctLoop s m) t) (hr : Remembers H m ks)
    (hc : Comparable H ks (contents H (.ofSeq s))) :
    Continues H (Distincting H) t (distinct H.keys.equals ks (contents H (.ofSeq s))) := by
  revert hr hc
  refine Program.Answers.induct
    (motive := fun q => match q with
      | .distinctLoop s m => fun t => Remembers H m ks → Comparable H ks (contents H (.ofSeq s)) →
          Continues H (Distincting H) t (distinct H.keys.equals ks (contents H (.ofSeq s)))
      | _ => fun _ => True) (fun q a ha => ?_) h
  cases q with
  | distinctLoop s m =>
    intro hr hc
    have ha : (distinctLoopBody H s m).Returns _ a := ha
    rcases distinctLoop_turn hh hr hc with ⟨t, ht, hcont⟩ | ⟨x, more, hx, hmore, hbody⟩
    · exact Gives.unique ht (ha.mono fun _ _ => And.left) ▸ hcont
    · rw [hbody] at ha
      obtain ⟨s', hs', ha⟩ := Comp.returns_bind.mp ha
      have hs' : SeqOf H more s' := hs'.mono fun _ _ => And.left
      rw [hmore] at hc ⊢
      rw [distinct_cons_seen hx, hs'.contents]
      exact (Comp.returns_ask.mp ha).2 hr (hs'.contents ▸ comparable_seen hc)
  | _ => trivial

theorem distinctLoop_answers (hh : H.helper.Lawful) (hr : Remembers H m ks)
    (hc : Comparable H ks (contents H (.ofSeq s)))
    (h : distinct H.keys.equals ks (contents H (.ofSeq s)) ≠ ⊥) :
    ∃ t, (program H).Answers (.distinctLoop s m) t := by
  obtain ⟨p, hp, hne⟩ := exists_read_ne_bot h
  clear h
  -- by induction on what is learnt of the source until a new element
  induction hk : p.items.length using Nat.strong_induction_on generalizing s p with
  | _ k ih =>
    subst hk
    rcases distinctLoop_turn hh hr hc with ⟨t, ht, -⟩ | ⟨x, more, hx, hmore, hbody⟩
    · exact ⟨t, Program.answers_iff.mpr ht⟩
    · rw [hmore] at hp hc
      obtain ⟨q, hq, rfl, hne'⟩ := read_onward (fun _ => if_pos hx) (fun _ => rfl) rfl hp hne
      obtain ⟨s', hs'⟩ := contents_ne_bot.mp fun hbot =>
        hne' ((eq_bot_iff_mem.mp hbot q hq).symm ▸ rfl)
      have hlen : q.items.length < ([x] ++ q.items).length := Nat.lt_succ_self _
      have hc' := comparable_seen hc
      rw [hs'.contents] at hq hc'
      obtain ⟨t, ht⟩ := ih _ hlen hc' q hq hne' rfl
      refine ⟨t, Program.answers_iff.mpr ?_⟩
      show (distinctLoopBody H s m).Returns _ _
      rw [hbody]
      exact Comp.returns_bind.mpr ⟨s', hs', Comp.returns_ask.mpr ht⟩

theorem distincting_producing (hh : H.helper.Lawful) : Producing H (Distincting H) where
  agrees := by
    rintro _ _ t ⟨hr, hc⟩ ht
    obtain ⟨s, hs, ht⟩ := Comp.returns_bind.mp (seqOf_lazy.mp ht)
    have hs : SeqOf H _ s := hs
    rw [hs.contents] at hc ⊢
    exact distinctLoop_agrees hh (Comp.returns_ask.mp ht) hr hc
  answers := by
    rintro _ _ ⟨hr, hc⟩ hne
    obtain ⟨s, hs⟩ := contents_ne_bot.mp fun hbot => hne (by rw [hbot, distinct_bot])
    rw [hs.contents] at hc hne
    obtain ⟨t, ht⟩ := distinctLoop_answers hh hr hc hne
    exact ⟨t, seqOf_lazy.mpr (Comp.returns_bind.mpr ⟨s, hs, Comp.returns_ask.mpr ht⟩)⟩

theorem contents_distinct (hh : H.helper.Lawful) (hc : Comparable H [] (contents H coll)) :
    contents H (.lazy (.distinct coll none)) = distinct H.keys.equals [] (contents H coll) := by
  refine (distincting_producing hh).contents_eq (.mk ⟨?_, ?_⟩ hc)
  · show KeyedMap.Distinct H.keys H.helper.newMap.entries
    rw [hh.newMap]
    exact List.Pairwise.nil
  · show (H.helper.newMap.entries.map Prod.fst).Perm []
    rw [hh.newMap]
    exact .refl _

end Distinct

end ProtoClojure.Sequences
