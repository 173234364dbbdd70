import ProtoClojure.Sequences.Combining

/-! The lazy seq functions in any composition, over any representation of their sources. -/
namespace ProtoClojure.Sequences
open Recursion LazyLists LazyList

variable {ω : Type}

/-! ### The functions that choose a step -/

def primMap (f : Value ω) : List (Value ω) → Value ω
  | [coll] => .lazy (.map1 f coll)
  | colls => .lazy (.mapN f colls)

def primMapcat (f : Value ω) (colls : List (Value ω)) : Value ω :=
  .lazy (.concat .nil (primMap f colls))

def primInterleave : List (Value ω) → Value ω
  | [] => .emptyList
  | [coll] => .lazy (.concat coll .nil)
  | colls => .lazy (.interleave colls)

/-- A zero step repeats the start, unless the end is there already. -/
def primRange (start stop step : Int) : Value ω :=
  if step = 0 then
    if start = stop then .emptyList else .lazy (.repeated (.int start) none)
  else .lazy (.range start stop step)

def isLazySeq : Value ω → Bool
  | .lazy _ | .realized _ | .seq (.cons ..) | .seq (.chunk ..) => true
  | _ => false

/-- The elements of a realised collection. -/
def pushSeqElements : Value ω → Option (List (Value ω))
  | .nil | .emptyList => some []
  | .seq (.list first rest) => some (first :: rest)
  | .vector items => some items
  | v => collectionItems v

/-- With a lazy seq among the arguments nothing is realised; else the list is built at once.
`none` is the error for an argument that is no sequence. -/
def primConcat (args : List (Value ω)) : Option (Value ω) :=
  if args.any isLazySeq then some (.lazy (.concat .nil (.ofList args)))
  else (args.mapM pushSeqElements).map fun xss => .ofList xss.flatten

/-- It answers with a lazy seq among the arguments, and otherwise when each of them is a sequence. -/
theorem primConcat_isSome {args : List (Value ω)} : (primConcat args).isSome = true ↔
    args.any isLazySeq = true ∨ ∀ v ∈ args, (pushSeqElements v).isSome = true := by
  unfold primConcat
  split
  · rename_i hlazy
    exact iff_of_true rfl (.inl hlazy)
  · rename_i hrealised
    rw [Option.isSome_map, or_iff_right hrealised]
    clear hrealised
    induction args with
    | nil => exact iff_of_true rfl (List.forall_mem_nil _)
    | cons v args ih =>
      rw [List.forall_mem_cons, ← ih, List.mapM_cons]
      cases pushSeqElements v with
      | none => exact iff_of_false nofun fun h => nomatch h.1
      | some xs =>
        cases args.mapM pushSeqElements with
        | none => exact iff_of_false nofun fun h => nomatch h.2
        | some xss => exact iff_of_true rfl ⟨rfl, rfl⟩

variable [DecidableEq ω] {H : Host ω}

/-! ### What they produce -/

section Prims
variable {f v : Value ω} {F : List (Value ω) → Value ω} {args colls xs : List (Value ω)}

theorem Ends.contents (h : Ends H v xs) : Sequences.contents H v = ofList xs := by
  induction xs generalizing v with
  | nil => exact SeqOf.contents_none h
  | cons x xs ih =>
    obtain ⟨n, hn, rfl, h⟩ := h
    rw [hn.contents_some, ih h, prepend_ofList]
    rfl

theorem contents_ofList (xs : List (Value ω)) : contents H (.ofList xs) = ofList xs :=
  Ends.contents (ends_ofList.mpr rfl)

theorem contents_primMap (hF : AnswersTuples H f F (tuples (colls.map (contents H)))) :
    contents H (primMap f colls) = map F (tuples (colls.map (contents H))) := by
  match colls with
  | [coll] =>
    have hone : AnswersOn H f (fun x => F [x]) (contents H coll) := fun x hx =>
      hF [x] (has_tuples_singleton hx)
    exact (contents_map1 hone).trans map_tuples_singleton.symm
  | [] => exact contents_mapN hF
  | _ :: _ :: _ => exact contents_mapN hF

theorem contents_primInterleave (colls : List (Value ω)) : contents H (primInterleave colls) =
    if colls.length = 0 then ofList [] else flatten (tuples (colls.map (contents H))) := by
  match colls with
  | [] => exact contents_emptyList
  | [coll] =>
    refine (contents_concat coll .nil).trans ?_
    rw [contents_nil, flatMap_nil, append_ofList_nil]
    exact flatten_tuples_singleton.symm
  | _ :: _ :: _ => exact contents_interleave _

theorem contents_pushSeqElements (h : pushSeqElements v = some xs) :
    contents H v = ofList xs := by
  have hcollection (hc : collectionItems v = some xs) : contents H v = ofList xs :=
    Ends.contents ((ends_collection hc).mpr rfl)
  cases v with
  | nil =>
    cases h
    exact contents_nil
  | emptyList =>
    cases h
    exact contents_emptyList
  | vector items =>
    cases h
    exact Ends.contents (ends_vector.mpr rfl)
  | seq n =>
    cases n with
    | list first rest =>
      cases h
      exact contents_ofList (first :: rest)
    | cons first more => exact hcollection h
    | chunk c chunked more => exact hcollection h
  | _ => exact hcollection h

/-- Built at once or lazily, the lists of the arguments one after the other. -/
theorem contents_primConcat (h : primConcat args = some v) :
    contents H v = chain (contents H) args (ofList []) := by
  unfold primConcat at h
  split at h
  · cases h
    rw [contents_concat, contents_nil, append_nil, contents_ofList, flatMap_ofList]
  · obtain ⟨xss, hxss, rfl⟩ := Option.map_eq_some_iff.mp h
    rename_i hany
    clear h hany
    rw [contents_ofList]
    induction args generalizing xss with
    | nil =>
      cases hxss
      rfl
    | cons arg args ih =>
      rw [List.mapM_cons] at hxss
      obtain ⟨xs, hxs, hxss⟩ := Option.bind_eq_some_iff.mp hxss
      obtain ⟨yss, hyss, heq⟩ := Option.bind_eq_some_iff.mp hxss
      cases heq
      show _ = append (contents H arg) (chain (contents H) args (ofList []))
      rw [contents_pushSeqElements hxs, append_ofList, ← ih yss hyss, prepend_ofList,
        List.flatten_cons]

end Prims

/-! ### Pipelines -/

/-- The value is built by the lazy seq functions, and the list by the list functions of the same
names. A source may be any value, also one realised in part. -/
inductive Denotes (H : Host ω) : Value ω → LazyList (Value ω) → Prop
  | source (v : Value ω) : Denotes H v (contents H v)
  | nil : Denotes H .nil (ofList [])
  | list (items : List (Value ω)) : Denotes H (.ofList items) (ofList items)
  | vector (items : List (Value ω)) : Denotes H (.vector items) (ofList items)
  | collection {v : Value ω} {items : List (Value ω)} :
      collectionItems v = some items → Denotes H v (ofList items)
  | cons {more : Value ω} {l : LazyList (Value ω)} (x : Value ω) :
      Denotes H more l → Denotes H (.seq (.cons x more)) (prepend [x] l)
  | chunk {more : Value ω} {l : LazyList (Value ω)} (c : Chunk (Value ω)) (chunked : Bool) :
      Denotes H more l → Denotes H (.seq (.chunk c chunked more)) (prepend c.elements l)
  | realized {s : Option (Node ω)} {l : LazyList (Value ω)} :
      Denotes H (.ofSeq s) l → Denotes H (.realized s) l
  | lazySeq {f v : Value ω} {l : LazyList (Value ω)} :
      H.invoke f [] = some (.ok v) → Denotes H v l → Denotes H (.lazy (.fn f)) l
  | stage {v v' : Value ω} {l : LazyList (Value ω)} :
      Denotes H v l → Stage H v v' → Denotes H v' l
  | map {f : Value ω} {F : List (Value ω) → Value ω}
      {colls : List (Value ω × LazyList (Value ω))} :
      (∀ c ∈ colls, Denotes H c.1 c.2) → AnswersTuples H f F (tuples (colls.map Prod.snd)) →
      Denotes H (primMap f (colls.map Prod.fst)) (map F (tuples (colls.map Prod.snd)))
  | filter {pred coll : Value ω} {P : Value ω → Value ω} {l : LazyList (Value ω)} :
      Denotes H coll l → AnswersOn H pred P l →
      Denotes H (.lazy (.filter pred coll false)) (filter (fun x => (P x).truthy) l)
  | remove {pred coll : Value ω} {P : Value ω → Value ω} {l : LazyList (Value ω)} :
      Denotes H coll l → AnswersOn H pred P l →
      Denotes H (.lazy (.filter pred coll true)) (filter (fun x => !(P x).truthy) l)
  | take {coll : Value ω} {l : LazyList (Value ω)} (n : Int) :
      Denotes H coll l → Denotes H (.lazy (.take n coll)) (take n.toNat l)
  | takeWhile {pred coll : Value ω} {P : Value ω → Value ω} {l : LazyList (Value ω)} :
      Denotes H coll l → AnswersOn H pred P l →
      Denotes H (.lazy (.takeWhile pred coll)) (takeWhile (fun x => (P x).truthy) l)
  | drop {coll : Value ω} {l : LazyList (Value ω)} (n : Int) :
      Denotes H coll l → Denotes H (.lazy (.drop n coll)) (drop n.toNat l)
  | dropWhile {pred coll : Value ω} {P : Value ω → Value ω} {l : LazyList (Value ω)} :
      Denotes H coll l → AnswersOn H pred P l →
      Denotes H (.lazy (.dropWhile pred coll)) (dropWhile (fun x => (P x).truthy) l)
  | concat {colls : List (Value ω × LazyList (Value ω))} {v : Value ω} :
      (∀ c ∈ colls, Denotes H c.1 c.2) → primConcat (colls.map Prod.fst) = some v →
      Denotes H v (chain id (colls.map Prod.snd) (ofList []))
  | mapcat {f : Value ω} {F : List (Value ω) → Value ω} {m : Value ω → LazyList (Value ω)}
      {colls : List (Value ω × LazyList (Value ω))} :
      (∀ c ∈ colls, Denotes H c.1 c.2) → AnswersTuples H f F (tuples (colls.map Prod.snd)) →
      (∀ xs, Has (tuples (colls.map Prod.snd)) xs → Denotes H (F xs) (m (F xs))) →
      Denotes H (primMapcat f (colls.map Prod.fst)) (flatMap m (map F (tuples (colls.map Prod.snd))))
  | interleave {colls : List (Value ω × LazyList (Value ω))} :
      (∀ c ∈ colls, Denotes H c.1 c.2) → Denotes H (primInterleave (colls.map Prod.fst))
        (if colls.length = 0 then ofList [] else flatten (tuples (colls.map Prod.snd)))
  | distinct {coll : Value ω} {l : LazyList (Value ω)} :
      H.helper.Lawful → H.keys.LawfulOn (Has l) → Denotes H coll l →
      Denotes H (.lazy (.distinct coll none)) (distinct H.keys.equals [] l)
  | range {start stop step : Int} : step ≠ 0 →
      Denotes H (primRange start stop step) (ofList ((rangeList start stop step).map .int))
  | rangeInf (start step : Int) : Denotes H (.lazy (.rangeInf start step))
      (ofStream ((Stream'.iterate (· + step) start).map .int))
  | cycle {coll : Value ω} {l : LazyList (Value ω)} :
      Denotes H coll l → Denotes H (.lazy (.cycle coll .nil)) (cycle l)
  | repeated (x : Value ω) : Denotes H (.lazy (.repeated x none)) (ofStream (Stream'.const x))
  | repeatedTimes (x : Value ω) (n : Int) :
      Denotes H (.lazy (.repeated x (some n))) (ofList (List.replicate n.toNat x))
  | iterate {f x : Value ω} {F : Value ω → Value ω} : Iterates H f F x →
      Denotes H (.lazy (.iterate f x)) (ofStream (Stream'.iterate F x))

section
variable {v v' : Value ω} {l : LazyList (Value ω)}

/-- What has been realised stays what it was. -/
theorem Stage.contents (h : Stage H v v') : contents H v' = contents H v := by
  suffices hp : Producing H fun v' l => ∃ v, Stage H v v' ∧ l = Sequences.contents H v from
    hp.contents_eq ⟨v, h, rfl⟩
  constructor
  · rintro v' _ s ⟨v, hv, rfl⟩ hs
    rcases hv.seqOf with rfl | ⟨t, t', ht, ht', hf⟩
    · exact continues_self hs.contents
    · obtain rfl := hs.unique ht'
      cases hf with
      | none => exact ht.contents_none
      | @some n n' hn =>
        refine ⟨[seqFirst n'], seqMore n', _, List.cons_ne_nil _ _, reads_seq, ?_,
          .inl ⟨seqMore n, hn.2, rfl⟩⟩
        rw [ht.contents_some, hn.1]
  · rintro v' _ ⟨v, hv, rfl⟩ hne
    rcases hv.seqOf with rfl | ⟨t, t', -, ht', -⟩
    · exact contents_ne_bot.mp hne
    · exact ⟨t', ht'⟩

theorem map_contents {colls : List (Value ω × LazyList (Value ω))}
    (h : ∀ c ∈ colls, contents H c.1 = c.2) :
    (colls.map Prod.fst).map (contents H) = colls.map Prod.snd := by
  rw [List.map_map]
  exact List.map_congr_left h

theorem Denotes.contents_eq (h : Denotes H v l) : contents H v = l := by
  induction h with
  | source v => rfl
  | nil => exact contents_nil
  | list items => exact contents_ofList items
  | vector items => exact Ends.contents (ends_vector.mpr rfl)
  | collection hitems => exact Ends.contents ((ends_collection hitems).mpr rfl)
  | cons x _ ih =>
    rw [contents_seq, ← ih]
    exact congrArg (prepend [x]) contents_orEmpty
  | chunk c chunked _ ih =>
    rw [(reads_chunk c chunked _).contents, contents_orEmpty, ih]
  | realized _ ih =>
    rw [← ih]
    exact contents_congr fun s => seqOf_realized.trans seqOf_ofSeq.symm
  | lazySeq hf _ ih =>
    rw [← ih]
    refine contents_congr fun s => seqOf_lazy.trans ⟨fun hs => ?_, fun hs => ?_⟩
    · obtain ⟨u, hu, hs⟩ := Comp.returns_bind.mp hs
      obtain rfl := Gives.unique hu (gives_invoke.mpr hf)
      exact hs
    · exact Comp.returns_bind.mpr ⟨_, gives_invoke.mpr hf, hs⟩
  | stage _ hstage ih => exact hstage.contents.trans ih
  | map _ hF ih =>
    rw [← map_contents ih] at hF ⊢
    exact contents_primMap hF
  | @filter pred coll P l _ hP ih =>
    have hkept : kept P false = fun x => (P x).truthy := funext fun x => Bool.bne_false _
    rw [← ih] at hP ⊢
    exact hkept ▸ contents_filter hP
  | @remove pred coll P l _ hP ih =>
    have hkept : kept P true = fun x => !(P x).truthy := funext fun x => Bool.bne_true _
    rw [← ih] at hP ⊢
    exact hkept ▸ contents_filter hP
  | take n _ ih => exact ih ▸ contents_take n _
  | takeWhile _ hP ih =>
    rw [← ih] at hP ⊢
    exact contents_takeWhile hP
  | drop n _ ih => exact ih ▸ contents_drop n _
  | dropWhile _ hP ih =>
    rw [← ih] at hP ⊢
    exact contents_dropWhile hP
  | concat _ hv ih =>
    rw [contents_primConcat hv, chain, chain, List.foldr_map, List.foldr_map]
    exact List.foldr_ext _ _ _ fun c hc rest => congrArg (append · rest) (ih c hc)
  | mapcat _ hF _ ih ihm =>
    rw [← map_contents ih] at hF ihm ⊢
    refine (contents_concat .nil _).trans ?_
    rw [contents_nil, append_nil, contents_primMap hF]
    refine flatMap_congr fun y hy => ?_
    obtain ⟨xs, hxs, rfl⟩ := has_map hy
    exact ihm xs hxs
  | interleave _ ih =>
    rw [← map_contents ih, contents_primInterleave, List.length_map]
  | distinct hh hk _ ih =>
    rw [← ih] at hk ⊢
    exact contents_distinct hh (hk.mono fun _ ha => ha.resolve_left (List.not_mem_nil))
  | range hstep =>
    rw [primRange, if_neg hstep]
    exact contents_range hstep _
  | rangeInf start step => exact contents_rangeInf start step
  | cycle _ ih => exact ih ▸ contents_cycle _
  | repeated x => exact contents_repeat x
  | repeatedTimes x n => exact contents_repeat_count x n
  | iterate hF => exact contents_iterate hF

/-- In any composition the elements met are those of the list, in order, and the end is met where
the list has one. -/
theorem lazySteps_denote (h : Denotes H v l) :
    (∀ xs, Shows H v xs ↔ ⟨xs, false⟩ ∈ l) ∧ (∀ xs, Ends H v xs ↔ ⟨xs, true⟩ ∈ l) ∧
    ∀ xs, l = ofList xs → Enumerates H v xs := by
  obtain rfl := h.contents_eq
  refine ⟨fun xs => Iff.rfl, fun xs => Iff.rfl, fun xs hl => enumerates_iff.mpr ?_⟩
  have hmem : (⟨xs, true⟩ : PartialList (Value ω)) ∈ contents H v :=
    hl ▸ Order.Ideal.mem_principal_self
  exact learns_ends.mp hmem

end

/-- An engine whose functions answer their first argument. -/
def firstHost : Host Unit where
  invoke _ args := some (.ok (args.headD .nil))
  keys := ⟨fun _ => true, fun _ => 0, fun _ _ => false⟩
  helper := ⟨⟨0, []⟩, fun _ _ _ => none, fun _ m _ _ => m, fun _ m _ => m⟩
  isSmallInt _ := true
  typeName _ := ""

theorem take_cycle (a b : Value Unit) : take 3 (map (fun xs => xs.headD .nil)
    (tuples [cycle (ofList [a, b])])) = ofList [a, b, a] := by
  have hturn : cycle (ofList [a, b]) = prepend [a] (prepend [b] (cycle (ofList [a, b]))) := by
    rw [prepend_prepend, List.singleton_append, ← append_ofList, append_cycle]
  rw [map_tuples_singleton, hturn, hturn, map_prepend, map_prepend, map_prepend, List.map_singleton,
    List.map_singleton, take_cons, take_cons, take_cons, take_zero, prepend_ofList,
    prepend_ofList, prepend_ofList]
  rfl

/-- `(take 3 (map f (cycle [1 2])))` -/
theorem lazySteps_denote_cycle : Enumerates firstHost
    (.lazy (.take 3 (primMap (.object () []) [.lazy (.cycle (.vector [.int 1, .int 2]) .nil)])))
    [.int 1, .int 2, .int 1] := by
  have hcycle : Denotes firstHost (.lazy (.cycle (.vector [.int 1, .int 2]) .nil))
      (cycle (ofList [.int 1, .int 2])) := .cycle (.vector _)
  have hmap := @Denotes.map _ _ firstHost (.object () []) (fun xs => xs.headD .nil)
    [(_, cycle (ofList [.int 1, .int 2]))]
    (fun c hc => List.mem_singleton.mp hc ▸ hcycle) fun _ _ => rfl
  exact (lazySteps_denote (.take 3 hmap)).2.2 _ (take_cycle (.int 1) (.int 2))

end ProtoClojure.Sequences
