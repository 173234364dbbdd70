import ProtoClojure.Runtime.Comparing

/-! `sort` and `sort-by`. -/
namespace ProtoClojure.Maps
open Numbers StableSort StateExcept

/-- Computations on a state that user code may change. -/
abbrev Exec (σ : Type) := StateT σ (Except Raised)

structure Engine (σ : Type) where
  invoke : Value → List Value → Exec σ Value

variable {σ : Type} (K : Kernel) (spelling : Nat → String) (E : Engine σ)

def raise {α : Type} (r : Result α) : Exec σ α := fun w => r.map (·, w)

def truthy (v : Value) : Bool := v ≠ .nil && v ≠ fromBool false

/-- No comparator is `compare`; one that answers a number is a comparator, one that answers a
boolean a "less than" predicate. -/
def callComparator (cmp x y : Value) : Exec σ Int :=
  if cmp = .nil then raise (compareValues K spelling x y)
  else do
    let r ← E.invoke cmp [x, y]
    if r = fromBool true then pure (-1)
    else if r = .nil ∨ r = fromBool false then
      let r ← E.invoke cmp [y, x]
      pure (if truthy r then 1 else 0)
    else if !r.isNumber then raise (K.throwNotANumber "sort comparator" r)
    else raise (numberCompare K r (.embedded (.smallInt 0)))

/-- A string's elements are the strings of its characters. -/
def seqToList (v : Value) : Result (List Value) :=
  match v with
  | .embedded .nil => .ok []
  | .string _ _ text => .ok (text.toList.map fun c => .string .inline 0 (String.singleton c))
  | .list .. | .protoList .. | .vector .. | .lazy .. | .cons .. | .chunk .. | .map .. |
    .set .. => .ok v.elements
  | .embedded _ | .double .. | .largeInteger .. | .identity .. =>
    .error (.classed "IllegalArgumentException"
      ("Don't know how to create ISeq from: " ++ K.valueTypeName v))

def keysBy (keyfn : Value) : List Value → Exec σ (List Value)
  | [] => pure []
  | e :: es => do
    let k ← E.invoke keyfn [e]
    let ks ← keysBy keyfn es
    pure (k :: ks)

/-- The elements are their own keys when `keyfn` is nil. -/
def keysOf (keyfn : Value) (elems : List Value) : Exec σ (List Value) :=
  if keyfn = .nil then pure elems else keysBy E keyfn elems

/-- The order of two positions. -/
def keyBefore (cmp : Value) (keys : List Value) (i j : Nat) : Exec σ Bool := do
  let c ← callComparator K spelling E cmp (keys.getD i .nil) (keys.getD j .nil)
  pure (decide (c < 0))

/-- The elements of the list it answers: positions are sorted, by the keys. -/
def sortedList (keyfn cmp coll : Value) : Exec σ (List Value) := do
  let elems ← raise (seqToList K coll)
  if elems.isEmpty then pure []
  else
    let keys ← keysOf E keyfn elems
    let order ← stableSort (keyBefore K spelling E cmp keys) (List.range elems.length)
    pure (order.map fun i => elems.getD i .nil)

def arity {α : Type} (n : Nat) (name : String) : Result α :=
  .error (.classed "ArityException"
    ("Wrong number of args (" ++ toString n ++ ") passed to: " ++ name))

def prim_sort (args : List Value) : Exec σ (List Value) :=
  match args with
  | [coll] => sortedList K spelling E .nil .nil coll
  | [cmp, coll] => sortedList K spelling E .nil cmp coll
  | args => raise (arity args.length "sort")

def prim_sort_by (args : List Value) : Exec σ (List Value) :=
  match args with
  | [keyfn, coll] => sortedList K spelling E keyfn .nil coll
  | [keyfn, cmp, coll] => sortedList K spelling E keyfn cmp coll
  | args => raise (arity args.length "sort-by")

/-! ### What the keys are sorted by -/

/-- What an answer of a comparator says of whether its first argument comes before. -/
inductive Says : Value → Bool → Prop where
  | yes : Says (fromBool true) true
  | no : Says (fromBool false) false
  | none : Says .nil false
  | number {v} : v.isNumber = true → Says v (order v.exact (some (.ofInt 0)) == some .lt)

/-- The comparator answers booleans or numbers by a strict order that is consistent on the keys;
without one, `compare` has an order for all of them. -/
inductive OrdersBy (cmp : Value) (keys : List Value) : (Value → Value → Bool) → Prop where
  | comparator {lt} : cmp ≠ .nil → StrictWeak lt (· ∈ keys) →
      (∀ x ∈ keys, ∀ y ∈ keys, ∀ w, ∃ r w', E.invoke cmp [x, y] w = .ok (r, w') ∧
        Says r (lt x y)) → OrdersBy cmp keys lt
  | compare : cmp = .nil → (∀ x ∈ keys, Sortable x) → MutuallyComparable K spelling keys →
      NoClash K spelling keys → OrdersBy cmp keys (isBefore K spelling)

/-- A call that sorts `coll` by `keyfn` and `cmp`. -/
inductive SortCall : Value → Value → Value → Exec σ (List Value) → Prop where
  | sort (coll) : SortCall .nil .nil coll (prim_sort K spelling E [coll])
  | sortWith (cmp coll) : SortCall .nil cmp coll (prim_sort K spelling E [cmp, coll])
  | sortBy (keyfn coll) : SortCall keyfn .nil coll (prim_sort_by K spelling E [keyfn, coll])
  | sortByWith (keyfn cmp coll) :
      SortCall keyfn cmp coll (prim_sort_by K spelling E [keyfn, cmp, coll])

variable {K spelling E}
variable {keyfn cmp coll x y v : Value} {keys elems : List Value} {lt : Value → Value → Bool}
  {w w' : σ}

theorem order_zero (hK : K.Lawful) (hv : v.isNumber = true) :
    primitiveOrder K v (.embedded (.smallInt 0)) = order v.exact (some (.ofInt 0)) := by
  rcases Value.number_cases hv with ⟨m, hm⟩ | ⟨i, bits, rfl⟩
  · unfold primitiveOrder
    rw [hm]
    rfl
  · -- zero is a double, so its rounding is itself
    obtain ⟨u, hu⟩ := hK.asDouble.number 0
    have hzero : (Double.finite false 0 0 (by decide)).value = some (.ofInt 0) := by
      simp [Double.value, Double.signed, Extended.ofInt]
    rw [hK.asDouble.eq_of_eq hu hzero rfl] at hu
    show order (Double.ofBits bits).value (K.asDouble 0).value = _
    rw [hu]
    rfl

/-- A falsy answer has the comparator asked the other way round. -/
theorem callComparator_falsy (hcmp : cmp ≠ .nil) {r : Value}
    (hr : E.invoke cmp [x, y] w = .ok (r, w')) (hfalsy : r = .nil ∨ r = fromBool false)
    (hswap : ∀ w, ∃ r w', E.invoke cmp [y, x] w = .ok (r, w')) :
    ∃ n w'', callComparator K spelling E cmp x y w = .ok (n, w'') ∧ decide (n < 0) = false := by
  obtain ⟨r', w'', hr'⟩ := hswap w'
  have hno : r ≠ fromBool true := by
    rcases hfalsy with rfl | rfl
    · nofun
    · nofun
  refine ⟨if truthy r' then 1 else 0, w'', ?_, by cases truthy r' <;> rfl⟩
  rw [callComparator, if_neg hcmp, run_bind hr, if_neg hno, if_pos hfalsy, run_bind hr']
  rfl

/-- A comparator's answer is taken as it says. -/
theorem callComparator_says (hK : K.Lawful) (hcmp : cmp ≠ .nil) {r : Value} {b : Bool}
    (hr : E.invoke cmp [x, y] w = .ok (r, w')) (hans : Says r b)
    (hswap : ∀ w, ∃ r w', E.invoke cmp [y, x] w = .ok (r, w')) :
    ∃ n w'', callComparator K spelling E cmp x y w = .ok (n, w'') ∧ decide (n < 0) = b := by
  cases hans with
  | yes =>
    refine ⟨-1, w', ?_, rfl⟩
    rw [callComparator, if_neg hcmp, run_bind hr, if_pos rfl]
    rfl
  | no => exact callComparator_falsy hcmp hr (.inr rfl) hswap
  | none => exact callComparator_falsy hcmp hr (.inl rfl) hswap
  | number hv =>
    have hno : r ≠ fromBool true := fun h => by rw [h] at hv; cases hv
    have hno' : ¬ (r = .nil ∨ r = fromBool false) := by
      rintro (rfl | rfl)
      · cases hv
      · cases hv
    have hsign := signOf_numberCompare hK hv (b := .embedded (.smallInt 0)) rfl
    rw [order_zero hK hv] at hsign
    obtain ⟨n, hn⟩ : ∃ n, numberCompare K r (.embedded (.smallInt 0)) = .ok n := by
      cases h : numberCompare K r (.embedded (.smallInt 0)) with
      | ok n => exact ⟨n, rfl⟩
      | error =>
        rw [h] at hsign
        cases hsign
    refine ⟨n, w', ?_, ?_⟩
    · rw [callComparator, if_neg hcmp, run_bind hr, if_neg hno, if_neg hno', hv, hn]
      rfl
    · rw [signOf_ok hn, Option.some.injEq] at hsign
      rw [Bool.eq_iff_iff, decide_eq_true_eq, beq_iff_eq, ← compare_lt_iff_lt, hsign]
      cases order r.exact (some (.ofInt 0)) with
      | none => simp
      | some o => simp

/-- Sorting is asked for the order of two keys. -/
theorem OrdersBy.answers (hK : K.Lawful) (h : OrdersBy K spelling E cmp keys lt) (hx : x ∈ keys)
    (hy : y ∈ keys) (w : σ) :
    ∃ n w', callComparator K spelling E cmp x y w = .ok (n, w') ∧ decide (n < 0) = lt x y := by
  cases h with
  | comparator hcmp _ hanswers =>
    obtain ⟨r, w', hr, hans⟩ := hanswers x hx y hy w
    refine callComparator_says hK hcmp hr hans fun w => ?_
    obtain ⟨r', w'', hr', -⟩ := hanswers y hy x hx w
    exact ⟨r', w'', hr'⟩
  | compare hcmp _ hcomp _ =>
    obtain ⟨n, hn⟩ := hcomp x hx y hy
    refine ⟨n, w, ?_, (isBefore_iff hn).symm⟩
    rw [callComparator, if_pos hcmp, hn]
    rfl

theorem OrdersBy.strictWeak (hK : K.Lawful) (hmono : RoundsInOrder K.asDouble)
    (h : OrdersBy K spelling E cmp keys lt) : StrictWeak lt (· ∈ keys) := by
  cases h with
  | comparator _ hlt => exact hlt
  | compare _ hS hcomp hno => exact isBefore_strictWeak hK hmono hS hcomp hno

theorem keysBy_length (h : keysBy E keyfn elems w = .ok (keys, w')) :
    keys.length = elems.length := by
  induction elems generalizing keys w w' with
  | nil =>
    obtain ⟨rfl, -⟩ := Prod.mk.inj (Except.ok.inj h)
    rfl
  | cons e es ih =>
    simp only [keysBy, bind, StateT.bind, Except.bind] at h
    cases he : E.invoke keyfn [e] w with
    | error =>
      rw [he] at h
      cases h
    | ok r =>
      rw [he] at h
      dsimp only at h
      cases hes : keysBy E keyfn es r.2 with
      | error =>
        rw [hes] at h
        cases h
      | ok ks =>
        rw [hes] at h
        obtain ⟨rfl, -⟩ := Prod.mk.inj (Except.ok.inj h)
        exact congrArg (· + 1) (ih hes)

theorem keysOf_length (h : keysOf E keyfn elems w = .ok (keys, w')) :
    keys.length = elems.length := by
  unfold keysOf at h
  split at h
  · obtain ⟨rfl, -⟩ := Prod.mk.inj (Except.ok.inj h)
    rfl
  · exact keysBy_length h

/-! ### Sorting -/

theorem SortCall.eq_sortedList {run : Exec σ (List Value)}
    (h : SortCall K spelling E keyfn cmp coll run) :
    run = sortedList K spelling E keyfn cmp coll := by
  cases h <;> rfl

/-- The keys beside the elements, in the order of the positions. -/
theorem map_range_zip {n : Nat} (hkeys : keys.length = n) (helems : elems.length = n) :
    ((List.range n).map fun i => (keys.getD i .nil, elems.getD i .nil)) = keys.zip elems := by
  apply List.ext_getElem
  · simp [hkeys, helems]
  · intro i hi hi'
    have hlt : i < n := by simpa using hi
    simp [hkeys, helems, hlt]

/-- The elements with their keys: a permutation, in the order of the keys, in which what has the
same key keeps its order. -/
theorem sortedList_sorted (hK : K.Lawful) (hmono : RoundsInOrder K.asDouble)
    (helems : seqToList K coll = .ok elems) (hkeys : keysOf E keyfn elems w = .ok (keys, w'))
    (hcmp : OrdersBy K spelling E cmp keys lt) :
    ∃ (ps : List (Value × Value)) (w'' : σ),
      sortedList K spelling E keyfn cmp coll w = .ok (ps.map Prod.snd, w'') ∧
      ps.Perm (keys.zip elems) ∧ ps.Pairwise (fun p q => lt q.1 p.1 = false) ∧
      ∀ k ∈ keys, ps.filter (fun p => same lt k p.1) =
        (keys.zip elems).filter fun p => same lt k p.1 := by
  have hlength := keysOf_length hkeys
  have hseq : (raise (seqToList K coll) : Exec σ (List Value)) w = .ok (elems, w) := by
    rw [raise, helems]
    rfl
  by_cases hnil : elems = []
  · subst hnil
    have hrun : sortedList K spelling E keyfn cmp coll w = .ok ([], w) := by
      rw [sortedList, run_bind hseq]
      rfl
    exact ⟨[], w, hrun, by simp, .nil, fun k _ => by simp⟩
  have hkey {i : Nat} (hi : i < elems.length) : keys.getD i .nil ∈ keys := by
    have hlt : i < keys.length := hlength ▸ hi
    have hget : keys.getD i .nil = keys[i] := by simp [hlt]
    exact hget ▸ List.getElem_mem hlt
  have hless : Answers (keyBefore K spelling E cmp keys)
      (fun i j => lt (keys.getD i .nil) (keys.getD j .nil)) (· < elems.length) := by
    intro i j hi hj w
    obtain ⟨n, w', hn, hlt⟩ := hcmp.answers hK (hkey hi) (hkey hj) w
    refine ⟨w', ?_⟩
    rw [keyBefore, run_bind hn, hlt]
    rfl
  have hweak := ((hcmp.strictWeak hK hmono).comap fun i => keys.getD i .nil).mono
    fun i (hi : i < elems.length) => hkey hi
  have hrange : ∀ i ∈ List.range elems.length, i < elems.length := fun i => List.mem_range.mp
  obtain ⟨order, w'', hrun, hperm, hsorted, hstable⟩ := stableSort_spec hless hweak hrange w'
  have hzip := map_range_zip hlength rfl
  refine ⟨order.map fun i => (keys.getD i .nil, elems.getD i .nil), w'', ?_, ?_, ?_, ?_⟩
  · rw [sortedList, run_bind hseq, if_neg (by simpa using hnil)]
    rw [run_bind hkeys, run_bind hrun, List.map_map]
    rfl
  · exact hzip ▸ hperm.map _
  · exact List.pairwise_map.mpr hsorted
  · intro k hk
    obtain ⟨i, hi, rfl⟩ := List.mem_iff_getElem.mp hk
    have hget : keys.getD i .nil = keys[i] := by simp [hi]
    have hclass : (fun p : Value × Value => same lt keys[i] p.1) ∘
        (fun j => (keys.getD j .nil, elems.getD j .nil)) =
        same (fun i j => lt (keys.getD i .nil) (keys.getD j .nil)) i := by
      funext j
      rw [Function.comp_apply, same, same, hget]
    rw [← hzip, List.filter_map, List.filter_map, hclass]
    exact congrArg _ (hstable i (hlength ▸ hi))

variable (K spelling) in
/-- Any two are compared, with opposite signs the two ways round. -/
def Antisymmetric (S : List Value) : Prop :=
  ∀ a ∈ S, ∀ b ∈ S, ∃ m n, compareValues K spelling a b = .ok m ∧
    compareValues K spelling b a = .ok n ∧ n.sign = -m.sign

variable (K spelling) in
def Transitive (S : List Value) : Prop :=
  ∀ a ∈ S, ∀ b ∈ S, ∀ c ∈ S, ∀ m n k, compareValues K spelling a b = .ok m →
    compareValues K spelling b c = .ok n → compareValues K spelling a c = .ok k →
    m ≤ 0 → n ≤ 0 → k ≤ 0

/-- What `sort` and `sort-by` answer: the elements with their keys, permuted into the order of the
keys, what has the same key in its old order. -/
def SortsBy (lt : Value → Value → Bool) (keys elems out : List Value) : Prop :=
  ∃ ps : List (Value × Value), out = ps.map Prod.snd ∧ ps.Perm (keys.zip elems) ∧
    ps.Pairwise (fun p q => lt q.1 p.1 = false) ∧
    ∀ k ∈ keys, ps.filter (fun p => same lt k p.1) =
      (keys.zip elems).filter fun p => same lt k p.1

/-- Values that compare are in a total preorder when no double is what two different integers
round to, and sorting by a strict order, or by `compare` where it is one, is stable. -/
theorem sorts (hK : K.Lawful) (hmono : RoundsInOrder K.asDouble) :
    (∀ S, (∀ a ∈ S, Sortable a) → MutuallyComparable K spelling S →
      Antisymmetric K spelling S ∧ (NoClash K spelling S → Transitive K spelling S)) ∧
    ∀ (E : Engine σ) (keyfn cmp coll : Value) (run : Exec σ (List Value))
      (elems keys : List Value) (lt : Value → Value → Bool) (w w' : σ),
      SortCall K spelling E keyfn cmp coll run → seqToList K coll = .ok elems →
      keysOf E keyfn elems w = .ok (keys, w') → OrdersBy K spelling E cmp keys lt →
      ∃ out w'', run w = .ok (out, w'') ∧ SortsBy lt keys elems out := by
  refine ⟨fun S hS hcomp => ⟨?_, ?_⟩, ?_⟩
  · intro a ha b hb
    obtain ⟨m, hm⟩ := hcomp a ha b hb
    obtain ⟨n, hn⟩ := hcomp b hb a ha
    exact ⟨m, n, hm, hn, compareValues_antisymm hK hm hn⟩
  · intro hno a ha b hb c hc m n k hm hn hk hm0 hn0
    exact compareValues_trans hK hmono (hS a ha) (hS b hb) (hS c hc) (hno a ha b hb c hc) hm hn hk
      hm0 hn0
  · intro E keyfn cmp coll run elems keys lt w w' hrun helems hkeys hcmp
    obtain ⟨ps, w'', hsorted, hps⟩ := sortedList_sorted hK hmono helems hkeys hcmp
    rw [hrun.eq_sortedList]
    exact ⟨ps.map Prod.snd, w'', hsorted, ps, rfl, hps⟩

/-! ### Two collections -/

theorem noClash_of_scalars {S : List Value} (hfloat : ∀ a ∈ S, a.isFloat = false)
    (hvector : ∀ a ∈ S, ∀ i xs, a ≠ .vector i xs) : NoClash K spelling S := by
  intro a ha b hb c hc hclash
  cases hclash with
  | @numbers _ _ _ x y d _ _ hperm _ _ _ hd =>
    have hmem : d ∈ [a, b, c] := hperm.symm.subset (by simp)
    have hS : d ∈ S := by
      rcases List.mem_cons.mp hmem with rfl | hmem
      · exact ha
      rcases List.mem_cons.mp hmem with rfl | hmem
      · exact hb
      · exact List.mem_singleton.mp hmem ▸ hc
    rw [hfloat d hS] at hd
    cases hd
  | vectors i => exact hvector _ ha i _ rfl

def idleEngine : Engine Unit where
  invoke _ _ := pure .nil

theorem sorts_nil_first :
    ∃ out w, prim_sort integerKernel (fun _ => "") idleEngine
        [.vector 0 [.embedded (.smallInt 3), .nil, .embedded (.smallInt 1)]] () = .ok (out, w) ∧
      SortsBy (isBefore integerKernel fun _ => "")
        [.embedded (.smallInt 3), .nil, .embedded (.smallInt 1)]
        [.embedded (.smallInt 3), .nil, .embedded (.smallInt 1)] out := by
  apply (sorts integerKernel_lawful truncate_inOrder).2 idleEngine .nil .nil _ _ _ _ _ () ()
    (.sort _) rfl (by rw [keysOf, if_pos rfl]; rfl)
  refine .compare rfl ?_ ?_ (noClash_of_scalars ?_ ?_)
  · simp only [List.mem_cons, List.not_mem_nil, or_false, forall_eq_or_imp, forall_eq]
    exact ⟨.number rfl rfl, .nil, .number rfl rfl⟩
  · simp only [MutuallyComparable, List.mem_cons, List.not_mem_nil, or_false, forall_eq_or_imp,
      forall_eq]
    refine ⟨⟨⟨0, ?_⟩, ⟨1, ?_⟩, 1, ?_⟩, ⟨⟨-1, ?_⟩, ⟨0, ?_⟩, -1, ?_⟩, ⟨-1, ?_⟩, ⟨1, ?_⟩, 0, ?_⟩ <;>
      decide +kernel
  · decide
  · simp

/-- Below `odd`, and rounded to the same double. -/
def below : Value := .largeInteger 3 9007199254740992

theorem compare_cycles :
    integerKernel.Lawful ∧ RoundsInOrder integerKernel.asDouble ∧
    (∀ a ∈ [below, even, odd], Sortable a) ∧
    MutuallyComparable integerKernel (fun _ => "") [below, even, odd] ∧
    ¬ Transitive integerKernel (fun _ => "") [below, even, odd] := by
  refine ⟨integerKernel_lawful, truncate_inOrder, ?_, ?_, ?_⟩
  · simp only [List.mem_cons, List.not_mem_nil, or_false, forall_eq_or_imp, forall_eq]
    exact ⟨.number rfl rfl, .number rfl (by decide +kernel), .number rfl rfl⟩
  · simp only [MutuallyComparable, List.mem_cons, List.not_mem_nil, or_false, forall_eq_or_imp,
      forall_eq]
    refine ⟨⟨⟨0, ?_⟩, ⟨0, ?_⟩, -1, ?_⟩, ⟨⟨0, ?_⟩, ⟨0, ?_⟩, 0, ?_⟩, ⟨1, ?_⟩, ⟨0, ?_⟩, 0, ?_⟩ <;>
      decide +kernel
  · intro h
    have hle := h odd (by simp) even (by simp) below (by simp) 0 0 1 (by decide +kernel)
      (by decide +kernel) (by decide +kernel) le_rfl le_rfl
    omega

end ProtoClojure.Maps
