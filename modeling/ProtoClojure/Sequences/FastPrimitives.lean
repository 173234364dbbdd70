import ProtoClojure.Sequences.Traversals

/-! The primitives the VM may answer directly, by the direct path and by the general one. -/
namespace ProtoClojure.Sequences
open Recursion

variable {ω : Type}

/-! ### Values -/

/-- A lazy seq, a cons, a chunk or a list. -/
def isSeqObject : Value ω → Bool
  | .emptyList | .seq _ | .lazy _ | .realized _ => true
  | _ => false

/-- The elements of a Clojure list, empty or not. -/
def listItems : Value ω → Option (List (Value ω))
  | .emptyList => some []
  | .seq (.list first rest) => some (first :: rest)
  | _ => none

def listCons (x : Value ω) (items : List (Value ω)) : Value ω := .seq (.list x items)

/-- Doubles, the exceptions the runtime makes, and the hashed collections' `conj`, which may
realise the elements they compare. -/
structure Runtime (ω : Type) where
  isDouble : ω → Bool
  /-- the double as a binary64 sum -/
  plusDouble : Value ω → Int → Value ω
  /-- protoCore's `add` where an operand is a double -/
  addDouble : Value ω → Value ω → Value ω
  classed : String → String → Value ω
  error : String → Value ω
  printedValue : Value ω → String
  mapAssocPairs : List (Value ω × Value ω) → List (Value ω × Value ω) → Run ω (Value ω)
  setConj : List (Value ω) → List (Value ω) → Run ω (Value ω)

/-! ### The direct path -/

def tryEmpty : Value ω → Option Bool
  | .nil => some true
  | .vector items => some (items.length == 0)
  | .emptyList => some true
  | .seq _ => some false
  | _ => none

def tryCons (x : Value ω) : Value ω → Option (Value ω)
  | .nil => some (listCons x [])
  | coll => if isSeqObject coll then some (.seq (.cons x coll)) else none

section
variable (H : Host ω)

/-- `trySeq` with the call of `seqOf` it makes of a vector. -/
def directSeq : Value ω → Run ω (Option (Value ω))
  | .nil => pure (some .nil)
  | .vector items => do return some (.ofSeq (← seqOf H (.vector items)))
  | .seq s => pure (some (.seq s))
  | .emptyList => pure (some .nil)
  | _ => pure none

theorem chunk_next {c : Chunk (Value ω)} (h : c.off + 1 < c.stop) :
    c.off + 1 < c.stop ∧ c.stop ≤ c.items.length := ⟨h, c.stop_le⟩

/-- `tryNext`, with the `trySeq` of what follows a cons or a chunk's last element. -/
def directNext : Value ω → Run ω (Option (Value ω))
  | .nil => pure (some .nil)
  | .vector items => pure (some (vectorRest items .nil))
  | .seq (.list _ rest) => pure (some (if rest.length + 1 = 1 then .nil else .ofList rest))
  | .emptyList => pure (some .nil)
  | .seq (.cons _ more) => directSeq H more
  | .seq (.chunk c chunked more) =>
    if h : c.off + 1 < c.stop then
      pure (some (.seq (.chunk (.of c.items (c.off + 1) c.stop (chunk_next h)) chunked more)))
    else directSeq H more
  | _ => pure none

def fastIndexed (coll : Value ω) : Value ω → Option (Value ω)
  | .int idx =>
    if !H.isSmallInt idx then none
    else match coll with
      | .vector items =>
        if idx < 0 ∨ idx ≥ items.length then none else some (getAt items idx.toNat)
      | .seq (.list first rest) =>
        if idx < 0 ∨ idx ≥ (first :: rest).length then none
        else some (getAt (first :: rest) idx.toNat)
      | _ => none
  | _ => none

/-- An integer that fits a tagged word. -/
def makeSmallInt (n : Int) : Option (Value ω) := if H.isSmallInt n then some (.int n) else none

def fastPlus : Value ω → Value ω → Option (Value ω)
  | .int m, .int n =>
    if !H.isSmallInt m || !H.isSmallInt n then none else makeSmallInt H (m + n)
  | _, _ => none

def fastStep (d : Int) : Value ω → Option (Value ω)
  | .int n => if !H.isSmallInt n then none else makeSmallInt H (n + d)
  | _ => none

end

/-- The calls of the seq functions, and the loop of `count` over what it has to walk. -/
inductive CountLoop (ω : Type) where
  | count (n : Nat) (walk : SeqWalk ω)

abbrev PrimRun (ω α : Type) :=
  Comp (Call ω ⊕ CountLoop ω) (Comp.Either Answer fun _ => Nat) (Raised ω) α

inductive Primitive (ω : Type) where
  | inc
  | dec
  | plus
  | first
  | rest
  | next
  | seq
  | empty_p
  | count
  | nth
  | cons
  | conj
  | other (fn : List (Value ω) → PrimRun ω (Value ω))

/-- What a value the direct path may count is: nil, a vector or a seq object. -/
def fastCount (v : Value ω) : Option (Value ω) :=
  match v with
  | .nil | .vector _ => (tryCount v).map fun c : Nat => .int c
  | v => if isSeqObject v then (tryCount v).map fun c : Nat => .int c else none

def fastConj (coll x : Value ω) : Option (Value ω) :=
  match coll with
  | .nil => some (listCons x [])
  | .vector items => some (.vector (items ++ [x]))
  | coll => (listItems coll).map (listCons x)

/-- Nothing for what the caller then calls in the general way. -/
def fastPrimitiveCall (H : Host ω) (fn : Primitive ω) (argv : List (Value ω))
    (mayAllocate : Bool) : Run ω (Option (Value ω)) :=
  match argv with
  | [v] => match fn with
    | .inc => pure (fastStep H 1 v)
    | .dec => pure (fastStep H (-1) v)
    | .first => pure (tryFirst v)
    | .rest => if mayAllocate then pure (tryRest v) else pure none
    | .next => if mayAllocate then directNext H v else pure none
    | .seq => if mayAllocate then directSeq H v else pure none
    | .empty_p => pure ((tryEmpty v).map .bool)
    | .count => pure (fastCount v)
    | _ => pure none
  | [a, b] => match fn with
    | .nth => pure (fastIndexed H a b)
    | .cons => pure (if mayAllocate then tryCons a b else none)
    | .conj => pure (if mayAllocate then fastConj a b else none)
    | .plus => pure (fastPlus H a b)
    | _ => pure none
  | _ => pure none

/-! ### The general path -/

section
variable (H : Host ω) (R : Runtime ω)

def throwClassed {α : Type} (cls message : String) : PrimRun ω α :=
  .throw (.thrown (R.classed cls message))

def throwErrorText {α : Type} (text : String) : PrimRun ω α := .throw (.thrown (R.error text))

def arityError {α : Type} (args : List (Value ω)) (name : String) : PrimRun ω α :=
  throwClassed R "ArityException"
    ("Wrong number of args (" ++ toString args.length ++ ") passed to: " ++ name)

/-! #### Numbers -/

def isFloat : Value ω → Bool
  | .object o _ => R.isDouble o
  | _ => false

def isNumber : Value ω → Bool
  | .int _ => true
  | v => isFloat R v

def numberArg (v : Value ω) (primName : String) : PrimRun ω (Value ω) :=
  if isNumber R v then pure v
  else throwClassed R "ClassCastException"
    (primName ++ " expects a number, got " ++ H.typeName v)

/-- protoCore's integers are exact. -/
def add : Value ω → Value ω → Value ω
  | .int m, .int n => .int (m + n)
  | a, b => R.addDouble a b

/-- `inc` and `dec`. -/
def stepNumber (name : String) (d : Int) (args : List (Value ω)) : PrimRun ω (Value ω) :=
  match args with
  | [v] => do
    let x ← numberArg H R v name
    if isFloat R x then return R.plusDouble x d
    return add R x (.int d)
  | _ => throwErrorText R (name ++ ": expects 1 arg")

def prim_inc (args : List (Value ω)) : PrimRun ω (Value ω) := stepNumber H R "inc" 1 args

def prim_dec (args : List (Value ω)) : PrimRun ω (Value ω) := stepNumber H R "dec" (-1) args

def checkNumbers (args : List (Value ω)) (primName : String) : PrimRun ω Unit :=
  args.forM fun v => do let _ ← numberArg H R v primName

def prim_plus (args : List (Value ω)) : PrimRun ω (Value ω) := do
  checkNumbers H R args "+"
  match args with
  | [] => return .int 0
  | x :: xs => return xs.foldl (add R) x

/-! #### Sequences -/

def prim_first (args : List (Value ω)) : PrimRun ω (Value ω) :=
  match args with
  | [v] => (first H v).embed
  | _ => throwErrorText R "first: expects 1 arg"

def prim_rest (args : List (Value ω)) : PrimRun ω (Value ω) :=
  match args with
  | [v] => (rest H v).embed
  | _ => throwErrorText R "rest: expects 1 arg"

def prim_next (args : List (Value ω)) : PrimRun ω (Value ω) :=
  match args with
  | [v] => (next H v).embed
  | _ => arityError R args "next"

def prim_seq (args : List (Value ω)) : PrimRun ω (Value ω) :=
  match args with
  | [v] => (seq H v).embed
  | _ => throwErrorText R "seq: expects 1 arg"

/-- `empty?` of what `tryEmpty` does not answer. -/
def isEmptySlow (v : Value ω) : Run ω Bool :=
  match v with
  | .string utf8 => pure ((splitChars utf8).length == 0)
  | .map entries => pure (entries.length == 0)
  | .set elements => pure (elements.length == 0)
  | v =>
    if isSeqObject v then Option.isNone <$> seqOf H v
    else (fun items => (items.getD []).length == 0) <$> asSeqOrNull H v

def prim_empty_p (args : List (Value ω)) : PrimRun ω (Value ω) :=
  match args with
  | [v] => match tryEmpty v with
    | some e => pure (.bool e)
    | none => (.bool <$> isEmptySlow H v : Run ω (Value ω)).embed
  | _ => throwErrorText R "empty?: expects 1 arg"

/-- Walks until what is left is counted. -/
def countLoopBody (n : Nat) (w : SeqWalk ω) : PrimRun ω Nat :=
  if w.isDone then pure n
  else match w.counted with
    | some c => pure (n + c)
    | none => do
      let w' ← (w.advance H).embed
      Comp.ask (Sum.inr (CountLoop.count (n + 1) w'))

def prim_count (args : List (Value ω)) : PrimRun ω (Value ω) :=
  match args with
  | [.nil] => pure (.int 0)
  | [.string utf8] => pure (.int (splitChars utf8).length)
  | [.map entries] => pure (.int entries.length)
  | [.set elements] => pure (.int elements.length)
  | [v] =>
    if isSeqObject v then
      match tryCount v with
      | some c => pure (.int c)
      | none => do
        let w ← (SeqWalk.start H v).embed
        let n : Nat ← Comp.ask (Sum.inr (CountLoop.count 0 w))
        return .int n
    else do
      let items ← (asSeqOrNull H v).embed
      return .int (items.getD []).length
  | _ => throwErrorText R "count: expects 1 arg"

def LLONG_MIN : Int := -9223372036854775808
def LLONG_MAX : Int := 9223372036854775807

def indexArg (v : Value ω) (primName : String) : PrimRun ω Int :=
  match v with
  | .int n =>
    if H.isSmallInt n then pure n
    else if n > LLONG_MAX then pure LLONG_MAX
    else if n < LLONG_MIN then pure LLONG_MIN
    else pure n
  | v => throwClassed R "ClassCastException"
      (primName ++ " expects an integer, got " ++ H.typeName v)

/-- The value not found, or the exception with the index as written. -/
def outOfBounds (cls : String) (notFound : Option (Value ω)) (index : Value ω) (count : Nat) :
    PrimRun ω (Value ω) :=
  match notFound with
  | some nf => pure nf
  | none => throwClassed R cls ("nth index " ++ R.printedValue index ++
      " is out of bounds (count " ++ toString count ++ ")")

/-- The walk after `n` steps, or at its end, and the steps it took. -/
def nthLoop : Nat → Nat → SeqWalk ω → Run ω (Nat × SeqWalk ω)
  | 0, i, w => pure (i, w)
  | n + 1, i, w =>
    if w.isDone then pure (i, w)
    else do nthLoop n (i + 1) (← w.advance H)

/-- `index` is the argument, `idx` the number it stands for. -/
def nthOf (coll index : Value ω) (idx : Int) (notFound : Option (Value ω)) :
    PrimRun ω (Value ω) :=
  match coll with
  | .nil => pure (notFound.getD .nil)
  | .string utf8 =>
    let chars := splitChars utf8
    if idx < 0 ∨ idx ≥ chars.length then
      outOfBounds R "StringIndexOutOfBoundsException" notFound index chars.length
    else pure (.string (chars.getD idx.toNat []))
  | .vector items =>
    if idx < 0 ∨ idx ≥ items.length then
      outOfBounds R "IndexOutOfBoundsException" notFound index items.length
    else pure (getAt items idx.toNat)
  | coll =>
    if !isSeqObject coll then
      throwClassed R "UnsupportedOperationException" ("nth not supported on " ++ H.typeName coll)
    else if idx < 0 then
      outOfBounds R "IndexOutOfBoundsException" notFound index ((listItems coll).getD []).length
    else do
      let w ← (SeqWalk.start H coll).embed
      let r ← (nthLoop H idx.toNat 0 w).embed
      if r.2.isDone then outOfBounds R "IndexOutOfBoundsException" notFound index r.1
      else return r.2.first

def prim_nth (args : List (Value ω)) : PrimRun ω (Value ω) :=
  match args with
  | [coll, i] => do nthOf H R coll i (← indexArg H R i "nth") none
  | [coll, i, notFound] => do nthOf H R coll i (← indexArg H R i "nth") (some notFound)
  | _ => throwErrorText R "nth: expects (nth coll i) or (nth coll i nf)"

def prim_cons (args : List (Value ω)) : PrimRun ω (Value ω) :=
  match args with
  | [x, coll] => match tryCons x coll with
    | some r => pure r
    | none => do
      match ← (seqOf H coll).embed with
      | none => return listCons x []
      | some s => return .seq (.cons x (.seq s))
  | _ => throwErrorText R "cons: expects (cons x coll)"

/-- The entries `conj` adds to a map. -/
def conjEntries : List (Value ω) → PrimRun ω (List (Value ω × Value ω))
  | [] => pure []
  | x :: xs => do
    let kv ← match x with
      | .map entries => pure entries
      | .vector [k, v] => pure [(k, v)]
      | .nil => pure []
      | _ => throwErrorText R "IllegalArgumentException: Vector arg to map conj must be a pair"
    return kv ++ (← conjEntries xs)

def prim_conj (args : List (Value ω)) : PrimRun ω (Value ω) :=
  match args with
  | [] => pure (.vector [])
  | [coll] => pure coll
  | .map entries :: xs => do
    let kv ← conjEntries R xs
    (R.mapAssocPairs entries kv).embed
  | .set elements :: xs => (R.setConj elements xs).embed
  | .vector items :: xs => pure (.vector (items ++ xs))
  | .nil :: xs => pure (xs.foldl (fun l x => listCons x ((listItems l).getD [])) .emptyList)
  | coll :: xs =>
    if (listItems coll).isSome then
      pure (xs.foldl (fun l x => listCons x ((listItems l).getD [])) coll)
    else if isSeqObject coll then pure (xs.foldl (fun s x => .seq (.cons x s)) coll)
    else throwErrorText R ("ClassCastException: conj expects a collection, got " ++ H.typeName coll)

def primitive : Primitive ω → List (Value ω) → PrimRun ω (Value ω)
  | .inc => prim_inc H R
  | .dec => prim_dec H R
  | .plus => prim_plus H R
  | .first => prim_first H R
  | .rest => prim_rest H R
  | .next => prim_next H R
  | .seq => prim_seq H R
  | .empty_p => prim_empty_p H R
  | .count => prim_count H R
  | .nth => prim_nth H R
  | .cons => prim_cons H R
  | .conj => prim_conj H R
  | .other fn => fn

/-- The procedures behind a primitive. -/
def primitiveProgram [DecidableEq ω] :
    Program (Call ω ⊕ CountLoop ω) (Comp.Either Answer fun _ => Nat) (Raised ω)
  | .inl q => (program H q).embed
  | .inr (.count n w) => countLoopBody H n w

end

/-! ### The two paths -/

section
variable {H : Host ω} {R : Runtime ω} {v r x coll : Value ω}

/-! #### Reads -/

theorem directSeq_eq (v : Value ω) : directSeq H v = pure (trySeq v) := by
  cases v with
  | seq s => rfl
  | _ => rfl

theorem directNext_eq (v : Value ω) : directNext H v = pure (tryNext v) := by
  cases v with
  | seq s =>
    cases s with
    | list first rest => rfl
    | cons first more => exact directSeq_eq more
    | chunk c chunked more =>
      unfold directNext tryNext
      dsimp only
      by_cases h : c.off + 1 < c.stop
      · rw [dif_pos h, dif_pos h]
      · rw [dif_neg h, dif_neg h]
        exact directSeq_eq more
  | _ => rfl

theorem first_of_try (h : tryFirst v = some r) : first H v = pure r := by
  rw [first, h]

theorem rest_of_try (h : tryRest v = some r) : rest H v = pure r := by
  rw [rest, h]

theorem next_of_try (h : tryNext v = some r) : next H v = pure r := by
  rw [next, h]

theorem seq_of_try (h : trySeq v = some r) : seq H v = pure r := by
  cases v with
  | nil | emptyList | vector | seq =>
    cases h
    rfl
  | _ => cases h

theorem prim_count_of_fast (h : fastCount v = some r) : prim_count H R [v] = pure r := by
  have hseq : isSeqObject v = true → (tryCount v).map (fun c : Nat => Value.int c) = some r →
      prim_count H R [v] = pure r := by
    intro hv h
    obtain ⟨c, hc, rfl⟩ := Option.map_eq_some_iff.mp h
    cases v with
    | emptyList | seq | lazy | realized =>
      unfold prim_count
      dsimp only
      rw [if_pos hv, hc]
    | _ => cases hv
  cases v with
  | nil =>
    cases h
    rfl
  | vector items =>
    cases h
    rw [Nat.zero_add]
    rfl
  | emptyList | seq | lazy | realized => exact hseq rfl h
  | _ => cases h

/-! #### Numbers -/

theorem makeSmallInt_some {n : Int} (h : makeSmallInt H n = some r) : r = .int n := by
  unfold makeSmallInt at h
  split at h
  · exact (Option.some.inj h).symm
  · cases h

theorem stepNumber_of_fast {d : Int} (name : String) (h : fastStep H d v = some r) :
    stepNumber H R name d [v] = pure r := by
  cases v with
  | int n =>
    dsimp only [fastStep] at h
    split at h
    · cases h
    · rw [makeSmallInt_some h]
      rfl
  | _ => cases h

theorem prim_plus_of_fast {a b : Value ω} (h : fastPlus H a b = some r) :
    prim_plus H R [a, b] = pure r := by
  cases a with
  | int m =>
    cases b with
    | int n =>
      dsimp only [fastPlus] at h
      split at h
      · cases h
      · rw [makeSmallInt_some h]
        rfl
    | _ => cases h
  | _ => cases h

/-! #### `nth` -/

/-- The cursor of a list goes on without a call. -/
theorem advance_list {w : SeqWalk ω} {xs : List (Value ω)} (h : w.seq = listSeq (x :: xs)) :
    ∃ w', w.advance H = pure w' ∧ w'.seq = listSeq xs := by
  apply Comp.map_eq_pure
  rw [w.advance_seq, h]
  exact seqOf_ofList xs

theorem nthLoop_list {xs : List (Value ω)} {n : Nat} (hn : n < xs.length) (i : Nat)
    {w : SeqWalk ω} (h : w.seq = listSeq xs) :
    ∃ w', nthLoop H n i w = pure (i + n, w') ∧ w'.seq = listSeq (xs.drop n) := by
  induction n generalizing xs i w with
  | zero => exact ⟨w, rfl, h⟩
  | succ n ih =>
    cases xs with
    | nil => cases hn
    | cons x xs =>
      obtain ⟨w', hw', hseq⟩ := advance_list (H := H) h
      obtain ⟨w'', hrun, hdrop⟩ := ih (Nat.lt_of_succ_lt_succ hn) (i + 1) hseq
      refine ⟨w'', ?_, hdrop⟩
      have hdone : ¬ w.isDone = true := by
        rw [w.isDone_iff, h]
        exact Option.some_ne_none _
      unfold nthLoop
      rw [if_neg hdone, hw', pure_bind, hrun]
      congr 2
      omega

theorem nthOf_list {first i : Value ω} {rest : List (Value ω)} {idx : Int}
    (h : ¬ (idx < 0 ∨ idx ≥ (first :: rest).length)) :
    nthOf H R (.seq (.list first rest)) i idx none = pure (getAt (first :: rest) idx.toNat) := by
  have hidx : idx.toNat < (first :: rest).length := by omega
  have hstart : (SeqWalk.load (some (.list first rest))).seq = listSeq (first :: rest) :=
    SeqWalk.load_seq _
  obtain ⟨w, hrun, hseq⟩ := nthLoop_list (H := H) hidx 0 hstart
  rw [List.drop_eq_getElem_cons hidx] at hseq
  have hdone : ¬ w.isDone = true := by
    rw [w.isDone_iff, hseq]
    exact Option.some_ne_none _
  have hfirst : w.first = getAt (first :: rest) idx.toNat := by
    rw [SeqWalk.first_of_seq hseq, getAt_eq hidx]
    rfl
  unfold nthOf
  simp only [isSeqObject, Bool.not_true, Bool.false_eq_true, if_false, SeqWalk.start]
  rw [if_neg fun hneg => h (.inl hneg), Comp.embed_pure, pure_bind, hrun, Comp.embed_pure, pure_bind,
    if_neg hdone, hfirst]

theorem prim_nth_of_fast {i : Value ω} (h : fastIndexed H coll i = some r) :
    prim_nth H R [coll, i] = pure r := by
  cases i with
  | int idx =>
    dsimp only [fastIndexed] at h
    split at h
    · cases h
    · rename_i hsmall
      have hindex : indexArg H R (.int idx) "nth" = pure idx := by
        dsimp only [indexArg]
        rw [if_pos (by simpa using hsmall)]
      show indexArg H R (.int idx) "nth" >>= _ = _
      rw [hindex, pure_bind]
      cases coll with
      | vector items =>
        dsimp only at h
        split at h
        · cases h
        · rename_i hin
          cases h
          dsimp only [nthOf]
          rw [if_neg hin]
      | seq s =>
        cases s with
        | list first rest =>
          dsimp only at h
          split at h
          · cases h
          · rename_i hin
            cases h
            exact nthOf_list hin
        | _ => cases h
      | _ => cases h
  | _ => cases h

/-! #### `cons` and `conj` -/

theorem prim_cons_of_try (h : tryCons x coll = some r) : prim_cons H R [x, coll] = pure r := by
  unfold prim_cons
  dsimp only
  rw [h]

theorem prim_conj_of_fast (h : fastConj coll x = some r) : prim_conj H R [coll, x] = pure r := by
  cases coll with
  | nil | vector | emptyList =>
    cases h
    rfl
  | seq s =>
    cases s with
    | list first rest =>
      cases h
      rfl
    | _ => cases h
  | _ => cases h

/-! #### Every primitive -/

/-- Either the direct path answers nothing, having called nothing, or it answers what the general
path answers, both without a call. -/
def Agrees (H : Host ω) (R : Runtime ω) (fn : Primitive ω) (argv : List (Value ω))
    (mayAllocate : Bool) : Prop :=
  fastPrimitiveCall H fn argv mayAllocate = pure none ∨
    ∃ r, fastPrimitiveCall H fn argv mayAllocate = pure (some r) ∧ primitive H R fn argv = pure r

variable {fn : Primitive ω} {argv : List (Value ω)} {mayAllocate : Bool}

theorem Agrees.of_read {a : Option (Value ω)}
    (hfast : fastPrimitiveCall H fn argv mayAllocate = pure a)
    (hslow : ∀ r, a = some r → primitive H R fn argv = pure r) :
    Agrees H R fn argv mayAllocate := by
  cases a with
  | none => exact .inl hfast
  | some r => exact .inr ⟨r, hfast, hslow r rfl⟩

theorem Agrees.of_allocating {a : Option (Value ω)}
    (hfast : fastPrimitiveCall H fn argv mayAllocate = pure (if mayAllocate then a else none))
    (hslow : ∀ r, a = some r → primitive H R fn argv = pure r) :
    Agrees H R fn argv mayAllocate := by
  apply Agrees.of_read hfast
  intro r hr
  split at hr
  · exact hslow r hr
  · cases hr

theorem agrees_one (v : Value ω) : Agrees H R fn [v] mayAllocate := by
  cases fn with
  | inc => exact .of_read rfl fun _ h => stepNumber_of_fast "inc" h
  | dec => exact .of_read rfl fun _ h => stepNumber_of_fast "dec" h
  | first =>
    apply Agrees.of_read rfl
    intro r h
    exact congrArg Comp.embed (first_of_try h)
  | rest =>
    apply Agrees.of_allocating (a := tryRest v)
    · cases mayAllocate <;> rfl
    · exact fun r h => congrArg Comp.embed (rest_of_try h)
  | next =>
    apply Agrees.of_allocating (a := tryNext v)
    · cases mayAllocate
      · rfl
      · exact directNext_eq v
    · exact fun r h => congrArg Comp.embed (next_of_try h)
  | seq =>
    apply Agrees.of_allocating (a := trySeq v)
    · cases mayAllocate
      · rfl
      · exact directSeq_eq v
    · exact fun r h => congrArg Comp.embed (seq_of_try h)
  | empty_p =>
    apply Agrees.of_read rfl
    intro r h
    obtain ⟨e, he, rfl⟩ := Option.map_eq_some_iff.mp h
    show prim_empty_p H R [v] = _
    unfold prim_empty_p
    dsimp only
    rw [he]
  | count => exact .of_read rfl fun _ h => prim_count_of_fast h
  | _ => exact .inl rfl

theorem agrees_two (a b : Value ω) : Agrees H R fn [a, b] mayAllocate := by
  cases fn with
  | nth => exact .of_read rfl fun _ h => prim_nth_of_fast h
  | cons =>
    apply Agrees.of_allocating rfl
    intro r h
    show prim_cons H R [a, b] = pure r
    exact prim_cons_of_try h
  | conj =>
    apply Agrees.of_allocating rfl
    intro r h
    show prim_conj H R [a, b] = pure r
    exact prim_conj_of_fast h
  | plus => exact .of_read rfl fun _ h => prim_plus_of_fast h
  | _ => exact .inl rfl

/-- The direct call of a primitive answers what the primitive answers, and calls nothing: no
lazy seq is realised and nothing is raised. Where it does not answer it does nothing. -/
theorem fastPrimitiveCall_agrees [DecidableEq ω] (H : Host ω) (R : Runtime ω) (fn : Primitive ω)
    (argv : List (Value ω)) (mayAllocate : Bool) :
    fastPrimitiveCall H fn argv mayAllocate = pure none ∨
      ∃ r, fastPrimitiveCall H fn argv mayAllocate = pure (some r) ∧
        ∀ out, (primitive H R fn argv).Yields (primitiveProgram H).Outcome out ↔ out = .ok r := by
  have h : Agrees H R fn argv mayAllocate := by
    cases argv with
    | nil => exact .inl rfl
    | cons a rest =>
      cases rest with
      | nil => exact agrees_one a
      | cons b rest =>
        cases rest with
        | nil => exact agrees_two a b
        | cons => exact .inl rfl
  rcases h with h | ⟨r, hfast, hslow⟩
  · exact .inl h
  · refine .inr ⟨r, hfast, fun out => ?_⟩
    rw [hslow]
    exact .rfl

end
end ProtoClojure.Sequences
