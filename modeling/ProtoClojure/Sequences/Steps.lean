import ProtoClojure.Sequences.Protocol

/-! The native steps of lazy seqs, and the program that realises them. -/
namespace ProtoClojure.Sequences
open Recursion KeyedMap

variable {ω : Type}

/-! ### Shared pieces -/

/-- The elements a loop over the indices `[start, stop)` reads. -/
def slice (c : Chunk (Value ω)) (start stop : Nat) : List (Value ω) :=
  (List.range' start (stop - start)).map (getAt c.items)

def kChunk : Nat := 32

/-- Where a chunked step stops: 32 elements on, or at the chunk's end. -/
def sliceStop (c : Chunk (Value ω)) : Nat := min c.stop (c.off + kChunk)

/-- What follows the slice, unrealised. -/
def sliceAfter (c : Chunk (Value ω)) (more : Value ω) : Value ω :=
  if h : sliceStop c < c.stop then
    .seq (.chunk (.of c.items (sliceStop c) c.stop ⟨h, c.stop_le⟩) true more)
  else more

/-- The step again over what is left, nil when nothing is. -/
def lazyUnlessNil (after : Value ω) (step : Value ω → Thunk ω) : Value ω :=
  match after with
  | .nil => .nil
  | after => .lazy (step after)

theorem lazyUnlessNil_cases (after : Value ω) (f : Value ω → Thunk ω) :
    after = .nil ∧ lazyUnlessNil after f = .nil ∨ lazyUnlessNil after f = .lazy (f after) := by
  cases after with
  | nil => exact .inl ⟨rfl, rfl⟩
  | _ => exact .inr rfl

/-- Concat's step for a non-empty seq, keeping a chunk a chunk. -/
def prependSeq (s : Node ω) (restColls : Value ω) : Node ω :=
  match restColls with
  | .nil | .emptyList => s
  | restColls =>
    match s with
    | .chunk c chunked more => .chunk c chunked (.lazy (.concat more restColls))
    | .list first rest => .cons first (.lazy (.concat (.ofList rest) restColls))
    | .cons first more => .cons first (.lazy (.concat more restColls))

variable (H : Host ω)

/-- The first elements of the collections and what follows them, unless one has ended. -/
def readHeads : List (Value ω) → Run ω (Option (List (Value ω) × List (Value ω)))
  | [] => pure (some ([], []))
  | coll :: colls => do
    match ← seqOf H coll with
    | none => return none
    | some s =>
      match ← readHeads colls with
      | none => return none
      | some (firsts, rests) => return some (seqFirst s :: firsts, seqMore s :: rests)

/-- At most `n` steps on. -/
def skip : Nat → SeqWalk ω → Run ω (SeqWalk ω)
  | 0, w => pure w
  | n + 1, w => if w.isDone then pure w else do skip n (← w.advance H)

/-- At most `n` elements. -/
def collect : Nat → SeqWalk ω → Run ω (List (Value ω))
  | 0, _ => pure []
  | n + 1, w =>
    if w.isDone then pure []
    else do
      let w' ← w.advance H
      return w.first :: (← collect n w')

/-! ### map, filter -/

def stepMap1 (f coll : Value ω) : Run ω (Option (Node ω)) := do
  match ← seqOf H coll with
  | none => return none
  | some (.chunk c true more) =>
    let out ← (slice c c.off (sliceStop c)).mapM fun x => invoke f [x]
    return newChunk out true (lazyUnlessNil (sliceAfter c more) fun after => .map1 f after)
  | some s =>
    let y ← invoke f [seqFirst s]
    return some (.cons y (.lazy (.map1 f (seqMore s))))

def stepMapN (f : Value ω) (colls : List (Value ω)) : Run ω (Option (Node ω)) := do
  match ← readHeads H colls with
  | none => return none
  | some (firsts, rests) =>
    let y ← invoke f firsts
    return some (.cons y (.lazy (.mapN f rests)))

/-- The elements kept of those read. -/
def keep (pred : Value ω) (negate : Bool) : List (Value ω) → Run ω (List (Value ω))
  | [] => pure []
  | x :: xs => do
    let r ← invoke pred [x]
    let kept ← keep pred negate xs
    return if r.truthy != negate then x :: kept else kept

def filterLoopBody (pred : Value ω) (negate : Bool) (src : Option (Node ω)) :
    Run ω (Option (Node ω)) :=
  match src with
  | none => pure none
  | some (.chunk c true more) => do
    let out ← keep pred negate (slice c c.off (sliceStop c))
    if out.length = 0 then
      let src ← seqOf H (sliceAfter c more)
      .ask (Call.filterLoop pred negate src)
    else
      return newChunk out true
        (lazyUnlessNil (sliceAfter c more) fun after => .filter pred after negate)
  | some s => do
    let r ← invoke pred [seqFirst s]
    if r.truthy != negate then
      return some (.cons (seqFirst s) (.lazy (.filter pred (seqMore s) negate)))
    else
      let src ← seqOf H (seqMore s)
      .ask (Call.filterLoop pred negate src)

def stepFilter (pred coll : Value ω) (negate : Bool) : Run ω (Option (Node ω)) := do
  let src ← seqOf H coll
  .ask (Call.filterLoop pred negate src)

/-! ### take, drop -/

def stepTake (n : Int) (coll : Value ω) : Run ω (Option (Node ω)) := do
  if n ≤ 0 then return none
  match ← seqOf H coll with
  | none => return none
  | some s =>
    if n = 1 then return some (.cons (seqFirst s) .nil)
    return some (.cons (seqFirst s) (.lazy (.take (n - 1) (seqMore s))))

def stepTakeWhile (pred coll : Value ω) : Run ω (Option (Node ω)) := do
  match ← seqOf H coll with
  | none => return none
  | some s =>
    let r ← invoke pred [seqFirst s]
    if r.truthy then return some (.cons (seqFirst s) (.lazy (.takeWhile pred (seqMore s))))
    else return none

def stepDrop (n : Int) (coll : Value ω) : Run ω (Option (Node ω)) := do
  let w ← SeqWalk.start H coll
  let w ← skip H n.toNat w
  if w.isDone then return none
  else seqOf H w.remaining

def dropWhileLoopBody (pred : Value ω) (w : SeqWalk ω) : Run ω (Option (Node ω)) :=
  if w.isDone then pure none
  else do
    let r ← invoke pred [w.first]
    if r.truthy then
      let w' ← w.advance H
      .ask (Call.dropWhileLoop pred w')
    else seqOf H w.remaining

def stepDropWhile (pred coll : Value ω) : Run ω (Option (Node ω)) := do
  let w ← SeqWalk.start H coll
  .ask (Call.dropWhileLoop pred w)

/-! ### Endless sequences -/

def stepIterate (f x : Value ω) : Run ω (Option (Node ω)) :=
  pure (some (.cons x (.lazy (.iterateNext f x))))

def stepIterateNext (f x : Value ω) : Run ω (Option (Node ω)) := do
  let y ← invoke f [x]
  return some (.cons y (.lazy (.iterateNext f y)))

/-- Without a count the seq is its own rest. -/
def stepRepeat (x : Value ω) (n : Option Int) : Run ω (Option (Node ω)) :=
  match n with
  | none => pure (some (.cons x (.lazy (.repeated x none))))
  | some n =>
    if n ≤ 0 then pure none
    else if n = 1 then pure (some (.cons x .nil))
    else pure (some (.cons x (.lazy (.repeated x (some (n - 1))))))

def stepRepeatedly (f : Value ω) (n : Option Int) : Run ω (Option (Node ω)) :=
  match n with
  | none => do
    let y ← invoke f []
    return some (.cons y (.lazy (.repeatedly f none)))
  | some n =>
    if n ≤ 0 then pure none
    else do
      let y ← invoke f []
      if n = 1 then return some (.cons y .nil)
      return some (.cons y (.lazy (.repeatedly f (some (n - 1)))))

/-- `turn` is where this turn is, nil before the first. -/
def stepCycle (coll turn : Value ω) : Run ω (Option (Node ω)) := do
  let s ← seqOf H turn
  let s ← match s with
    | none => seqOf H coll
    | some s => pure (some s)
  match s with
  | none => return none
  | some s => return some (.cons (seqFirst s) (.lazy (.cycle coll (seqMore s))))

/-! ### range -/

/-- Is `x` before the end, in the direction of the step? -/
def beforeEnd (stop step x : Int) : Bool := if step > 0 then x < stop else x > stop

/-- At most `k` numbers from `x` on and the number after them, in tagged integers: the loop
ends early where the next number is none. -/
def rangeSmall (stop step : Int) : Nat → Int → List Int × Int
  | 0, x => ([], x)
  | k + 1, x =>
    if beforeEnd stop step x then
      if H.isSmallInt (x + step) then
        let r := rangeSmall stop step k (x + step)
        (x :: r.1, r.2)
      else ([x], x + step)
    else ([], x)

def rangeLarge (stop step : Int) : Nat → Int → List Int × Int
  | 0, x => ([], x)
  | k + 1, x =>
    if beforeEnd stop step x then
      let r := rangeLarge stop step k (x + step)
      (x :: r.1, r.2)
    else ([], x)

def stepRange (start stop step : Int) : Run ω (Option (Node ω)) :=
  let r :=
    if H.isSmallInt start && H.isSmallInt stop && H.isSmallInt step then
      rangeSmall H stop step kChunk start
    else rangeLarge stop step kChunk start
  pure (newChunk (r.1.map .int) true
    (if beforeEnd stop step r.2 then .lazy (.range r.2 stop step) else .nil))

def stepRangeInf (start step : Int) : Run ω (Option (Node ω)) :=
  pure (some (.cons (.int start) (.lazy (.rangeInf (start + step) step))))

/-! ### concat, partition, interleave -/

def concatLoopBody (s : Option (Node ω)) (restColls : Value ω) : Run ω (Option (Node ω)) :=
  match s with
  | some s => pure (some (prependSeq s restColls))
  | none => do
    match ← seqOf H restColls with
    | none => return none
    | some colls =>
      let s ← seqOf H (seqFirst colls)
      .ask (Call.concatLoop s (seqMore colls))

def stepConcat (coll restColls : Value ω) : Run ω (Option (Node ω)) := do
  let s ← seqOf H coll
  .ask (Call.concatLoop s restColls)

def stepPartition (n step : Int) (pad : Value ω) (mode : PartitionMode) (coll : Value ω) :
    Run ω (Option (Node ω)) := do
  match ← seqOf H coll with
  | none => return none
  | some s =>
    let w ← SeqWalk.start H (.seq s)
    let items ← collect H n.toNat w
    if (items.length : Int) < n then
      match mode with
      | .partition => return none
      | .padded =>
        let w ← SeqWalk.start H pad
        let padding ← collect H (n.toNat - items.length) w
        return some (.cons (.ofList (items ++ padding)) .nil)
      | .all =>
        if items.length = 0 then return none
        return some (.cons (.ofList items) .nil)
    else
      let w ← SeqWalk.start H (.seq s)
      let w ← skip H step.toNat w
      let after := if w.isDone then .nil else w.remaining
      return some (.cons (.ofList items)
        (lazyUnlessNil after fun after => .partition n step pad mode after))

def stepInterleave (colls : List (Value ω)) : Run ω (Option (Node ω)) := do
  if colls.length = 0 then return none
  match ← readHeads H colls with
  | none => return none
  | some (firsts, rests) => return newChunk firsts false (.lazy (.interleave rests))

/-! ### for, distinct -/

/-- The marker is an interned symbol, told apart by identity. -/
def isStop [DecidableEq ω] (stop : ω) : Value ω → Bool
  | .object o [] => o = stop
  | _ => false

section
variable [DecidableEq ω]

/-- What the body answers for the elements read, and whether it stopped. -/
def forSlice (body : Value ω) (stop : ω) : List (Value ω) → Run ω (List (Value ω) × Bool)
  | [] => pure ([], false)
  | x :: xs => do
    let r ← invoke body [x]
    if isStop stop r then return ([], true)
    let items ← seqToList H r
    let (out, stopped) ← forSlice body stop xs
    return (items.getD [] ++ out, stopped)

/-- An element, and the body's seq put in front of what is left. -/
def forElement (body : Value ω) (stop : ω) (inner : Bool) (s : Node ω) :
    Run ω (Option (Node ω)) := do
  let r ← invoke body [seqFirst s]
  if isStop stop r then return none
  match ← seqOf H r with
  | some items =>
    return some (prependSeq items (.ofList [.lazy (.forStep (seqMore s) body stop inner)]))
  | none =>
    let src ← seqOf H (seqMore s)
    .ask (Call.forLoop body stop inner src)

def forLoopBody (body : Value ω) (stop : ω) (inner : Bool) (src : Option (Node ω)) :
    Run ω (Option (Node ω)) :=
  match src with
  | none => pure none
  | some (.chunk c true more) =>
    if inner then do
      let (out, stopped) ← forSlice H body stop (slice c c.off (sliceStop c))
      let after := if stopped then .nil else sliceAfter c more
      if out.length = 0 then
        if stopped then return none
        let src ← seqOf H after
        .ask (Call.forLoop body stop inner src)
      else
        return newChunk out true (lazyUnlessNil after fun after => .forStep after body stop inner)
    else forElement H body stop inner (.chunk c true more)
  | some s => forElement H body stop inner s

def stepFor (coll body : Value ω) (stop : ω) (inner : Bool) : Run ω (Option (Node ω)) := do
  let src ← seqOf H coll
  .ask (Call.forLoop body stop inner src)

end

def distinctLoopBody (s : Option (Node ω)) (seen : HashedMap (Value ω) (Value ω)) :
    Run ω (Option (Node ω)) :=
  match s with
  | none => pure none
  | some s =>
    let x := seqFirst s
    if (H.helper.hashedGet H.keys seen x).isSome then do
      let s ← seqOf H (seqMore s)
      .ask (Call.distinctLoop s seen)
    else
      pure (some (.cons x
        (.lazy (.distinct (seqMore s) (some (H.helper.hashedPut H.keys seen x x))))))

def stepDistinct (coll : Value ω) (seen : Option (HashedMap (Value ω) (Value ω))) :
    Run ω (Option (Node ω)) := do
  let s ← seqOf H coll
  .ask (Call.distinctLoop s (seen.getD H.helper.newMap))

/-! ### Realisation -/

section
variable [DecidableEq ω]

def runThunk (thunk : Thunk ω) : Run ω (Option (Node ω)) :=
  match thunk with
  | .fn f => do seqOf H (← invoke f [])
  | .map1 f coll => stepMap1 H f coll
  | .mapN f colls => stepMapN H f colls
  | .filter pred coll negate => stepFilter H pred coll negate
  | .take n coll => stepTake H n coll
  | .takeWhile pred coll => stepTakeWhile H pred coll
  | .drop n coll => stepDrop H n coll
  | .dropWhile pred coll => stepDropWhile H pred coll
  | .iterate f x => stepIterate f x
  | .iterateNext f x => stepIterateNext f x
  | .repeated x n => stepRepeat x n
  | .repeatedly f n => stepRepeatedly f n
  | .cycle coll turn => stepCycle H coll turn
  | .range next stop step => stepRange H next stop step
  | .rangeInf next step => stepRangeInf next step
  | .concat coll restColls => stepConcat H coll restColls
  | .partition n step pad mode coll => stepPartition H n step pad mode coll
  | .interleave colls => stepInterleave H colls
  | .forStep coll body stop inner => stepFor H coll body stop inner
  | .distinct coll seen => stepDistinct H coll seen

/-- A function that never returns is a call that answers nothing. -/
def callFunction (f : Value ω) (args : List (Value ω)) : Run ω (Value ω) :=
  match H.invoke f args with
  | some (.ok v) => pure v
  | some (.error e) => .throw e
  | none => invoke f args

def program : Program (Call ω) Answer (Raised ω)
  | .realizeLazy thunk => runThunk H thunk
  | .invoke f args => callFunction H f args
  | .filterLoop pred negate src => filterLoopBody H pred negate src
  | .dropWhileLoop pred w => dropWhileLoopBody H pred w
  | .concatLoop s restColls => concatLoopBody H s restColls
  | .forLoop body stop inner src => forLoopBody H body stop inner src
  | .distinctLoop s seen => distinctLoopBody H s seen
  | .toListLoop acc w => toListLoopBody H acc w
  | .reduceLoop f acc w => reduceLoopBody H f acc w

end
end ProtoClojure.Sequences
