import ProtoClojure.Sequences.Value

/-! The seq protocol: `seqOf`, the direct reads that realise nothing, the cursor, and the
functions that read a whole sequence. -/
namespace ProtoClojure.Sequences
open Recursion

variable {ω : Type}

/-! ### Elements of other collections -/

/-- Bytes of the character a lead byte starts, one for a byte that starts none. -/
def charLength (lead : UInt8) : Nat :=
  if lead < 0x80 then 1
  else if lead >>> 5 = 0x6 then 2
  else if lead >>> 4 = 0xE then 3
  else if lead >>> 3 = 0x1E then 4
  else 1

def splitChars : List UInt8 → List (List UInt8)
  | [] => []
  | lead :: rest =>
    (lead :: rest.take (charLength lead - 1)) :: splitChars (rest.drop (charLength lead - 1))
termination_by utf8 => utf8.length
decreasing_by
  rw [List.length_drop, List.length_cons]
  omega

/-- A map's entries, a set's elements, a string's characters. -/
def collectionItems : Value ω → Option (List (Value ω))
  | .map entries => some (entries.map fun e => .vector [e.1, e.2])
  | .set elements => some elements
  | .string utf8 => some ((splitChars utf8).map .string)
  | _ => none

/-! ### `seqOf`, `seqFirst`, `seqMore` -/

/-- The chunk over all the items, nil when there is none. -/
def newChunk (items : List (Value ω)) (chunked : Bool) (more : Value ω) : Option (Node ω) :=
  if h : items.length = 0 then none
  else some (.chunk (.of items 0 items.length ⟨Nat.pos_of_ne_zero h, Nat.le_refl _⟩) chunked more)

section
variable (H : Host ω)

def notSeqable {α : Type} (v : Value ω) : Run ω α :=
  .throw (.illegalArgument ("Don't know how to create ISeq from: " ++ H.typeName v))

def seqOf (v : Value ω) : Run ω (Option (Node ω)) :=
  match v with
  | .nil => pure none
  | .vector items => pure (newChunk items true .nil)
  | .lazy thunk => realizeLazy thunk
  | .realized s => pure s
  | .seq s => pure (some s)
  | .emptyList => pure none
  | v =>
    match collectionItems v with
    | some items => pure (newChunk items false .nil)
    | none => notSeqable H v

end

def seqFirst : Node ω → Value ω
  | .list first _ => first
  | .cons first _ => first
  | .chunk c _ _ => getAt c.items c.off

def seqMore : Node ω → Value ω
  | .list _ rest => .ofList rest
  | .cons _ more => more.orEmpty
  | .chunk c chunked more =>
    if h : c.off + 1 < c.stop then
      .seq (.chunk (.of c.items (c.off + 1) c.stop ⟨h, c.stop_le⟩) chunked more)
    else more.orEmpty

/-! ### Direct reads -/

/-- A value the fast path does not read answers `none`. -/
def tryFirst : Value ω → Option (Value ω)
  | .nil => some .nil
  | .vector items => some (if items.length = 0 then .nil else getAt items 0)
  | .seq (.list first _) => some first
  | .seq (.cons first _) => some first
  | .emptyList => some .nil
  | .seq (.chunk c _ _) => some (getAt c.items c.off)
  | _ => none

/-- The chunk over a vector's elements after the first. -/
def vectorRest (items : List (Value ω)) (none : Value ω) : Value ω :=
  if h : items.length ≤ 1 then none
  else .seq (.chunk (.of items 1 items.length ⟨by omega, Nat.le_refl _⟩) true .nil)

def tryRest : Value ω → Option (Value ω)
  | .nil => some .emptyList
  | .vector items => some (vectorRest items .emptyList)
  | .seq (.list _ rest) => some (.ofList rest)
  | .emptyList => some .emptyList
  | .seq (.cons first more) => some (seqMore (.cons first more))
  | .seq (.chunk c chunked more) => some (seqMore (.chunk c chunked more))
  | _ => none

def trySeq : Value ω → Option (Value ω)
  | .nil => some .nil
  | .vector items => some (.ofSeq (newChunk items true .nil))
  | .seq s => some (.seq s)
  | .emptyList => some .nil
  | _ => none

def tryNext : Value ω → Option (Value ω)
  | .nil => some .nil
  | .vector items => some (vectorRest items .nil)
  | .seq (.list _ rest) => some (if rest.length + 1 = 1 then .nil else .ofList rest)
  | .emptyList => some .nil
  | .seq (.cons _ more) => trySeq more
  | .seq (.chunk c chunked more) =>
    if h : c.off + 1 < c.stop then
      some (.seq (.chunk (.of c.items (c.off + 1) c.stop ⟨h, c.stop_le⟩) chunked more))
    else trySeq more
  | _ => none

/-- `n` elements are counted; the value is what follows them. -/
def tryCountFrom (n : Nat) : Value ω → Option Nat
  | .nil => some n
  | .vector items => some (n + items.length)
  | .seq (.list _ rest) => some (n + (rest.length + 1))
  | .emptyList => some (n + 0)
  | .seq (.cons _ more) => tryCountFrom (n + 1) more
  | .seq (.chunk c _ more) => tryCountFrom (n + (c.stop - c.off)) more
  | _ => none

def tryCount (v : Value ω) : Option Nat := tryCountFrom 0 v

section
variable (H : Host ω)

/-! `first`, `rest`, `next` and `seq`: the direct read, else through `seqOf`. -/

def first (v : Value ω) : Run ω (Value ω) :=
  match tryFirst v with
  | some r => pure r
  | none => do
    match ← seqOf H v with
    | none => return .nil
    | some s => return seqFirst s

def rest (v : Value ω) : Run ω (Value ω) :=
  match tryRest v with
  | some r => pure r
  | none => do
    match ← seqOf H v with
    | none => return .emptyList
    | some s => return seqMore s

def next (v : Value ω) : Run ω (Value ω) :=
  match tryNext v with
  | some r => pure r
  | none => do
    match ← seqOf H v with
    | none => return .nil
    | some s => return .ofSeq (← seqOf H (seqMore s))

def seq (v : Value ω) : Run ω (Value ω) := do return .ofSeq (← seqOf H v)

end

/-! ### The cursor -/

namespace SeqWalk

def load : Option (Node ω) → SeqWalk ω
  | none => .done
  | some (.cons first more) => .cons first more
  | some (.list first rest) => .list first rest 0 (listHeadCount_pos _)
  | some (.chunk c chunked more) => .chunk c chunked more c.off ⟨Nat.le_refl _, c.off_lt_stop⟩

def isDone : SeqWalk ω → Bool
  | .done => true
  | _ => false

/-- Meaningless once the walk is done. -/
def first : SeqWalk ω → Value ω
  | .done => .nil
  | .cons first _ => first
  | .list first rest i _ => getAt (first :: rest) i
  | .chunk c _ _ i _ => getAt c.items i

def remaining : SeqWalk ω → Value ω
  | .done => .nil
  | .cons first more => .seq (.cons first more)
  | .list first rest i _ =>
    if i = 0 then .seq (.list first rest) else .ofList ((first :: rest).drop i)
  | .chunk c chunked more i h =>
    if i = c.off then .seq (.chunk c chunked more)
    else .seq (.chunk (.of c.items i c.stop ⟨h.2, c.stop_le⟩) chunked more)

/-- The elements from here on, when they are counted without walking. -/
def counted : SeqWalk ω → Option Nat
  | .done => some 0
  | .cons .. => none
  | .list _ rest i _ => some (rest.length + 1 - i)
  | .chunk c _ more i _ => match more with
    | .nil => some (c.stop - i)
    | _ => none

variable (H : Host ω)

def start (coll : Value ω) : Run ω (SeqWalk ω) :=
  match coll with
  | .seq s => pure (load (some s))
  | .emptyList => pure (load none)
  | coll => load <$> seqOf H coll

/-- Past the last element of a node. -/
def moveTo (more : Value ω) : Run ω (SeqWalk ω) :=
  match more with
  | .nil | .emptyList => pure .done
  | .seq s => pure (load (some s))
  | more => load <$> seqOf H more

def advance (w : SeqWalk ω) : Run ω (SeqWalk ω) :=
  match w with
  | .done => pure .done
  | .cons _ more => moveTo H more
  | .list first rest i _ =>
    if h : i + 1 < listHeadCount (rest.length + 1) then pure (.list first rest (i + 1) h)
    else moveTo H (.ofList ((first :: rest).drop (listHeadCount (rest.length + 1))))
  | .chunk c chunked more i hi =>
    if h : i + 1 < c.stop then
      pure (.chunk c chunked more (i + 1) ⟨Nat.le_succ_of_le hi.1, h⟩)
    else moveTo H more

end SeqWalk

/-! ### Whole sequences -/

section
variable (H : Host ω)

def toListLoopBody (acc : List (Value ω)) (w : SeqWalk ω) : Run ω (List (Value ω)) :=
  if w.isDone then pure acc
  else do
    let w' ← w.advance H
    .ask (Call.toListLoop (acc ++ [w.first]) w')

/-- nullptr for no element. -/
def nonEmpty (items : List (Value ω)) : Option (List (Value ω)) :=
  if items.length = 0 then none else some items

def walkToList (v : Value ω) : Run ω (Option (List (Value ω))) := do
  let w ← SeqWalk.start H v
  let acc ← .ask (Call.toListLoop [] w)
  return nonEmpty acc

def seqToList (v : Value ω) : Run ω (Option (List (Value ω))) :=
  match v with
  | .nil => pure none
  | .vector items => pure (nonEmpty items)
  | .emptyList => pure none
  | .seq (.list first rest) => pure (some (first :: rest))
  | .seq s => walkToList H (.seq s)
  | .lazy thunk => walkToList H (.lazy thunk)
  | .realized s => walkToList H (.realized s)
  | v =>
    match collectionItems v with
    | some items => pure (nonEmpty items)
    | none => notSeqable H v

/-- nullptr for nil only. -/
def asSeqOrNull (v : Value ω) : Run ω (Option (List (Value ω))) :=
  match v with
  | .nil => pure none
  | .vector items => pure (some items)
  | .emptyList => (fun l => some (l.getD [])) <$> seqToList H .emptyList
  | .seq s => (fun l => some (l.getD [])) <$> seqToList H (.seq s)
  | .lazy thunk => (fun l => some (l.getD [])) <$> seqToList H (.lazy thunk)
  | .realized s => (fun l => some (l.getD [])) <$> seqToList H (.realized s)
  | v =>
    match collectionItems v with
    | some items => pure (some items)
    | none => notSeqable H v

/-! #### `reduce` -/

/-- The calls `(f acc x)` for the elements at the indices. -/
def reduceIndices (f : Value ω) (items : List (Value ω)) (acc : Value ω) (is : List Nat) :
    Run ω (Value ω) :=
  is.foldlM (fun acc i => invoke f [acc, getAt items i]) acc

/-- Along a list's cells, from position `i` of the head cell. -/
def reduceCells (f : Value ω) (p : List (Value ω)) (acc : Value ω) (i : Nat) : Run ω (Value ω) :=
  if _h : p.length = 0 then pure acc
  else do
    let head := listHeadCount p.length
    let acc ← reduceIndices f p acc (List.range' i (head - i))
    reduceCells f (p.drop head) acc 0
termination_by p.length
decreasing_by
  have := listHeadCount_pos p.length
  rw [List.length_drop]
  omega

def reduceList (f : Value ω) (init : Option (Value ω)) (p : List (Value ω)) : Run ω (Value ω) :=
  match init with
  | some acc => reduceCells f p acc 0
  | none => if p.length = 0 then invoke f [] else reduceCells f p (getAt p 0) 1

def reduceLoopBody (f acc : Value ω) (w : SeqWalk ω) : Run ω (Value ω) :=
  if w.isDone then pure acc
  else do
    let acc ← invoke f [acc, w.first]
    let w' ← w.advance H
    .ask (Call.reduceLoop f acc w')

def reduceWalk (f : Value ω) (init : Option (Value ω)) (coll : Value ω) : Run ω (Value ω) := do
  let w ← SeqWalk.start H coll
  match init with
  | some acc => .ask (Call.reduceLoop f acc w)
  | none =>
    if w.isDone then invoke f []
    else do
      let w' ← w.advance H
      .ask (Call.reduceLoop f w.first w')

def reduceItems (f : Value ω) (init : Option (Value ω)) (coll : Value ω) : Run ω (Value ω) := do
  let items := (← asSeqOrNull H coll).getD []
  match init with
  | some acc => reduceIndices f items acc (List.range' 0 items.length)
  | none =>
    if items.length = 0 then invoke f []
    else reduceIndices f items (getAt items 0) (List.range' 1 (items.length - 1))

/-- `(reduce f coll)` and `(reduce f init coll)`. -/
def reduce (f : Value ω) (init : Option (Value ω)) (coll : Value ω) : Run ω (Value ω) :=
  match coll with
  | .emptyList => reduceList f init []
  | .seq (.list first rest) => reduceList f init (first :: rest)
  | .seq s => reduceWalk H f init (.seq s)
  | .lazy thunk => reduceWalk H f init (.lazy thunk)
  | .realized s => reduceWalk H f init (.realized s)
  | coll => reduceItems H f init coll

end
end ProtoClojure.Sequences
