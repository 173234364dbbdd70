import ProtoClojure.Runtime.Sorting

/-! Sets: objects that hold a map of each element to itself, and the primitives on them. -/

namespace ProtoClojure.Maps.Sets
open KeyedMap

/-- Computations that make objects, from the next free address on. -/
abbrev Making := Exec Nat

def newObject : Making Nat := modifyGet fun next => (next, next + 1)

def isSet : Value → Bool
  | .set .. => true
  | _ => false

section Operations
variable (P : ProtoCore)

/-- A new set that holds the elements of a map. -/
def wrap (elements : HashedMap Value Value) : Making Value := do
  let address ← newObject
  pure (.set address elements)

/-- The elements that are absent, each to be associated with itself. -/
def absentPairs (elements : Option (HashedMap Value Value)) :
    List (Option Value) → List (Option Value)
  | [] => []
  | item :: items =>
    let e := orNil item
    if (mapGet P elements (some e)).isSome then absentPairs elements items
    else some e :: some e :: absentPairs elements items

/-- An element of the base keeps its stored object; no base is the empty set. -/
def setConj (base : Option Value) (items : List (Option Value)) : Making Value :=
  let elements := base.bind Value.setElements
  let kv := absentPairs P elements items
  match base, kv with
  | some s, [] => pure s
  | _, kv => do
    let after ← raise ((mapAssocPairs P elements kv).mapError Raised.error)
    wrap after

def setDisj (s : Value) (item : Option Value) : Making Value :=
  match s.setElements with
  | none => pure s
  | some elements =>
    match mapDissoc P (some elements) (some (orNil item)) with
    | none => pure s
    | some after => if after = elements then pure s else wrap after

/-- `none` when not found. -/
def setGet (s : Value) (item : Option Value) : Option Value :=
  mapGet P s.setElements (some (orNil item))

def setCount (s : Value) : Nat := mapCount s.setElements

def setForEach {σ : Type} (s : Value) (fn : σ → Value → σ) (self : σ) : σ :=
  mapForEach s.setElements (fun self key _ => fn self key) self

end Operations

section Primitives
variable (K : Kernel)

/-- The elements gathered for a set. -/
def collectElements (coll : Value) : Result (List Value) :=
  if isSet coll then .ok (setForEach coll (fun out e => out ++ [e]) [])
  else seqToList K coll

/-- A vector of each entry, an object made by the walk. -/
def newEntries : List (Value × Value) → Making (List Value)
  | [] => pure []
  | (k, v) :: es => do
    let address ← newObject
    let xs ← newEntries es
    pure (.vector address [k, v] :: xs)

/-- The elements a walk meets, as objects: those of the collection itself, but for a map, whose
entries it makes. -/
def walked (elements : Value → Result (List Value)) (coll : Value) : Making (List Value) :=
  match coll with
  | .map m => newEntries m.entries
  | coll => raise (elements coll)

/-- A set, or nil as the empty set. -/
def setArg (who : String) (s : Value) : Result Value :=
  if s = .nil ∨ isSet s = true then .ok s
  else .error (.classed "ClassCastException" (who ++ " expects a set, got " ++ K.valueTypeName s))

def setArgs (who : String) : List Value → Result Unit
  | [] => .ok ()
  | s :: ss => do
    let _ ← setArg K who s
    setArgs who ss

/-- The elements of the sets, one after the other. -/
def collectArgs (who : String) : List Value → Result (List Value)
  | [] => .ok []
  | s :: ss => do
    let s ← setArg K who s
    let xs ← collectElements K s
    let ys ← collectArgs who ss
    pure (xs ++ ys)

def hashSet (args : List Value) : Making Value := setConj K.core none (args.map some)

def set : List Value → Making Value
  | [coll] =>
    if isSet coll then pure coll
    else do
      let items ← walked (collectElements K) coll
      setConj K.core none (items.map some)
  | _ => raise (.error (.error "set: expects 1 arg"))

def disjAll (s : Value) : List Value → Making Value
  | [] => pure s
  | x :: xs => do
    let s ← setDisj K.core s (some x)
    disjAll s xs

def disj : List Value → Making Value
  | [] => raise (.error (.error "disj: expects (disj set x ...)"))
  | s :: xs => do
    let s ← raise (setArg K "disj" s)
    if s = .nil then pure .nil else disjAll K s xs

def union : List Value → Making Value
  | [] => setConj K.core none []
  | s :: ss => do
    let first ← raise (setArg K "union" s)
    let items ← raise (collectArgs K "union" ss)
    if first = .nil then
      if ss.isEmpty then pure .nil else setConj K.core none (items.map some)
    else setConj K.core (some first) (items.map some)

/-- The first set itself when it keeps all its elements. -/
def keep (first : Value) (items kept : List Value) : Making Value :=
  if kept.length = items.length then pure first else setConj K.core none (kept.map some)

def intersection : List Value → Making Value
  | [] => raise (.error (.error "intersection: expects at least 1 set"))
  | s :: ss => do
    let first ← raise (setArg K "intersection" s)
    if ss.isEmpty then pure first
    else do
      raise (setArgs K "intersection" ss)
      let items ← raise (collectElements K first)
      keep K first items (items.filter fun e => ss.all fun s => (setGet K.core s (some e)).isSome)

def difference : List Value → Making Value
  | [] => raise (.error (.error "difference: expects at least 1 set"))
  | s :: ss => do
    let first ← raise (setArg K "difference" s)
    raise (setArgs K "difference" ss)
    if ss.isEmpty || first = .nil then pure first
    else do
      let items ← raise (collectElements K first)
      keep K first items
        (items.filter fun e => !ss.any fun s => (setGet K.core s (some e)).isSome)

def isSubset (a b : Value) : Result Bool := do
  let items ← collectElements K a
  pure (items.all fun e => (setGet K.core b (some e)).isSome)

def subset : List Value → Result Value
  | [a, b] => do
    let a ← setArg K "subset?" a
    let b ← setArg K "subset?" b
    let r ← isSubset K a b
    pure (fromBool r)
  | _ => .error (.error "subset?: expects 2 sets")

def superset : List Value → Result Value
  | [a, b] => do
    let b ← setArg K "superset?" b
    let a ← setArg K "superset?" a
    let r ← isSubset K b a
    pure (fromBool r)
  | _ => .error (.error "superset?: expects 2 sets")

/-- What `conj` adds to a map: the entries of a map, a pair, nothing for nil. -/
def entriesOf : Value → Result (List (Option Value))
  | .map m => .ok (m.entries.flatMap fun e => [some e.1, some e.2])
  | .vector _ [k, v] => .ok [some k, some v]
  | .embedded .nil => .ok []
  | _ => .error (.error "IllegalArgumentException: Vector arg to map conj must be a pair")

def conjEntries : List Value → Result (List (Option Value))
  | [] => .ok []
  | x :: xs => do
    let kv ← entriesOf x
    let kvs ← conjEntries xs
    pure (kv ++ kvs)

def conjList (coll : Value) (items : List Value) : List Value → Making Value
  | [] => pure coll
  | x :: xs => do
    let address ← newObject
    conjList (.list address (x :: items)) (x :: items) xs

def conjSeq (coll : Value) : List Value → Making Value
  | [] => pure coll
  | x :: xs => do
    let address ← newObject
    conjSeq (.cons address x coll) xs

/-- Each argument where the collection grows; nil is the empty list. -/
def conj : List Value → Making Value
  | [] => do
    let address ← newObject
    pure (.vector address [])
  | [coll] => pure coll
  | coll :: xs =>
    match coll with
    | .map m => do
      let kv ← raise (conjEntries xs)
      let after ← raise ((mapAssocPairs K.core (some m) kv).mapError Raised.error)
      pure (.map after)
    | .set .. => setConj K.core (some coll) (xs.map some)
    | .vector _ items => do
      let address ← newObject
      pure (.vector address (items ++ xs))
    | .embedded .nil => conjList (.list 0 []) [] xs
    | .list _ items => conjList coll items xs
    | .lazy .. | .cons .. | .chunk .. => conjSeq coll xs
    | .string .. | .double .. | .largeInteger .. | .identity .. | .protoList .. | .embedded _ =>
      raise (.error (.error
        ("ClassCastException: conj expects a collection, got " ++ K.valueTypeName coll)))

/-- `(reduce conj to from)` -/
def into (target source : Value) : Making Value := do
  let items ← walked (seqToList K) source
  items.foldlM (fun acc x => conj K [acc, x]) target

def count : List Value → Result Nat
  | [v] =>
    match v with
    | .embedded .nil => .ok 0
    | .string _ _ text => .ok text.length
    | .map m => .ok (mapCount (some m))
    | .set .. => .ok (setCount v)
    | _ => do
      let items ← seqToList K v
      pure items.length
  | _ => .error (.error "count: expects 1 arg")

/-- An element equal to one before it. -/
def firstDuplicate (before : List Value) : List Value → Option Value
  | [] => none
  | x :: xs =>
    if before.any fun y => keyEquals K.core y x then some x else firstDuplicate (before ++ [x]) xs

/-- A set literal, of the forms the reader read. -/
def readSet (describeKey : Value → String) (items : List Value) : Making Value := do
  let s ← setConj K.core none (items.map some)
  if setCount s = items.length then pure s
  else
    match firstDuplicate K [] items with
    | none => pure s
    | some x => raise (.error (.error ("Duplicate key: " ++ describeKey x)))

end Primitives
end ProtoClojure.Maps.Sets
