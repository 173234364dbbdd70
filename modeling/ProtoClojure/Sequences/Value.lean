import ProtoClojure.Collections.KeyedMap
import ProtoClojure.Recursion.Calls
import Mathlib.Data.List.Basic

/-! Sequence values: lists, conses, chunks and lazy seqs with the step that computes them,
and the procedures whose calls and loops make the seq functions recursive. -/
namespace ProtoClojure.Sequences
open KeyedMap Recursion

/-- The elements `[off, stop)` of a list, at least one. -/
structure Chunk (α : Type) where
  passed : List α        -- before `off`
  first : α
  rest : List α
  beyond : List α        -- from `stop` on

namespace Chunk
variable {α : Type} (c : Chunk α)

def items : List α := c.passed ++ c.first :: (c.rest ++ c.beyond)
def off : Nat := c.passed.length
def stop : Nat := c.passed.length + (c.rest.length + 1)

/-- What a walk of the chunk meets. -/
def elements : List α := c.first :: c.rest

def of (items : List α) (off stop : Nat) (h : off < stop ∧ stop ≤ items.length) : Chunk α where
  passed := items.take off
  first := items.get ⟨off, Nat.lt_of_lt_of_le h.1 h.2⟩
  rest := (items.drop (off + 1)).take (stop - (off + 1))
  beyond := items.drop stop

theorem off_lt_stop : c.off < c.stop := by
  unfold off stop
  omega

theorem stop_le : c.stop ≤ c.items.length := by
  simp only [stop, items, List.length_append, List.length_cons]
  omega

theorem length_elements : c.elements.length = c.stop - c.off := by
  simp only [elements, stop, off, List.length_cons]
  omega

theorem elements_eq : c.elements = (c.items.drop c.off).take (c.stop - c.off) := by
  have hlen := c.length_elements
  have hdrop : c.items.drop c.off = c.elements ++ c.beyond := by
    simp [items, off, elements]
  rw [hdrop, ← hlen, List.take_left']
  rfl

theorem elements_drop (j : Nat) :
    c.elements.drop j = (c.items.drop (c.off + j)).take (c.stop - (c.off + j)) := by
  rw [elements_eq, List.drop_take, List.drop_drop]
  congr 1
  omega

theorem get_elements {j : Nat} (hj : j < c.elements.length) :
    c.items[c.off + j]? = c.elements[j]? := by
  have hlen := c.length_elements
  rw [elements_eq, List.getElem?_take_of_lt (by omega), List.getElem?_drop]

section Of
variable {items : List α} {off stop : Nat} (h : off < stop ∧ stop ≤ items.length)

@[simp] theorem of_off : (of items off stop h).off = off := by
  simp only [Chunk.off, of, List.length_take]
  omega

@[simp] theorem of_stop : (of items off stop h).stop = stop := by
  simp only [Chunk.stop, of, List.length_take, List.length_drop]
  omega

theorem of_elements : (of items off stop h).elements = (items.drop off).take (stop - off) := by
  have hoff : off < items.length := Nat.lt_of_lt_of_le h.1 h.2
  have hstop : stop - off = (stop - (off + 1)) + 1 := by omega
  rw [List.drop_eq_getElem_cons hoff, hstop, List.take_succ_cons]
  rfl

@[simp] theorem of_items : (of items off stop h).items = items := by
  have hoff : off < items.length := Nat.lt_of_lt_of_le h.1 h.2
  have hrest : (items.drop (off + 1)).take (stop - (off + 1)) ++ items.drop stop =
      items.drop (off + 1) := by
    have hdrop : items.drop stop = (items.drop (off + 1)).drop (stop - (off + 1)) := by
      rw [List.drop_drop]
      congr 1
      omega
    rw [hdrop, List.take_append_drop]
  show items.take off ++ items[off] ::
    ((items.drop (off + 1)).take (stop - (off + 1)) ++ items.drop stop) = items
  rw [hrest, ← List.drop_eq_getElem_cons hoff, List.take_append_drop]

end Of

theorem of_self (h : c.off < c.stop ∧ c.stop ≤ c.items.length) :
    of c.items c.off c.stop h = c := by
  obtain ⟨passed, first, rest, beyond⟩ := c
  have hdrop : ∀ n, (passed ++ first :: (rest ++ beyond)).drop (passed.length + (n + 1)) =
      (rest ++ beyond).drop n := fun n => by
    rw [List.drop_append, List.drop_eq_nil_of_le (by omega)]
    simp
  have hone : passed.length + 1 = passed.length + (0 + 1) := rfl
  simp only [of, items, off, stop, Chunk.mk.injEq, List.take_left', List.get_eq_getElem, true_and]
  refine ⟨by simp, ?_, ?_⟩
  · rw [hone, hdrop, List.drop_zero]
    exact List.take_left' (by omega)
  · rw [hdrop, List.drop_left' rfl]

end Chunk

inductive PartitionMode where
  | partition
  | padded
  | all

mutual
/-- An `object` is what no seq function looks into: a keyword, a symbol, a number that is no
integer, a function with what it captured. -/
inductive Value (ω : Type) where
  | nil
  | bool (b : Bool)
  | int (n : Int)
  | string (utf8 : List UInt8)
  | object (o : ω) (captured : List (Value ω))
  | vector (items : List (Value ω))
  | map (entries : List (Value ω × Value ω))      -- as a walk meets them
  | set (elements : List (Value ω))
  | emptyList
  | seq (node : Node ω)
  | lazy (thunk : Thunk ω)
  | realized (seq : Option (Node ω))

/-- A non-empty seq: a Clojure list, a cons or a chunk. -/
inductive Node (ω : Type) where
  | list (first : Value ω) (rest : List (Value ω))
  | cons (first more : Value ω)
  | chunk (chunk : Chunk (Value ω)) (chunked : Bool) (more : Value ω)

/-- What computes a lazy seq: the body of `lazy-seq`, or a native step with its operands. -/
inductive Thunk (ω : Type) where
  | fn (f : Value ω)
  | map1 (f coll : Value ω)
  | mapN (f : Value ω) (colls : List (Value ω))
  | filter (pred coll : Value ω) (negate : Bool)
  | take (n : Int) (coll : Value ω)
  | takeWhile (pred coll : Value ω)
  | drop (n : Int) (coll : Value ω)
  | dropWhile (pred coll : Value ω)
  | iterate (f x : Value ω)
  | iterateNext (f x : Value ω)
  | repeated (x : Value ω) (n : Option Int)
  | repeatedly (f : Value ω) (n : Option Int)
  | cycle (coll turn : Value ω)
  | range (next stop step : Int)
  | rangeInf (next step : Int)
  | concat (coll restColls : Value ω)
  | partition (n step : Int) (pad : Value ω) (mode : PartitionMode) (coll : Value ω)
  | interleave (colls : List (Value ω))
  | forStep (coll body : Value ω) (stop : ω) (inner : Bool)
  | distinct (coll : Value ω) (seen : Option (HashedMap (Value ω) (Value ω)))
end

variable {ω : Type}

namespace Value

def truthy : Value ω → Bool
  | .nil => false
  | .bool b => b
  | _ => true

/-- `()` for nil, as `rest` answers at the end. -/
def orEmpty : Value ω → Value ω
  | .nil => .emptyList
  | v => v

def ofList : List (Value ω) → Value ω
  | [] => .emptyList
  | x :: xs => .seq (.list x xs)

def ofSeq : Option (Node ω) → Value ω
  | none => .nil
  | some s => .seq s

end Value

/-- A list's element, nil outside it. -/
def getAt (items : List (Value ω)) (i : Nat) : Value ω := (items[i]?).getD .nil

theorem getAt_eq {items : List (Value ω)} {i : Nat} (h : i < items.length) :
    getAt items i = items[i] := by
  unfold getAt
  rw [List.getElem?_eq_getElem h]
  rfl

theorem getAt_items (c : Chunk (Value ω)) : getAt c.items c.off = c.first := by
  have h := c.get_elements (j := 0) (Nat.succ_pos _)
  unfold getAt
  rw [Nat.add_zero] at h
  rw [h]
  rfl

/-- The loop over `[i, i + n)` reads the `n` items from `i` on. -/
theorem map_getAt_range' {items : List (Value ω)} {i n : Nat} (h : i + n ≤ items.length) :
    (List.range' i n).map (getAt items) = (items.drop i).take n := by
  induction n generalizing i with
  | zero => rw [List.take_zero, List.range'_zero, List.map_nil]
  | succ n ih =>
    have hi : i < items.length := by omega
    rw [List.range'_succ, List.map_cons, ih (by omega), List.drop_eq_getElem_cons hi,
      List.take_succ_cons, getAt_eq hi]

namespace Chunk
variable (c : Chunk (Value ω))

/-- The chunk from its second element on. -/
theorem elements_next (h : c.off + 1 < c.stop) :
    (Chunk.of c.items (c.off + 1) c.stop ⟨h, c.stop_le⟩).elements = c.rest := by
  rw [Chunk.of_elements, ← c.elements_drop 1]
  rfl

theorem rest_eq_nil (h : ¬ c.off + 1 < c.stop) : c.rest = [] := by
  refine List.eq_nil_of_length_eq_zero ?_
  have hlen := c.length_elements
  rw [elements, List.length_cons] at hlen
  omega

end Chunk

/-- Elements in the head cell of a list of `count`: every other cell holds four. -/
def listHeadCount (count : Nat) : Nat := (count - 1) % 4 + 1

theorem listHeadCount_pos (count : Nat) : 0 < listHeadCount count := Nat.succ_pos _

theorem listHeadCount_le {count : Nat} (h : 0 < count) : listHeadCount count ≤ count := by
  unfold listHeadCount
  omega

/-- A cursor: the current node and the position in it. -/
inductive SeqWalk (ω : Type) where
  | done
  | cons (first more : Value ω)
  | list (first : Value ω) (rest : List (Value ω)) (i : Nat)
      (h : i < listHeadCount (rest.length + 1))
  | chunk (c : Chunk (Value ω)) (chunked : Bool) (more : Value ω) (i : Nat)
      (h : c.off ≤ i ∧ i < c.stop)

inductive Raised (ω : Type) where
  | illegalArgument (message : String)
  | thrown (e : Value ω)

/-- The engine's calls of Clojure functions, the key semantics with protoCore's hashed
collections, and protoCore's tagged integers. -/
structure Host (ω : Type) where
  invoke : Value ω → List (Value ω) → Option (Except (Raised ω) (Value ω))
  keys : KeySemantics (Value ω)
  helper : Helper (Value ω) (Value ω)
  isSmallInt : Int → Bool
  typeName : Value ω → String

/-- The calls that may go on for ever: a realisation, a Clojure function, and each loop whose
end depends on what it reads, at its head. -/
inductive Call (ω : Type) where
  | realizeLazy (thunk : Thunk ω)
  | invoke (f : Value ω) (args : List (Value ω))
  | filterLoop (pred : Value ω) (negate : Bool) (src : Option (Node ω))
  | dropWhileLoop (pred : Value ω) (walk : SeqWalk ω)
  | concatLoop (s : Option (Node ω)) (restColls : Value ω)
  | forLoop (body : Value ω) (stop : ω) (inner : Bool) (src : Option (Node ω))
  | distinctLoop (s : Option (Node ω)) (seen : HashedMap (Value ω) (Value ω))
  | toListLoop (acc : List (Value ω)) (walk : SeqWalk ω)
  | reduceLoop (f acc : Value ω) (walk : SeqWalk ω)

@[reducible] def Answer : Call ω → Type
  | .realizeLazy _ | .filterLoop .. | .dropWhileLoop .. | .concatLoop .. | .forLoop ..
  | .distinctLoop .. => Option (Node ω)
  | .invoke .. | .reduceLoop .. => Value ω
  | .toListLoop .. => List (Value ω)

abbrev Run (ω α : Type) := Comp (Call ω) Answer (Raised ω) α

/-- `realizeLazy` short of the native stack's end, where the source raises. -/
def realizeLazy (thunk : Thunk ω) : Run ω (Option (Node ω)) :=
  .ask (Call.realizeLazy thunk)

def invoke (f : Value ω) (args : List (Value ω)) : Run ω (Value ω) :=
  .ask (Call.invoke f args)

end ProtoClojure.Sequences
