import Mathlib.Algebra.Ring.Nat
import ProtoClojure.Collections.KeyedMap

/-! Values as the runtime tells them apart: embedded words and objects with an address. -/

namespace ProtoClojure.Maps
open KeyedMap

/-- Unique words. -/
inductive Embedded where
  | nil
  | bool (b : Bool)
  | char (c : Char)
  | smallInt (n : Int)
deriving DecidableEq

/-- What protoCore stores a string in. -/
inductive StringForm where
  | inline
  | rope
  | symbol
deriving DecidableEq

/-- Objects equal only to themselves: interned keywords and symbols, object cells (atoms,
futures, promises, actors), and what has a pointer tag of its own (methods, threads). -/
inductive IdentityKind where
  | named
  | cell
  | tagged
deriving DecidableEq

/-- Two values are the same word when they are equal, addresses included. -/
inductive Value where
  | embedded (w : Embedded)
  | string (form : StringForm) (address : Nat) (text : String)
  | double (address : Nat) (bits : UInt64)
  | largeInteger (address : Nat) (n : Int)
  | identity (kind : IdentityKind) (address : Nat)
  | list (address : Nat) (items : List Value)
  | protoList (address : Nat) (items : List Value)
  | vector (address : Nat) (items : List Value)
  | lazy (address : Nat) (seq : Value)                 -- the seq its thunk answers
  | cons (address : Nat) (first more : Value)
  | chunk (address : Nat) (items : List Value) (off stop : Nat) (chunked : Bool) (more : Value)
  | map (m : HashedMap Value Value)
  | set (address : Nat) (elements : HashedMap Value Value)

namespace Value

abbrev nil : Value := .embedded .nil

/-! ### Being the same word -/

mutual
def decEq : (a b : Value) → Decidable (a = b)
  | .embedded v, b => match b with
    | .embedded w => decidable_of_iff (v = w) (by simp)
    | .string .. | .double .. | .largeInteger .. | .identity .. | .list .. | .protoList ..
    | .vector .. | .lazy .. | .cons .. | .chunk .. | .map .. | .set .. => isFalse nofun
  | .string f i s, b => match b with
    | .string g j t => decidable_of_iff (f = g ∧ i = j ∧ s = t) (by simp)
    | .embedded .. | .double .. | .largeInteger .. | .identity .. | .list .. | .protoList ..
    | .vector .. | .lazy .. | .cons .. | .chunk .. | .map .. | .set .. => isFalse nofun
  | .double i x, b => match b with
    | .double j y => decidable_of_iff (i = j ∧ x = y) (by simp)
    | .embedded .. | .string .. | .largeInteger .. | .identity .. | .list .. | .protoList ..
    | .vector .. | .lazy .. | .cons .. | .chunk .. | .map .. | .set .. => isFalse nofun
  | .largeInteger i x, b => match b with
    | .largeInteger j y => decidable_of_iff (i = j ∧ x = y) (by simp)
    | .embedded .. | .string .. | .double .. | .identity .. | .list .. | .protoList ..
    | .vector .. | .lazy .. | .cons .. | .chunk .. | .map .. | .set .. => isFalse nofun
  | .identity k i, b => match b with
    | .identity l j => decidable_of_iff (k = l ∧ i = j) (by simp)
    | .embedded .. | .string .. | .double .. | .largeInteger .. | .list .. | .protoList ..
    | .vector .. | .lazy .. | .cons .. | .chunk .. | .map .. | .set .. => isFalse nofun
  | .list i xs, b => match b with
    | .list j ys => have := decEqItems xs ys
      decidable_of_iff (i = j ∧ xs = ys) (by simp)
    | .embedded .. | .string .. | .double .. | .largeInteger .. | .identity .. | .protoList ..
    | .vector .. | .lazy .. | .cons .. | .chunk .. | .map .. | .set .. => isFalse nofun
  | .protoList i xs, b => match b with
    | .protoList j ys => have := decEqItems xs ys
      decidable_of_iff (i = j ∧ xs = ys) (by simp)
    | .embedded .. | .string .. | .double .. | .largeInteger .. | .identity .. | .list ..
    | .vector .. | .lazy .. | .cons .. | .chunk .. | .map .. | .set .. => isFalse nofun
  | .vector i xs, b => match b with
    | .vector j ys => have := decEqItems xs ys
      decidable_of_iff (i = j ∧ xs = ys) (by simp)
    | .embedded .. | .string .. | .double .. | .largeInteger .. | .identity .. | .list ..
    | .protoList .. | .lazy .. | .cons .. | .chunk .. | .map .. | .set .. => isFalse nofun
  | .lazy i x, b => match b with
    | .lazy j y => have := decEq x y
      decidable_of_iff (i = j ∧ x = y) (by simp)
    | .embedded .. | .string .. | .double .. | .largeInteger .. | .identity .. | .list ..
    | .protoList .. | .vector .. | .cons .. | .chunk .. | .map .. | .set .. => isFalse nofun
  | .cons i f x, b => match b with
    | .cons j g y => have := decEq f g
      have := decEq x y
      decidable_of_iff (i = j ∧ f = g ∧ x = y) (by simp)
    | .embedded .. | .string .. | .double .. | .largeInteger .. | .identity .. | .list ..
    | .protoList .. | .vector .. | .lazy .. | .chunk .. | .map .. | .set .. => isFalse nofun
  | .chunk i xs o e c x, b => match b with
    | .chunk j ys o' e' c' y => have := decEqItems xs ys
      have := decEq x y
      decidable_of_iff (i = j ∧ xs = ys ∧ o = o' ∧ e = e' ∧ c = c' ∧ x = y) (by simp)
    | .embedded .. | .string .. | .double .. | .largeInteger .. | .identity .. | .list ..
    | .protoList .. | .vector .. | .lazy .. | .cons .. | .map .. | .set .. => isFalse nofun
  | .map m, b => match b with
    | .map m' => have := decEqMap m m'
      decidable_of_iff (m = m') (by simp)
    | .embedded .. | .string .. | .double .. | .largeInteger .. | .identity .. | .list ..
    | .protoList .. | .vector .. | .lazy .. | .cons .. | .chunk .. | .set .. => isFalse nofun
  | .set i m, b => match b with
    | .set j m' => have := decEqMap m m'
      decidable_of_iff (i = j ∧ m = m') (by simp)
    | .embedded .. | .string .. | .double .. | .largeInteger .. | .identity .. | .list ..
    | .protoList .. | .vector .. | .lazy .. | .cons .. | .chunk .. | .map .. => isFalse nofun

def decEqItems : (xs ys : List Value) → Decidable (xs = ys)
  | [], [] => isTrue rfl
  | [], _ :: _ | _ :: _, [] => isFalse nofun
  | x :: xs, y :: ys => have := decEq x y
    have := decEqItems xs ys
    decidable_of_iff (x = y ∧ xs = ys) (by simp)

def decEqMap : (m m' : HashedMap Value Value) → Decidable (m = m')
  | ⟨i, es⟩, ⟨j, fs⟩ => have := decEqEntries es fs
    decidable_of_iff (i = j ∧ es = fs) (by simp)

def decEqEntries : (es fs : List (Value × Value)) → Decidable (es = fs)
  | [], [] => isTrue rfl
  | [], _ :: _ | _ :: _, [] => isFalse nofun
  | e :: es, f :: fs => have := decEqEntry e f
    have := decEqEntries es fs
    decidable_of_iff (e = f ∧ es = fs) (by simp)

def decEqEntry : (e f : Value × Value) → Decidable (e = f)
  | (k, v), (l, w) => have := decEq k l
    have := decEq v w
    decidable_of_iff (k = l ∧ v = w) (by simp)
end

instance : DecidableEq Value := decEq

/-! ### Parts and elements -/

/-- The values a value holds. -/
def parts : Value → List Value
  | .list _ items | .protoList _ items | .vector _ items => items
  | .lazy _ seq => [seq]
  | .cons _ first more => [first, more]
  | .chunk _ items _ _ _ more => items ++ [more]
  | .map m | .set _ m => m.entries.map Prod.fst ++ m.entries.map Prod.snd
  | _ => []

mutual
/-- Counts the values in a value. -/
def rank : Value → Nat
  | .string _ _ text => 1 + text.length
  | .list _ items | .protoList _ items | .vector _ items => 1 + rankItems items
  | .lazy _ seq => 1 + rank seq
  | .cons _ first more => 1 + rank first + rank more
  | .chunk _ items _ _ _ more => 1 + rankItems items + rank more
  | .map m | .set _ m => 1 + rankMap m
  | .embedded _ | .double .. | .largeInteger .. | .identity .. => 1

def rankItems : List Value → Nat
  | [] => 0
  | x :: xs => rank x + rankItems xs

def rankMap : HashedMap Value Value → Nat
  | ⟨_, es⟩ => rankEntries es

def rankEntries : List (Value × Value) → Nat
  | [] => 0
  | e :: es => rankEntry e + rankEntries es

def rankEntry : Value × Value → Nat
  | (k, v) => 1 + rank k + rank v
end

/-- What the elements of a collection are: a map's are vectors of its entries, of which every walk
makes new objects. -/
def elements : Value → List Value
  | .list _ items | .protoList _ items | .vector _ items => items
  | .lazy _ seq => elements seq
  | .cons _ first more => first :: elements more
  | .chunk _ items off stop _ more => (items.drop off).take (stop - off) ++ elements more
  | .map m => m.entries.map fun e => .vector 0 [e.1, e.2]
  | .set _ m => m.entries.map Prod.fst
  | .string .. | .embedded _ | .double .. | .largeInteger .. | .identity .. => []

theorem rank_pos (v : Value) : 0 < v.rank := by
  cases v <;> simp only [rank] <;> omega

theorem rankItems_eq (xs : List Value) : rankItems xs = (xs.map rank).sum := by
  induction xs with
  | nil => rfl
  | cons x xs ih => simp [rankItems, ih]

theorem rankMap_eq (m : HashedMap Value Value) : rankMap m = rankEntries m.entries := by
  cases m
  rfl

theorem rankItems_append (xs ys : List Value) :
    rankItems (xs ++ ys) = rankItems xs + rankItems ys := by
  simp [rankItems_eq]

theorem rankItems_sublist {xs ys : List Value} (h : xs.Sublist ys) : rankItems xs ≤ rankItems ys := by
  induction h with
  | slnil => exact Nat.le_refl _
  | cons x _ ih =>
    simp only [rankItems]
    omega
  | cons_cons x _ ih =>
    simp only [rankItems]
    omega

theorem rankItems_elements_entries (es : List (Value × Value)) :
    rankItems (es.map fun e => .vector 0 [e.1, e.2]) = rankEntries es := by
  induction es with
  | nil => rfl
  | cons e es ih =>
    obtain ⟨k, v⟩ := e
    simp only [List.map_cons, rankItems, rankEntries, rankEntry, rank, ih]
    omega

theorem rankItems_keys_le (es : List (Value × Value)) :
    rankItems (es.map Prod.fst) + rankItems (es.map Prod.snd) ≤ rankEntries es := by
  induction es with
  | nil => simp [rankItems, rankEntries]
  | cons e es ih =>
    obtain ⟨k, v⟩ := e
    simp only [List.map_cons, rankItems, rankEntries, rankEntry]
    omega

/-- A value is larger than all its elements together. -/
theorem rankItems_elements (v : Value) : rankItems v.elements < v.rank := by
  fun_induction elements v with
  | case1 | case2 | case3 =>
    simp only [rank]
    omega
  | case4 _ seq ih =>
    simp only [rank]
    omega
  | case5 _ first more ih =>
    simp only [rank, rankItems]
    omega
  | case6 _ items off stop _ more ih =>
    have hsub : ((items.drop off).take (stop - off)).Sublist items :=
      (List.take_sublist ..).trans (List.drop_sublist ..)
    have hle := rankItems_sublist hsub
    simp only [rank, rankItems_append]
    omega
  | case7 m =>
    simp only [rank, rankItems_elements_entries, rankMap_eq]
    omega
  | case8 _ m =>
    have hle := rankItems_keys_le m.entries
    simp only [rank, rankMap_eq]
    omega
  | case9 | case10 | case11 | case12 | case13 =>
    simp only [rank, rankItems]
    omega

end Value
end ProtoClojure.Maps
