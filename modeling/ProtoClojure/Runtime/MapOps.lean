import Mathlib.Data.UInt
import ProtoClojure.Runtime.Value

/-! The key semantics the runtime hands to protoCore's hashed collections, and its maps. -/

namespace ProtoClojure.Maps
open KeyedMap

/-- What protoCore computes from a handle, a text and an integer, and its collection helper. -/
structure ProtoCore where
  handle : Value → UInt64                      -- the word of a value
  stringHash : String → UInt64
  stringCompare : String → String → Int
  integerHash : Int → UInt64
  integerCompare : Int → Int → Int
  helper : Helper Value Value

structure ProtoCore.Lawful (P : ProtoCore) : Prop where
  stringCompare : ∀ s t, P.stringCompare s t = 0 ↔ s = t
  integerCompare : ∀ m n, P.integerCompare m n = 0 ↔ m = n
  helper : P.helper.Lawful

namespace Value

def isStringTagFast : Value → Bool
  | .string .. => true
  | _ => false

def isSmallInt : Value → Bool
  | .embedded (.smallInt _) => true
  | _ => false

/-- A vector, a list, or the ProtoList a seq object was read into. -/
def isSequential : Value → Bool
  | .vector .. | .list .. | .protoList .. => true
  | _ => false

/-- A seq object that is not a list. -/
def unrealised : Value → Bool
  | .lazy .. | .cons .. | .chunk .. => true
  | _ => false

def asMap : Value → Option (HashedMap Value Value)
  | .map m => some m
  | _ => none

def setElements : Value → Option (HashedMap Value Value)
  | .set _ m => some m
  | _ => none

end Value

def keyIsIdentity : Value → Bool
  | .string .. => false
  | .embedded w => !(Value.embedded w).isSmallInt
  | .double .. | .largeInteger .. | .protoList .. => false
  | .identity .. => true
  | .set .. | .lazy .. | .cons .. | .chunk .. => false
  | .list .. => false
  | .map .. | .vector .. => false

/-! ### Hashes -/

def saltIdentity : UInt64 := 0x9E3779B97F4A7C15
def saltInteger : UInt64 := 0xC2B2AE3D27D4EB4F
def saltDouble : UInt64 := 0x165667B19E3779F9
def saltBigInt : UInt64 := 0x27D4EB2F165667C5
def saltString : UInt64 := 0xD6E8FEB86659FD93
def saltSequence : UInt64 := 0xA24BAED4963EE407
def saltMap : UInt64 := 0x9FB21C651E98DF25
def saltSet : UInt64 := 0x7C9F2D6A1B3E5F81

/-- One round of the SplitMix64 finaliser. -/
def mix (h : UInt64) : UInt64 :=
  let x := (h ^^^ (h >>> 30)) * 0xBF58476D1CE4E5B9
  let x := (x ^^^ (x >>> 27)) * 0x94D049BB133111EB
  x ^^^ (x >>> 31)

def combine (acc value : UInt64) : UInt64 :=
  mix (acc ^^^ (value + 0x9E3779B97F4A7C15 + (acc <<< (6 : UInt64)) + (acc >>> (2 : UInt64))))

def sequenceHash (keyHash : Value → UInt64) (items : List Value) : UInt64 :=
  items.foldl (fun h x => combine h (keyHash x)) (combine saltSequence (UInt64.ofNat items.length))

/-- Added, not combined: the sum does not depend on the walk. -/
def mapHash (keyHash : Value → UInt64) (m : HashedMap Value Value) : UInt64 :=
  combine (combine saltMap (UInt64.ofNat m.entries.length))
    (m.entries.map fun e => combine (keyHash e.1) (keyHash e.2)).sum

def setHash (keyHash : Value → UInt64) (elements : HashedMap Value Value) : UInt64 :=
  ((elements.entries.map fun e => keyHash e.1).sum ^^^ saltSet) * 0x9E3779B97F4A7C15 +
    UInt64.ofNat elements.entries.length

section Core
variable (P : ProtoCore)

/-- `stack` bounds the calls that may nest. -/
def keyHashWithin : (stack : Nat) → Value → UInt64
  | 0, _ => 0
  | stack + 1, key =>
    match key with
    | .string _ _ text => combine saltString (P.stringHash text)
    | .embedded w =>
      combine (if (Value.embedded w).isSmallInt then saltInteger else saltIdentity)
        (P.handle (.embedded w))
    | .double _ bits => combine saltDouble bits
    | .largeInteger _ n => combine saltBigInt (P.integerHash n)
    | .protoList _ items | .vector _ items | .list _ items =>
      sequenceHash (keyHashWithin stack) items
    | .map m => mapHash (keyHashWithin stack) m
    | .set _ elements => setHash (keyHashWithin stack) elements
    | .lazy .. | .cons .. | .chunk .. => sequenceHash (keyHashWithin stack) key.elements
    | .identity .. => combine saltIdentity (P.handle key)

/-- As much stack as the value needs; what it answers where no check of the native stack raises
(`KeyStack`). -/
def keyHash (key : Value) : UInt64 := keyHashWithin P key.rank key

/-! ### Equality -/

def semantics (equals : Value → Value → Bool) : KeySemantics Value :=
  ⟨keyIsIdentity, keyHash P, equals⟩

def sequenceEquals (keyEquals : Value → Value → Bool) (xs ys : List Value) : Bool :=
  xs.length == ys.length && (xs.zip ys).all fun p => keyEquals p.1 p.2

/-- Every key of `a` in `b`, with equal values. -/
def compareEntries (sem : KeySemantics Value) (valueEq : Value → Value → Bool)
    (a b : HashedMap Value Value) : Bool :=
  a.entries.all fun e =>
    match P.helper.hashedGet sem b e.1 with
    | some mine => valueEq e.2 mine
    | none => false

def mapKeyEquals (sem : KeySemantics Value) (a b : HashedMap Value Value) : Bool :=
  a.entries.length == b.entries.length && compareEntries P sem sem.equals a b

def mapEqualsBy (sem : KeySemantics Value) (valueEq : Value → Value → Bool)
    (a b : HashedMap Value Value) : Bool :=
  if a = b then true
  else if a.entries.length ≠ b.entries.length then false
  else if a.entries.length = 0 then true
  else compareEntries P sem valueEq a b

/-- Only the keys count: the values are the keys themselves. -/
def setEquals (sem : KeySemantics Value) (a b : HashedMap Value Value) : Bool :=
  mapEqualsBy P sem (fun _ _ => true) a b

/-- `stack` bounds the calls that may nest. -/
def keyEqualsWithin : (stack : Nat) → Value → Value → Bool
  | 0, a, b => a = b
  | stack + 1, a, b =>
    if a = b then true
    else if a.isStringTagFast || b.isStringTagFast then
      match a, b with
      | .string _ _ s, .string _ _ t => P.stringCompare s t == 0
      | _, _ => false
    -- a seq object is compared as the list of its elements
    else if a.unrealised || b.unrealised then
      keyEqualsWithin stack (if a.unrealised then .protoList 0 a.elements else a)
        (if b.unrealised then .protoList 0 b.elements else b)
    else if a.isSequential || b.isSequential then
      a.isSequential && b.isSequential &&
        sequenceEquals (keyEqualsWithin stack) a.elements b.elements
    else
      match a, b with
      | .map m, .map m' => mapKeyEquals P (semantics P (keyEqualsWithin stack)) m m'
      | .set _ m, .set _ m' => setEquals P (semantics P (keyEqualsWithin stack)) m m'
      | .double _ x, .double _ y => x == y
      | .largeInteger _ m, .largeInteger _ n => P.integerCompare m n == 0
      | _, _ => false

/-- With as much stack as the values need, as `keyHash`. -/
def keyEquals (a b : Value) : Bool := keyEqualsWithin P (a.rank + b.rank) a b

def clojureKeySemantics : KeySemantics Value := semantics P (keyEquals P)

/-! ### Maps

A handle of a map, a key or a value may be null: the empty map, nil. -/

def orNil (v : Option Value) : Value := v.getD .nil

/-- A key already present keeps its stored key object and takes the new value. -/
def assoc (m : HashedMap Value Value) (key value : Option Value) : HashedMap Value Value :=
  P.helper.hashedPut (clojureKeySemantics P) m (orNil key) (orNil value)

def assocAll (m : HashedMap Value Value) : List (Option Value) → HashedMap Value Value
  | key :: value :: kv => assocAll (assoc P m key value) kv
  | _ => m

def mapAssocPairs (base : Option (HashedMap Value Value)) (kv : List (Option Value)) :
    Except String (HashedMap Value Value) :=
  if kv.length % 2 ≠ 0 then .error "map: a key has no value"
  else .ok (assocAll P (base.getD P.helper.newMap) kv)

/-- It asks for a value with every key and for nothing else. -/
theorem mapAssocPairs_answers {base : Option (HashedMap Value Value)} {kv : List (Option Value)} :
    (∃ m, mapAssocPairs P base kv = .ok m) ↔ kv.length % 2 = 0 := by
  unfold mapAssocPairs
  split
  · rename_i hodd
    exact iff_of_false nofun hodd
  · rename_i heven
    exact iff_of_true ⟨_, rfl⟩ (not_not.mp heven)

/-- Read off the number of slots: a slot holds an entry. -/
def mapIsEmpty : Option (HashedMap Value Value) → Bool
  | none => true
  | some m => m.entries.isEmpty

/-- The receiver itself when the key is absent. -/
def mapDissoc (m : Option (HashedMap Value Value)) (key : Option Value) :
    Option (HashedMap Value Value) :=
  if mapIsEmpty m then m
  else m.map fun before =>
    match P.helper.hashedGet (clojureKeySemantics P) before (orNil key) with
    | none => before
    | some _ => P.helper.hashedRemove (clojureKeySemantics P) before (orNil key)

/-- `none` when not found. -/
def mapGet (m : Option (HashedMap Value Value)) (key : Option Value) : Option Value :=
  m.bind fun m => P.helper.hashedGet (clojureKeySemantics P) m (orNil key)

def mapForEach {σ : Type} (m : Option (HashedMap Value Value)) (fn : σ → Value → Value → σ)
    (self : σ) : σ :=
  match m with
  | none => self
  | some m => m.entries.foldl (fun self e => fn self e.1 e.2) self

/-- The number of entries, not of slots. -/
def mapCount (m : Option (HashedMap Value Value)) : Nat := mapForEach m (fun n _ _ => n + 1) 0

def mapEquals (valueEq : Value → Value → Bool) (a b : Option (HashedMap Value Value)) : Bool :=
  if a = b then true
  else if mapCount a ≠ mapCount b then false
  else if mapCount a = 0 then true
  else
    match a, b with
    | some a, some b => compareEntries P (clojureKeySemantics P) valueEq a b
    | _, _ => true

end Core
end ProtoClojure.Maps
