import ProtoClojure.Collections.Lookups
import ProtoClojure.Runtime.ValueEquality

/-! `keyHash`, `keyEquals` and `valuesEqual` with their checks of the native stack, and how deep
values may nest for the laws of keys and of `=` to be seen. -/

namespace ProtoClojure.Maps
open KeyedMap

/-! ### The checks

`stack` is how many checked calls may still nest; `none` is the StackOverflowError a check raises. -/

section Walks
variable {α : Type}

/-- A walk that stops at the first mismatch. -/
def allOn (p : α → Option Bool) : List α → Option Bool
  | [] => some true
  | x :: xs => do if ← p x then allOn p xs else return false

/-- The sum of what is computed for each. -/
def sumOn (f : α → Option UInt64) : List α → Option UInt64
  | [] => some 0
  | x :: xs => do return (← f x) + (← sumOn f xs)

end Walks

section Hash
variable (keyHash : Value → Option UInt64)

def sequenceHashOn (items : List Value) : Option UInt64 :=
  items.foldlM (fun h x => do return combine h (← keyHash x))
    (combine saltSequence (UInt64.ofNat items.length))

def mapHashOn (m : HashedMap Value Value) : Option UInt64 := do
  let sum ← sumOn (fun e => do return combine (← keyHash e.1) (← keyHash e.2)) m.entries
  return combine (combine saltMap (UInt64.ofNat m.entries.length)) sum

def setHashOn (elements : HashedMap Value Value) : Option UInt64 := do
  let sum ← sumOn (fun e => keyHash e.1) elements.entries
  return (sum ^^^ saltSet) * 0x9E3779B97F4A7C15 + UInt64.ofNat elements.entries.length

end Hash

section Equality
variable (get : HashedMap Value Value → Value → Option (Option Value))

def sequenceEqualsOn (equals : Value → Value → Option Bool) (xs ys : List Value) : Option Bool :=
  if xs.length = ys.length then allOn (fun p => equals p.1 p.2) (xs.zip ys) else some false

def compareEntriesOn (valueEq : Value → Value → Option Bool) (a b : HashedMap Value Value) :
    Option Bool :=
  a.entries |> allOn fun e => do
    match ← get b e.1 with
    | some mine => valueEq e.2 mine
    | none => return false

def mapKeyEqualsOn (keyEquals : Value → Value → Option Bool) (a b : HashedMap Value Value) :
    Option Bool :=
  if a.entries.length = b.entries.length then compareEntriesOn get keyEquals a b else some false

def mapEqualsOn (valueEq : Value → Value → Option Bool) (a b : HashedMap Value Value) :
    Option Bool :=
  if a = b then some true
  else if a.entries.length ≠ b.entries.length then some false
  else if a.entries.length = 0 then some true
  else compareEntriesOn get valueEq a b

/-- The values are the keys themselves. -/
def setEqualsOn (a b : HashedMap Value Value) : Option Bool :=
  mapEqualsOn get (fun _ _ => some true) a b

end Equality

section Core
variable (P : ProtoCore)

/-- Only a collection's hash checks. -/
def keyHashOn : (stack : Nat) → Value → Option UInt64
  | _, .string _ _ text => some (combine saltString (P.stringHash text))
  | _, .embedded w =>
    some (combine (if (Value.embedded w).isSmallInt then saltInteger else saltIdentity)
      (P.handle (.embedded w)))
  | _, .double _ bits => some (combine saltDouble bits)
  | _, .largeInteger _ n => some (combine saltBigInt (P.integerHash n))
  | _, .identity kind address => some (combine saltIdentity (P.handle (.identity kind address)))
  | 0, .list .. | 0, .protoList .. | 0, .vector .. | 0, .lazy .. | 0, .cons .. | 0, .chunk .. |
    0, .map _ | 0, .set .. => none
  | stack + 1, .protoList _ items | stack + 1, .vector _ items | stack + 1, .list _ items =>
    sequenceHashOn (keyHashOn stack) items
  | stack + 1, .map m => mapHashOn (keyHashOn stack) m
  | stack + 1, .set _ elements => setHashOn (keyHashOn stack) elements
  | stack + 1, key@(.lazy ..) | stack + 1, key@(.cons ..) | stack + 1, key@(.chunk ..) =>
    sequenceHashOn (keyHashOn stack) key.elements

variable (L : Lookup P.helper)

/-- What a key's lookup in a map finds, hashing and comparing within `stack`. -/
def hashedGetOn (stack : Nat) (equals : Value → Value → Option Bool) (m : HashedMap Value Value)
    (key : Value) : Option (Option Value) :=
  L.get (keyHashOn P stack) equals keyIsIdentity m key

def keyEqualsOn : (stack : Nat) → Value → Value → Option Bool
  | 0, a, b => if a = b then some true else none
  | stack + 1, a, b =>
    if a = b then some true
    else if a.isStringTagFast || b.isStringTagFast then
      match a, b with
      | .string _ _ s, .string _ _ t => some (P.stringCompare s t == 0)
      | _, _ => some false
    else if a.unrealised || b.unrealised then keyEqualsOn stack a.read b.read
    else if a.isSequential || b.isSequential then
      if a.isSequential && b.isSequential then
        sequenceEqualsOn (keyEqualsOn stack) a.elements b.elements
      else some false
    else
      match a, b with
      | .map m, .map m' =>
        mapKeyEqualsOn (hashedGetOn P L stack (keyEqualsOn stack)) (keyEqualsOn stack) m m'
      | .set _ m, .set _ m' => setEqualsOn (hashedGetOn P L stack (keyEqualsOn stack)) m m'
      | .double _ x, .double _ y => some (x == y)
      | .largeInteger _ m, .largeInteger _ n => some (P.integerCompare m n == 0)
      | _, _ => some false

def mapGetOn (stack : Nat) (m : Option (HashedMap Value Value)) (key : Option Value) :
    Option (Option Value) :=
  match m with
  | none => some none
  | some m => hashedGetOn P L stack (keyEqualsOn P L stack) m (orNil key)

variable (partialCompare : Value → Value → Option Ordering)

/-- Two walks in step, up to the first mismatch. -/
def equalInStepOn (equals : Value → Value → Option Bool) : List Value → List Value → Option Bool
  | [], [] => some true
  | x :: xs, y :: ys => do if ← equals x y then equalInStepOn equals xs ys else return false
  | _, _ => some false

def valuesEqualOn : (stack : Nat) → Value → Value → Option Bool
  | 0, a, b => if a = b then some true else none
  | stack + 1, a, b =>
    if a = b then some true
    else if a.isMap || b.isMap then
      match a, b with
      | .map m, .map m' =>
        mapEqualsOn (hashedGetOn P L stack (keyEqualsOn P L stack)) (valuesEqualOn stack) m m'
      | _, _ => some false
    else if a.isSet || b.isSet then
      match a, b with
      | .set _ m, .set _ m' => setEqualsOn (hashedGetOn P L stack (keyEqualsOn P L stack)) m m'
      | _, _ => some false
    else if (a.isObjectTag && !a.isSeqObject) || (b.isObjectTag && !b.isSeqObject) then some false
    else if a.isSeqObject || b.isSeqObject then
      if !(a.isSeqObject || a.isVector) || !(b.isSeqObject || b.isVector) then some false
      else
        match a, b with
        | .list _ xs, .list _ ys =>
          if xs.length = ys.length then equalInStepOn (valuesEqualOn stack) xs ys else some false
        | a, b => equalInStepOn (valuesEqualOn stack) a.elements b.elements
    else if a.isVector || b.isVector then
      match a, b with
      | .vector _ xs, .vector _ ys => sequenceEqualsOn (valuesEqualOn stack) xs ys
      | _, _ => some false
    else some (partialCompare a b == some .eq)

end Core

/-! ### Nesting -/

namespace Value

/-- The values a hash or a comparison goes into. -/
def inside : Value → List Value
  | .map m => m.entries.map Prod.fst ++ m.entries.map Prod.snd
  | v => v.elements

/-- What is no collection. -/
def isLeaf : Value → Bool
  | .string .. | .embedded _ | .double .. | .largeInteger .. | .identity .. => true
  | _ => false

/-- At most so many collections inside one another. -/
def nestsWithin : Nat → Value → Bool
  | 0, v => v.isLeaf
  | n + 1, v => v.inside.all (nestsWithin n)

theorem nestsWithin_leaf {v : Value} (h : v.isLeaf = true) (n : Nat) : v.nestsWithin n = true := by
  cases n with
  | zero => exact h
  | succ n => cases v <;> first | rfl | cases h

theorem nestsWithin_succ {n : Nat} {v : Value} (h : v.nestsWithin n = true) :
    v.nestsWithin (n + 1) = true := by
  induction n generalizing v with
  | zero => exact nestsWithin_leaf h 1
  | succ n ih => exact List.all_eq_true.mpr fun x hx => ih (List.all_eq_true.mp h x hx)

theorem nestsWithin_mono {n m : Nat} {v : Value} (hle : n ≤ m) (h : v.nestsWithin n = true) :
    v.nestsWithin m = true := by
  induction hle with
  | refl => exact h
  | step _ ih => exact nestsWithin_succ ih

theorem rank_of_mem_inside {x v : Value} (h : x ∈ v.inside) : x.rank < v.rank := by
  cases v with
  | map m =>
    rcases List.mem_append.mp h with h | h
    all_goals
      obtain ⟨e, he, rfl⟩ := List.mem_map.mp h
      have hle := rank_entry he
      simp only [rank]
      omega
  | _ => exact rank_of_mem_elements h

/-- Every value nests within some depth. -/
theorem nestsWithin_rank (v : Value) : v.nestsWithin v.rank = true := by
  suffices h : ∀ n v, rank v ≤ n → v.nestsWithin n = true from h _ v (Nat.le_refl _)
  intro n
  induction n with
  | zero =>
    intro v h
    have := v.rank_pos
    omega
  | succ n ih =>
    refine fun v h => List.all_eq_true.mpr fun x hx => ih x ?_
    have := rank_of_mem_inside hx
    omega

end Value

/-! ### The hash -/

theorem sumOn_eq {α : Type} {f : α → Option UInt64} {c : α → Bool} {g : α → UInt64} {l : List α}
    (h : ∀ x ∈ l, f x = if c x then some (g x) else none) :
    sumOn f l = if l.all c then some (l.map g).sum else none := by
  induction l with
  | nil => rfl
  | cons x l ih =>
    obtain ⟨hx, hl⟩ := List.forall_mem_cons.mp h
    rw [sumOn, hx, ih hl]
    cases hc : c x with
    | false => simp [hc]
    | true => cases hcs : l.all c <;> simp [hc, hcs]

theorem foldl_combineOn {f : Value → Option UInt64} {c : Value → Bool} {g : Value → UInt64}
    {xs : List Value} (h : ∀ x ∈ xs, f x = if c x then some (g x) else none) (acc : UInt64) :
    xs.foldlM (fun h x => do return combine h (← f x)) acc =
      if xs.all c then some (xs.foldl (fun h x => combine h (g x)) acc) else none := by
  induction xs generalizing acc with
  | nil => rfl
  | cons x xs ih =>
    obtain ⟨hx, hxs⟩ := List.forall_mem_cons.mp h
    rw [List.foldlM_cons, hx, List.foldl_cons, List.all_cons]
    cases hc : c x with
    | false => rfl
    | true => exact ih hxs _

section Laws
variable {P : ProtoCore}

theorem keyHashOn_leaf {v : Value} (h : v.isLeaf = true) (stack : Nat) :
    keyHashOn P stack v = some (keyHash P v) := by
  cases v with
  | string | double | largeInteger =>
    rw [keyHash_eq (by simp [Value.shape]), keyHashOn]
    rfl
  | embedded | identity =>
    rw [keyHash, Value.rank, keyHashOn]
    rfl
  | _ => cases h

/-- The hash of a value comes exactly when it nests no deeper than the stack reaches. -/
theorem keyHashOn_eq (stack : Nat) (v : Value) :
    keyHashOn P stack v = if v.nestsWithin stack then some (keyHash P v) else none := by
  induction stack generalizing v with
  | zero =>
    cases hleaf : v.isLeaf with
    | true => rw [keyHashOn_leaf hleaf, if_pos (Value.nestsWithin_leaf hleaf 0)]
    | false =>
      rw [if_neg (by simp [Value.nestsWithin, hleaf])]
      cases v <;> first | rfl | cases hleaf
  | succ stack ih =>
    have hseq : ∀ xs, sequenceHashOn (keyHashOn P stack) xs =
        if xs.all (Value.nestsWithin stack) then some (sequenceHash (keyHash P) xs) else none :=
      fun xs => foldl_combineOn (fun x _ => ih x) _
    cases v with
    | string | embedded | double | largeInteger | identity =>
      rw [keyHashOn_leaf rfl, if_pos (Value.nestsWithin_leaf rfl _)]
    | list | protoList | vector | lazy | cons | chunk =>
      rw [keyHashOn, hseq, keyHash_eq (by simp [Value.shape])]
      rfl
    | map m =>
      have hsum := sumOn_eq (f := fun e => do
          return combine (← keyHashOn P stack e.1) (← keyHashOn P stack e.2))
        (c := fun e => e.1.nestsWithin stack && e.2.nestsWithin stack)
        (g := fun e => combine (keyHash P e.1) (keyHash P e.2)) (l := m.entries) fun e _ => by
          rw [ih, ih]
          cases e.1.nestsWithin stack <;> cases e.2.nestsWithin stack <;> rfl
      have hall : (Value.map m).nestsWithin (stack + 1) =
          m.entries.all fun e => e.1.nestsWithin stack && e.2.nestsWithin stack := by
        rw [Bool.eq_iff_iff]
        simp only [Value.nestsWithin, Value.inside, List.all_eq_true, List.mem_append, List.mem_map,
          Bool.and_eq_true]
        constructor
        · exact fun h e he => ⟨h _ (.inl ⟨e, he, rfl⟩), h _ (.inr ⟨e, he, rfl⟩)⟩
        · rintro h x (⟨e, he, rfl⟩ | ⟨e, he, rfl⟩)
          · exact (h e he).1
          · exact (h e he).2
      rw [keyHashOn, mapHashOn, hsum, hall, keyHash_eq (by simp [Value.shape])]
      cases m.entries.all fun e => e.1.nestsWithin stack && e.2.nestsWithin stack <;> rfl
    | set i m =>
      have hsum := sumOn_eq (f := fun e : Value × Value => keyHashOn P stack e.1)
        (c := fun e => e.1.nestsWithin stack) (g := fun e => keyHash P e.1) (l := m.entries)
        fun e _ => ih e.1
      have hall : (Value.set i m).nestsWithin (stack + 1) =
          m.entries.all fun e => e.1.nestsWithin stack := by
        show (m.entries.map Prod.fst).all _ = _
        rw [List.all_map]
        rfl
      rw [keyHashOn, setHashOn, hsum, hall, keyHash_eq (by simp [Value.shape])]
      cases m.entries.all fun e => e.1.nestsWithin stack <;> rfl

theorem keyHashOn_some {stack : Nat} {v : Value} {h : UInt64} (hv : keyHashOn P stack v = some h) :
    h = keyHash P v := by
  rw [keyHashOn_eq] at hv
  split at hv
  · exact (Option.some.inj hv).symm
  · cases hv

theorem keyHashOn_isSome {stack : Nat} {v : Value} (hv : v.nestsWithin stack = true) :
    (keyHashOn P stack v).isSome = true := by
  rw [keyHashOn_eq, if_pos hv]
  rfl

/-! ### What the comparisons answer, they answer rightly -/

theorem allOn_some {α : Type} {p : α → Option Bool} {q : α → Bool} {xs : List α} {r : Bool}
    (h : ∀ x ∈ xs, ∀ r, p x = some r → r = q x) (hr : allOn p xs = some r) : r = xs.all q := by
  induction xs with
  | nil => exact (Option.some.inj hr).symm
  | cons x xs ih =>
    obtain ⟨hx, hxs⟩ := List.forall_mem_cons.mp h
    obtain ⟨b, hb, hr⟩ := Option.bind_eq_some_iff.mp hr
    rw [List.all_cons, ← hx b hb]
    cases b with
    | true => exact ih hxs hr
    | false => exact (Option.some.inj hr).symm

theorem equalInStepOn_some {equals : Value → Value → Option Bool} {equals' : Value → Value → Bool}
    {xs ys : List Value} {r : Bool}
    (h : ∀ x ∈ xs, ∀ y ∈ ys, ∀ r, equals x y = some r → r = equals' x y)
    (hr : equalInStepOn equals xs ys = some r) : r = equalInStep equals' xs ys := by
  induction xs generalizing ys with
  | nil => cases ys <;> exact (Option.some.inj hr).symm
  | cons x xs ih =>
    cases ys with
    | nil => exact (Option.some.inj hr).symm
    | cons y ys =>
      obtain ⟨b, hb, hr⟩ := Option.bind_eq_some_iff.mp hr
      rw [equalInStep, ← h x List.mem_cons_self y List.mem_cons_self b hb]
      cases b with
      | true =>
        exact ih (fun x hx y hy => h x (List.mem_cons_of_mem _ hx) y (List.mem_cons_of_mem _ hy)) hr
      | false => exact (Option.some.inj hr).symm

theorem sequenceEqualsOn_some {equals : Value → Value → Option Bool}
    {equals' : Value → Value → Bool} {xs ys : List Value} {r : Bool}
    (h : ∀ x ∈ xs, ∀ y ∈ ys, ∀ r, equals x y = some r → r = equals' x y)
    (hr : sequenceEqualsOn equals xs ys = some r) : r = sequenceEquals equals' xs ys := by
  unfold sequenceEqualsOn at hr
  unfold sequenceEquals
  split at hr
  · rename_i hlen
    rw [hlen, beq_self_eq_true, Bool.true_and]
    exact allOn_some (fun p hp => h p.1 (List.of_mem_zip hp).1 p.2 (List.of_mem_zip hp).2) hr
  · rename_i hlen
    rw [beq_eq_false_iff_ne.mpr hlen]
    exact (Option.some.inj hr).symm

theorem compareEntriesOn_some {sem : KeySemantics Value}
    {get : HashedMap Value Value → Value → Option (Option Value)}
    {valueEq : Value → Value → Option Bool} {valueEq' : Value → Value → Bool}
    {a b : HashedMap Value Value} {r : Bool}
    (hget : ∀ e ∈ a.entries, ∀ o, get b e.1 = some o → o = P.helper.hashedGet sem b e.1)
    (hvalue : ∀ e ∈ a.entries, ∀ mine, P.helper.hashedGet sem b e.1 = some mine →
      ∀ r, valueEq e.2 mine = some r → r = valueEq' e.2 mine)
    (hr : compareEntriesOn get valueEq a b = some r) : r = compareEntries P sem valueEq' a b := by
  refine allOn_some (fun e he r hr => ?_) hr
  obtain ⟨o, ho, hr⟩ := Option.bind_eq_some_iff.mp hr
  rw [← hget e he o ho]
  cases o with
  | none => exact (Option.some.inj hr).symm
  | some mine => exact hvalue e he mine (hget e he _ ho).symm r hr

variable {L : Lookup P.helper}

/-- What comparing keys answers is right about some values. -/
def EqualsRightly (P : ProtoCore) (equals : Value → Value → Option Bool) (S : Value → Prop) : Prop :=
  ∀ a b, S a → S b → ∀ r, equals a b = some r → r = keyEquals P a b

theorem hashedGetOn_some (hL : L.Lawful) {stack : Nat} {equals : Value → Value → Option Bool}
    {m : HashedMap Value Value} {k : Value} {o : Option Value}
    (he : EqualsRightly P equals (Among m.entries k)) (ho : hashedGetOn P L stack equals m k = some o) :
    o = P.helper.hashedGet (clojureKeySemantics P) m k := by
  have hagrees : AgreesOn (clojureKeySemantics P) (keyHashOn P stack) equals (Among m.entries k) :=
    ⟨fun _ _ _ hr => keyHashOn_some hr, he⟩
  exact hL.get_eq hagrees ho

theorem compareEntriesOn_iff (hP : P.Lawful) (hL : L.Lawful) {stack : Nat}
    {equals valueEq : Value → Value → Option Bool} {valueEq' : Value → Value → Bool}
    {a b : HashedMap Value Value} {r : Bool} (ha : ∀ e ∈ a.entries, WellFormed P e.1)
    (hb : ∀ e ∈ b.entries, WellFormed P e.1) (hd : Distinct (clojureKeySemantics P) b.entries)
    (he : EqualsRightly P equals (WellFormed P))
    (hvalue : ∀ e ∈ a.entries, ∀ f ∈ b.entries, ∀ r, valueEq e.2 f.2 = some r → r = valueEq' e.2 f.2)
    (hr : compareEntriesOn (hashedGetOn P L stack equals) valueEq a b = some r) :
    r = true ↔ ∀ e ∈ a.entries, ∃ f ∈ b.entries, KeyEq P e.1 f.1 ∧ valueEq' e.2 f.2 = true := by
  have hamong : ∀ e ∈ a.entries, ∀ x, Among b.entries e.1 x → WellFormed P x := by
    rintro e he x (rfl | hx)
    · exact ha e he
    · obtain ⟨f, hf, rfl⟩ := List.mem_map.mp hx
      exact hb f hf
  rw [← compareEntries_keys valueEq' hP ha hb hd]
  refine iff_of_eq (congrArg (· = true) (compareEntriesOn_some (fun e hmem o ho => ?_)
    (fun e hmem mine hmine => ?_) hr))
  · exact hashedGetOn_some hL (fun x y hx hy => he x y (hamong e hmem x hx) (hamong e hmem y hy)) ho
  · have hlaws := (semantics_lawful hP).mono (hamong e hmem)
    rw [hP.helper.get _ b e.1 hlaws hd] at hmine
    obtain ⟨f, hf, -, rfl⟩ := (lookup_eq_some hd hlaws).mp hmine
    exact hvalue e hmem f hf

/-- The shortcuts of `mapEquals` change nothing. -/
theorem mapEqualsOn_iff (hP : P.Lawful) (hL : L.Lawful) {stack : Nat}
    {equals valueEq : Value → Value → Option Bool} {valueEq' : Value → Value → Bool}
    {a b : HashedMap Value Value} {r : Bool} (ha : ∀ e ∈ a.entries, WellFormed P e.1)
    (hb : ∀ e ∈ b.entries, WellFormed P e.1) (hd : Distinct (clojureKeySemantics P) b.entries)
    (he : EqualsRightly P equals (WellFormed P)) (hself : ∀ e ∈ a.entries, valueEq' e.2 e.2 = true)
    (hvalue : ∀ e ∈ a.entries, ∀ f ∈ b.entries, ∀ r, valueEq e.2 f.2 = some r → r = valueEq' e.2 f.2)
    (hr : mapEqualsOn (hashedGetOn P L stack equals) valueEq a b = some r) :
    r = true ↔ a.entries.length = b.entries.length ∧
      ∀ e ∈ a.entries, ∃ f ∈ b.entries, KeyEq P e.1 f.1 ∧ valueEq' e.2 f.2 = true := by
  unfold mapEqualsOn at hr
  by_cases hab : a = b
  · rw [if_pos hab] at hr
    cases hr
    subst hab
    exact iff_of_true rfl ⟨rfl, fun e he => ⟨e, he, .refl _, hself e he⟩⟩
  rw [if_neg hab] at hr
  by_cases hlen : a.entries.length = b.entries.length
  · rw [if_neg (not_not.mpr hlen)] at hr
    by_cases hzero : a.entries.length = 0
    · rw [if_pos hzero] at hr
      cases hr
      have hnil := List.eq_nil_of_length_eq_zero hzero
      exact iff_of_true rfl ⟨hlen, by simp [hnil]⟩
    · rw [if_neg hzero] at hr
      rw [and_iff_right hlen]
      exact compareEntriesOn_iff hP hL ha hb hd he hvalue hr
  · rw [if_pos hlen] at hr
    cases hr
    simp [hlen]

theorem setEqualsOn_iff (hP : P.Lawful) (hL : L.Lawful) {stack : Nat}
    {equals : Value → Value → Option Bool} {i j : Nat} {a b : HashedMap Value Value} {r : Bool}
    (ha : WellFormed P (.set i a)) (hb : WellFormed P (.set j b))
    (he : EqualsRightly P equals (WellFormed P))
    (hr : setEqualsOn (hashedGetOn P L stack equals) a b = some r) :
    r = true ↔ (Value.set i a).shape.Matches (KeyEq P) (Value.set j b).shape := by
  have hkeys {i : Nat} {m : HashedMap Value Value} (hm : WellFormed P (.set i m)) :
      ∀ e ∈ m.entries, WellFormed P e.1 := fun e he =>
    hm.parts (List.mem_append_left _ (List.mem_map_of_mem he))
  let same : Value → Value → Bool := fun _ _ => true
  have hiff : r = true ↔ a.entries.length = b.entries.length ∧
      ∀ e ∈ a.entries, ∃ f ∈ b.entries, KeyEq P e.1 f.1 ∧ same e.2 f.2 = true :=
    mapEqualsOn_iff hP hL (hkeys ha) (hkeys hb) (hb.distinct (.inr rfl)) he (fun _ _ => rfl)
      (fun _ _ _ _ _ hr => (Option.some.inj hr).symm) hr
  refine hiff.trans ?_
  simp [same, Value.shape, Shape.Matches]

theorem WellFormed.read {v : Value} (h : WellFormed P v) : WellFormed P v.read :=
  (Upto.read ⟨h, Nat.le_refl v.rank⟩).1

/-- A seq object is compared as the list of its elements. -/
theorem keyEquals_read (hP : P.Lawful) {a b : Value} (ha : WellFormed P a) (hb : WellFormed P b)
    (hu : (a.unrealised || b.unrealised) = true) : keyEquals P a.read b.read = keyEquals P a b := by
  have hshape : a.shape = b.shape → a.shape.Matches (KeyEq P) b.shape := by
    intro he
    rw [← he]
    refine Shape.matches_refl KeyEq.refl ?_
    rcases Bool.or_eq_true_iff.mp hu with hu | hu
    · simp [Value.seq_of_unrealised hu]
    · simp [he, Value.seq_of_unrealised hu]
  have hread := ha.read.keyEq_iff hP hb.read
  rw [a.read_shape, b.read_shape, or_iff_right_of_imp fun he => hshape (by
    rw [← a.read_shape, ← b.read_shape, he])] at hread
  exact Bool.eq_iff_iff.mpr (hread.trans ((ha.keyEq_iff hP hb).trans
    (or_iff_right_of_imp fun he => hshape (congrArg Value.shape he))).symm)

/-- The comparison of two values that are not one object and not seq objects to be read. -/
theorem keyEqualsOn_realised (hP : P.Lawful) (hL : L.Lawful) {stack : Nat} {a b : Value} {r : Bool}
    (ih : EqualsRightly P (keyEqualsOn P L stack) (WellFormed P)) (ha : WellFormed P a)
    (hb : WellFormed P b) (hab : a ≠ b) (hua : a.unrealised = false) (hub : b.unrealised = false)
    (hr : keyEqualsOn P L (stack + 1) a b = some r) :
    r = true ↔ a.shape.Matches (KeyEq P) b.shape := by
  rw [keyEqualsOn.eq_def] at hr
  dsimp only at hr
  rw [if_neg hab] at hr
  have hseq : ∀ {xs ys : List Value}, a.elements = xs → b.elements = ys →
      sequenceEqualsOn (keyEqualsOn P L stack) xs ys = some r → (r = true ↔ List.Forall₂ (KeyEq P) xs ys) := by
    rintro _ _ rfl rfl hr
    rw [sequenceEqualsOn_some (fun x hx y hy => ih x y (ha.elements x hx) (hb.elements y hy)) hr]
    exact sequenceEquals_iff
  cases a with
  | lazy | cons | chunk => cases hua
  | string =>
    cases b with
    | lazy | cons | chunk => cases hub
    | string =>
      cases hr
      simp [Value.shape, Shape.Matches, hP.stringCompare]
    | _ =>
      cases hr
      simp [Value.shape, Shape.Matches]
  | list _ xs | protoList _ xs | vector _ xs =>
    cases b with
    | lazy | cons | chunk => cases hub
    | list _ ys | protoList _ ys | vector _ ys => exact hseq rfl rfl hr
    | _ =>
      cases hr
      simp [Value.shape, Shape.Matches]
  | map m =>
    cases b with
    | lazy | cons | chunk => cases hub
    | map m' =>
      have hr : mapKeyEqualsOn (hashedGetOn P L stack (keyEqualsOn P L stack)) (keyEqualsOn P L stack)
        m m' = some r := hr
      unfold mapKeyEqualsOn at hr
      split at hr
      · rename_i hlen
        refine (compareEntriesOn_iff hP hL (fun e he => (ha.entry he).1) (fun e he => (hb.entry he).1)
          (hb.distinct (.inl rfl)) ih (fun e he f hf => ih e.2 f.2 (ha.entry he).2 (hb.entry hf).2)
          hr).trans ?_
        exact (and_iff_right hlen).symm
      · rename_i hlen
        cases hr
        simp [Value.shape, Shape.Matches, hlen]
    | _ =>
      cases hr
      simp [Value.shape, Shape.Matches]
  | set i m =>
    cases b with
    | lazy | cons | chunk => cases hub
    | set j m' => exact setEqualsOn_iff hP hL ha hb ih hr
    | _ =>
      cases hr
      simp [Value.shape, Shape.Matches]
  | double | largeInteger | embedded | identity =>
    cases b with
    | lazy | cons | chunk => cases hub
    | _ =>
      cases hr
      simp [Value.shape, Shape.Matches, hP.integerCompare]

/-- What `keyEquals` answers within some stack does not depend on it. -/
theorem keyEqualsOn_some (hP : P.Lawful) (hL : L.Lawful) (stack : Nat) :
    EqualsRightly P (keyEqualsOn P L stack) (WellFormed P) := by
  induction stack with
  | zero =>
    intro a b _ _ r hr
    rw [keyEqualsOn] at hr
    split at hr
    · rename_i hab
      rw [hab, keyEquals_self]
      exact (Option.some.inj hr).symm
    · cases hr
  | succ stack ih =>
    intro a b ha hb r hr
    by_cases hab : a = b
    · rw [keyEqualsOn.eq_def] at hr
      dsimp only at hr
      rw [if_pos hab] at hr
      rw [hab, keyEquals_self]
      exact (Option.some.inj hr).symm
    have hiff : ∀ s : Bool, (s = true ↔ a.shape.Matches (KeyEq P) b.shape) → s = keyEquals P a b :=
      fun s hs => Bool.eq_iff_iff.mpr
        (hs.trans ((ha.keyEq_iff hP hb).trans (or_iff_right hab)).symm)
    cases hu : a.unrealised || b.unrealised with
    | false =>
      obtain ⟨hua, hub⟩ := Bool.or_eq_false_iff.mp hu
      exact hiff r (keyEqualsOn_realised hP hL ih ha hb hab hua hub hr)
    | true =>
      rw [keyEqualsOn.eq_def] at hr
      dsimp only at hr
      rw [if_neg hab] at hr
      cases hs : a.isStringTagFast || b.isStringTagFast with
      | true =>
        refine hiff r ?_
        rw [hs, if_pos rfl] at hr
        have hkinds : (a.isStringTagFast = true ∧ b.unrealised = true) ∨
            (a.unrealised = true ∧ b.isStringTagFast = true) := by
          cases a <;> cases b <;> simp [Value.isStringTagFast, Value.unrealised] at hs hu ⊢
        rcases hkinds with ⟨ha, hb⟩ | ⟨ha, hb⟩
        · cases a <;> cases ha
          cases b <;> cases hb <;> cases hr <;> simp [Value.shape, Shape.Matches]
        · cases b <;> cases hb
          cases a <;> cases ha <;> cases hr <;> simp [Value.shape, Shape.Matches]
      | false =>
        rw [hs, if_neg Bool.false_ne_true, hu, if_pos rfl] at hr
        rw [← keyEquals_read hP ha hb hu]
        exact ih _ _ ha.read hb.read r hr

/-! ### When the comparisons answer -/

theorem allOn_isSome {α : Type} {p : α → Option Bool} {xs : List α}
    (h : ∀ x ∈ xs, (p x).isSome = true) : (allOn p xs).isSome = true := by
  induction xs with
  | nil => rfl
  | cons x xs ih =>
    obtain ⟨hx, hxs⟩ := List.forall_mem_cons.mp h
    obtain ⟨b, hb⟩ := Option.isSome_iff_exists.mp hx
    rw [allOn, hb]
    cases b with
    | true => exact ih hxs
    | false => rfl

theorem sequenceEqualsOn_isSome {equals : Value → Value → Option Bool} {xs ys : List Value}
    (h : ∀ x ∈ xs, ∀ y ∈ ys, (equals x y).isSome = true) :
    (sequenceEqualsOn equals xs ys).isSome = true := by
  unfold sequenceEqualsOn
  split
  · exact allOn_isSome fun p hp => h p.1 (List.of_mem_zip hp).1 p.2 (List.of_mem_zip hp).2
  · rfl

theorem equalInStepOn_isSome {equals : Value → Value → Option Bool} {xs ys : List Value}
    (h : ∀ x ∈ xs, ∀ y ∈ ys, (equals x y).isSome = true) :
    (equalInStepOn equals xs ys).isSome = true := by
  induction xs generalizing ys with
  | nil => cases ys <;> rfl
  | cons x xs ih =>
    cases ys with
    | nil => rfl
    | cons y ys =>
      obtain ⟨b, hb⟩ := Option.isSome_iff_exists.mp (h x List.mem_cons_self y List.mem_cons_self)
      rw [equalInStepOn, hb]
      cases b with
      | true => exact ih fun x hx y hy => h x (List.mem_cons_of_mem _ hx) y (List.mem_cons_of_mem _ hy)
      | false => rfl

/-- Values that the hash and the comparison of keys answer about. -/
structure Reached (P : ProtoCore) (L : Lookup P.helper) (stack : Nat) (S : Value → Prop) : Prop where
  wellFormed : ∀ x, S x → WellFormed P x
  hash : ∀ x, S x → (keyHashOn P stack x).isSome = true
  equals : ∀ x y, S x → S y → (keyEqualsOn P L stack x y).isSome = true

theorem Reached.get {stack : Nat} {S : Value → Prop} (h : Reached P L stack S)
    {m : HashedMap Value Value} {k : Value} (hk : S k) (hm : ∀ e ∈ m.entries, S e.1) :
    (hashedGetOn P L stack (keyEqualsOn P L stack) m k).isSome = true := by
  have hamong : ∀ x, Among m.entries k x → S x := by
    rintro x (rfl | hx)
    · exact hk
    · obtain ⟨f, hf, rfl⟩ := List.mem_map.mp hx
      exact hm f hf
  exact Lookup.get_isSome (fun x hx => h.hash x (hamong x hx))
    (fun x y hx hy => h.equals x y (hamong x hx) (hamong y hy)) _

/-- The value a lookup finds is one of the map's. -/
theorem Reached.get_mem (hP : P.Lawful) (hL : L.Lawful) {stack : Nat} {S : Value → Prop}
    (h : Reached P L stack S) {m : HashedMap Value Value} {k mine : Value} (hk : S k)
    (hm : ∀ e ∈ m.entries, S e.1) (hd : Distinct (clojureKeySemantics P) m.entries)
    (hget : hashedGetOn P L stack (keyEqualsOn P L stack) m k = some (some mine)) :
    ∃ f ∈ m.entries, f.2 = mine := by
  have hamong : ∀ x, Among m.entries k x → WellFormed P x := by
    rintro x (rfl | hx)
    · exact h.wellFormed x hk
    · obtain ⟨f, hf, rfl⟩ := List.mem_map.mp hx
      exact h.wellFormed f.1 (hm f hf)
  have hfound := hashedGetOn_some hL (fun x y hx hy => keyEqualsOn_some hP hL stack x y (hamong x hx)
    (hamong y hy)) hget
  have hlaws := (semantics_lawful hP).mono hamong
  rw [hP.helper.get _ m k hlaws hd] at hfound
  obtain ⟨f, hf, -, hvalue⟩ := (lookup_eq_some hd hlaws).mp hfound.symm
  exact ⟨f, hf, hvalue⟩

theorem Reached.compareEntries (hP : P.Lawful) (hL : L.Lawful) {stack : Nat} {S : Value → Prop}
    (h : Reached P L stack S) {valueEq : Value → Value → Option Bool} {a b : HashedMap Value Value}
    (ha : ∀ e ∈ a.entries, S e.1) (hb : ∀ e ∈ b.entries, S e.1)
    (hd : Distinct (clojureKeySemantics P) b.entries)
    (hvalue : ∀ e ∈ a.entries, ∀ f ∈ b.entries, (valueEq e.2 f.2).isSome = true) :
    (compareEntriesOn (hashedGetOn P L stack (keyEqualsOn P L stack)) valueEq a b).isSome = true := by
  refine allOn_isSome fun e he => ?_
  obtain ⟨o, ho⟩ := Option.isSome_iff_exists.mp (h.get (ha e he) hb)
  rw [ho]
  cases o with
  | none => rfl
  | some mine =>
    obtain ⟨f, hf, rfl⟩ := h.get_mem hP hL (ha e he) hb hd ho
    exact hvalue e he f hf

theorem Reached.mapEquals (hP : P.Lawful) (hL : L.Lawful) {stack : Nat} {S : Value → Prop}
    (h : Reached P L stack S) {valueEq : Value → Value → Option Bool} {a b : HashedMap Value Value}
    (ha : ∀ e ∈ a.entries, S e.1) (hb : ∀ e ∈ b.entries, S e.1)
    (hd : Distinct (clojureKeySemantics P) b.entries)
    (hvalue : ∀ e ∈ a.entries, ∀ f ∈ b.entries, (valueEq e.2 f.2).isSome = true) :
    (mapEqualsOn (hashedGetOn P L stack (keyEqualsOn P L stack)) valueEq a b).isSome = true := by
  unfold mapEqualsOn
  split
  · rfl
  split
  · rfl
  split
  · rfl
  · exact h.compareEntries hP hL ha hb hd hvalue

theorem Value.inside_key {m : HashedMap Value Value} {e : Value × Value} (he : e ∈ m.entries) :
    e.1 ∈ (Value.map m).inside := List.mem_append_left _ (List.mem_map_of_mem he)

theorem Value.inside_value {m : HashedMap Value Value} {e : Value × Value} (he : e ∈ m.entries) :
    e.2 ∈ (Value.map m).inside := List.mem_append_right _ (List.mem_map_of_mem he)

theorem Value.inside_element {i : Nat} {m : HashedMap Value Value} {e : Value × Value}
    (he : e ∈ m.entries) : e.1 ∈ (Value.set i m).inside := List.mem_map_of_mem (f := Prod.fst) he

/-- Two values that are not seq objects to be read, of parts that are reached. -/
theorem Reached.keyEquals (hP : P.Lawful) (hL : L.Lawful) {stack : Nat} {S : Value → Prop}
    (h : Reached P L stack S) {a b : Value} (hb : WellFormed P b)
    (hua : a.unrealised = false) (hub : b.unrealised = false) (hsa : ∀ x ∈ a.inside, S x)
    (hsb : ∀ x ∈ b.inside, S x) : (keyEqualsOn P L (stack + 1) a b).isSome = true := by
  rw [keyEqualsOn.eq_def]
  dsimp only
  split
  · rfl
  cases a with
  | lazy | cons | chunk => cases hua
  | list _ xs | protoList _ xs | vector _ xs =>
    cases b with
    | lazy | cons | chunk => cases hub
    | list _ ys | protoList _ ys | vector _ ys =>
      exact sequenceEqualsOn_isSome fun x hx y hy => h.equals x y (hsa x hx) (hsb y hy)
    | _ => rfl
  | map m =>
    cases b with
    | lazy | cons | chunk => cases hub
    | map m' =>
      show (mapKeyEqualsOn _ _ m m').isSome = true
      unfold mapKeyEqualsOn
      split
      · exact h.compareEntries hP hL (fun e he => hsa _ (Value.inside_key he))
          (fun e he => hsb _ (Value.inside_key he)) (hb.distinct (.inl rfl))
          fun e he f hf => h.equals _ _ (hsa _ (Value.inside_value he)) (hsb _ (Value.inside_value hf))
      · rfl
    | _ => rfl
  | set i m =>
    cases b with
    | lazy | cons | chunk => cases hub
    | set j m' =>
      exact h.mapEquals hP hL (fun e he => hsa _ (Value.inside_element he))
        (fun e he => hsb _ (Value.inside_element he)) (hb.distinct (.inr rfl)) fun _ _ _ _ => rfl
    | _ => rfl
  | string | double | largeInteger | embedded | identity =>
    cases b with
    | lazy | cons | chunk => cases hub
    | _ => rfl

theorem Value.inside_read (v : Value) (h : v.unrealised = true) : v.read.inside = v.inside := by
  rw [read_of_unrealised h]
  cases v <;> first | rfl | cases h

theorem Value.isLeaf_realised {v : Value} (h : v.isLeaf = true) : v.unrealised = false := by
  cases v <;> first | rfl | cases h

theorem Value.inside_leaf {v : Value} (h : v.isLeaf = true) : v.inside = [] := by
  cases v <;> first | rfl | cases h

theorem WellFormed.inside {v : Value} (h : WellFormed P v) : ∀ x ∈ v.inside, WellFormed P x := by
  cases v with
  | map => exact fun x hx => h.parts hx
  | _ => exact h.elements

/-- Keys that nest within half the stack are compared. -/
theorem keyEqualsOn_isSome (hP : P.Lawful) (hL : L.Lawful) {n stack : Nat} (hn : 2 * n < stack)
    {a b : Value} (ha : WellFormed P a) (hb : WellFormed P b) (hna : a.nestsWithin n = true)
    (hnb : b.nestsWithin n = true) : (keyEqualsOn P L stack a b).isSome = true := by
  induction n generalizing stack a b with
  | zero =>
    obtain ⟨stack, rfl⟩ : ∃ k, stack = k + 1 := ⟨stack - 1, by omega⟩
    have hno : Reached P L stack fun _ => False := ⟨nofun, nofun, nofun⟩
    exact hno.keyEquals hP hL hb (Value.isLeaf_realised hna) (Value.isLeaf_realised hnb)
      (by simp [Value.inside_leaf hna]) (by simp [Value.inside_leaf hnb])
  | succ n ih =>
    obtain ⟨stack, rfl⟩ : ∃ k, stack = k + 2 := ⟨stack - 2, by omega⟩
    have hreached : ∀ k, 2 * n < k → Reached P L k fun v => WellFormed P v ∧ v.nestsWithin n = true :=
      fun k hk => ⟨fun x hx => hx.1, fun x hx => keyHashOn_isSome (Value.nestsWithin_mono (by omega) hx.2),
        fun x y hx hy => ih hk hx.1 hy.1 hx.2 hy.2⟩
    have hinside : ∀ {v : Value}, WellFormed P v → v.nestsWithin (n + 1) = true →
        ∀ x ∈ v.inside, WellFormed P x ∧ x.nestsWithin n = true := fun hv hnv x hx =>
      ⟨hv.inside x hx, List.all_eq_true.mp hnv x hx⟩
    have hread : ∀ {v : Value}, WellFormed P v → v.nestsWithin (n + 1) = true →
        ∀ x ∈ v.read.inside, WellFormed P x ∧ x.nestsWithin n = true := by
      intro v hv hnv
      cases hu : v.unrealised with
      | true =>
        rw [v.inside_read hu]
        exact hinside hv hnv
      | false =>
        rw [Value.read_of_realised hu]
        exact hinside hv hnv
    cases hu : a.unrealised || b.unrealised with
    | false =>
      obtain ⟨hua, hub⟩ := Bool.or_eq_false_iff.mp hu
      exact (hreached (stack + 1) (by omega)).keyEquals hP hL hb hua hub (hinside ha hna) (hinside hb hnb)
    | true =>
      rw [keyEqualsOn.eq_def]
      dsimp only
      split
      · rfl
      split
      · split <;> rfl
      · exact (hreached stack (by omega)).keyEquals hP hL hb.read a.read_unrealised b.read_unrealised
          (hread ha hna) (hread hb hnb)

theorem reached_nested (hP : P.Lawful) (hL : L.Lawful) {n stack : Nat} (hn : 2 * n < stack) :
    Reached P L stack fun v => WellFormed P v ∧ v.nestsWithin n = true :=
  ⟨fun _ hx => hx.1, fun _ hx => keyHashOn_isSome (Value.nestsWithin_mono (by omega) hx.2),
    fun _ _ hx hy => keyEqualsOn_isSome hP hL hn hx.1 hy.1 hx.2 hy.2⟩

/-! ### `=` -/

section ValuesEqual
variable {partialCompare : Value → Value → Option Ordering}

/-- Two values of which no parts are compared. -/
theorem valuesEqualOn_flat {stack : Nat} {a b : Value} (hio : (a.inOrder && b.inOrder) = false)
    (hmap : (a.isMap && b.isMap) = false) (hset : (a.isSet && b.isSet) = false) :
    valuesEqualOn P L partialCompare (stack + 1) a b =
      some (valuesEqualWithin P partialCompare (stack + 1) a b) := by
  rw [valuesEqualOn.eq_def, valuesEqualWithin.eq_def]
  dsimp only
  split
  · rfl
  cases a <;> cases b <;> first
    | (cases hio; done)
    | (cases hmap; done)
    | (cases hset; done)
    | rfl
    -- of an identity's kinds some are object cells
    | (simp only [Value.isMap, Value.isSet, Value.isSeqObject, Value.isVector, Bool.or_false,
         Bool.false_or, Bool.false_eq_true, if_false]
       split <;> rfl)

theorem valuesEqualOn_inOrder {stack : Nat} {a b : Value} (hab : a ≠ b) (ha : a.inOrder = true)
    (hb : b.inOrder = true) : valuesEqualOn P L partialCompare (stack + 1) a b =
      if a.isVector && b.isVector then
        sequenceEqualsOn (valuesEqualOn P L partialCompare stack) a.elements b.elements
      else if !a.isVector && !b.isVector && !a.unrealised && !b.unrealised then
        if a.elements.length = b.elements.length then
          equalInStepOn (valuesEqualOn P L partialCompare stack) a.elements b.elements
        else some false
      else equalInStepOn (valuesEqualOn P L partialCompare stack) a.elements b.elements := by
  rw [valuesEqualOn.eq_def]
  dsimp only
  rw [if_neg hab]
  cases a <;> cases ha <;> cases b <;> cases hb <;> rfl

theorem valuesEqualOn_sequences {stack : Nat} {a b : Value} {r : Bool} (hab : a ≠ b)
    (ha : a.inOrder = true) (hb : b.inOrder = true)
    (ih : ∀ x ∈ a.elements, ∀ y ∈ b.elements, ∀ r,
      valuesEqualOn P L partialCompare stack x y = some r → r = keyEquals P x y)
    (hr : valuesEqualOn P L partialCompare (stack + 1) a b = some r) :
    r = true ↔ List.Forall₂ (KeyEq P) a.elements b.elements := by
  have hstep : ∀ r, equalInStepOn (valuesEqualOn P L partialCompare stack) a.elements b.elements = some r →
      (r = true ↔ List.Forall₂ (KeyEq P) a.elements b.elements) := fun r hr =>
    (iff_of_eq (congrArg (· = true) (equalInStepOn_some ih hr))).trans equalInStep_iff
  rw [valuesEqualOn_inOrder hab ha hb] at hr
  split at hr
  · rw [sequenceEqualsOn_some ih hr]
    exact sequenceEquals_iff
  split at hr
  · split at hr
    · exact hstep r hr
    · rename_i hlen
      cases hr
      exact iff_of_false Bool.false_ne_true fun h => hlen h.length_eq
  · exact hstep r hr

/-- What `=` answers within some stack is that the values are one key. -/
theorem valuesEqualOn_some (hP : P.Lawful) (hL : L.Lawful) (hc : LawfulCompare partialCompare)
    {stack : Nat} {a b : Value} {r : Bool} (ha : IsData P a) (hb : IsData P b)
    (hr : valuesEqualOn P L partialCompare stack a b = some r) : r = keyEquals P a b := by
  by_cases hab : a = b
  · have htrue : valuesEqualOn P L partialCompare stack a b = some true := by
      cases stack <;> rw [valuesEqualOn.eq_def] <;> exact if_pos hab
    rw [htrue] at hr
    rw [hab, keyEquals_self]
    exact (Option.some.inj hr).symm
  induction stack generalizing a b r with
  | zero =>
    rw [valuesEqualOn, if_neg hab] at hr
    cases hr
  | succ stack ih =>
    have hall : ∀ x y r, IsData P x → IsData P y →
        valuesEqualOn P L partialCompare stack x y = some r → r = keyEquals P x y := by
      intro x y r hx hy hr
      by_cases hxy : x = y
      · have htrue : valuesEqualOn P L partialCompare stack x y = some true := by
          cases stack <;> rw [valuesEqualOn.eq_def] <;> exact if_pos hxy
        rw [htrue] at hr
        rw [hxy, keyEquals_self]
        exact (Option.some.inj hr).symm
      · exact ih hx hy hr hxy
    have hda := ha.data
    have hdb := hb.data
    have hwa := ha.wellFormed
    have hwb := hb.wellFormed
    refine Bool.eq_iff_iff.mpr (Iff.trans ?_ ((hwa.keyEq_iff hP hwb).trans (or_iff_right hab)).symm)
    cases hio : a.inOrder && b.inOrder with
    | true =>
      obtain ⟨hia, hib⟩ := Bool.and_eq_true_iff.mp hio
      rw [Value.shape_inOrder hia, Value.shape_inOrder hib]
      exact valuesEqualOn_sequences hab hia hib (fun x hx y hy r hr => hall x y r
        ⟨hda.elements x hx, hwa.elements x hx⟩ ⟨hdb.elements y hy, hwb.elements y hy⟩ hr) hr
    | false =>
      cases hmap : a.isMap && b.isMap with
      | true =>
        obtain ⟨hma, hmb⟩ := Bool.and_eq_true_iff.mp hmap
        cases a <;> cases hma
        cases b <;> cases hmb
        rename_i m m'
        rw [valuesEqualOn.eq_def] at hr
        dsimp only at hr
        rw [if_neg hab] at hr
        exact mapEqualsOn_iff hP hL (fun e he => (hwa.entry he).1) (fun e he => (hwb.entry he).1)
          (hwb.distinct (.inl rfl)) (keyEqualsOn_some hP hL stack) (fun e _ => keyEquals_self e.2)
          (fun e he f hf r hr => hall e.2 f.2 r ⟨hda.value he, (hwa.entry he).2⟩
            ⟨hdb.value hf, (hwb.entry hf).2⟩ hr) hr
      | false =>
        cases hset : a.isSet && b.isSet with
        | true =>
          obtain ⟨hsa, hsb⟩ := Bool.and_eq_true_iff.mp hset
          cases a <;> cases hsa
          cases b <;> cases hsb
          rw [valuesEqualOn.eq_def] at hr
          dsimp only at hr
          rw [if_neg hab] at hr
          exact setEqualsOn_iff hP hL hwa hwb (keyEqualsOn_some hP hL stack) hr
        | false =>
          rw [valuesEqualOn_flat hio hmap hset] at hr
          obtain rfl := Option.some.inj hr
          cases hscalar : a.isScalar && b.isScalar with
          | true =>
            obtain ⟨hsa, hsb⟩ := Bool.and_eq_true_iff.mp hscalar
            exact valuesEqualWithin_scalars hc hab hda.plain hdb.plain hsa hsb
          | false => exact valuesEqualWithin_apart hda.plain hdb.plain hio hmap hset hscalar

theorem valuesEqualOn_isSome (hP : P.Lawful) (hL : L.Lawful) {n stack : Nat} (hn : 2 * n < stack)
    {a b : Value} (ha : WellFormed P a) (hb : WellFormed P b) (hna : a.nestsWithin n = true)
    (hnb : b.nestsWithin n = true) : (valuesEqualOn P L partialCompare stack a b).isSome = true := by
  induction n generalizing stack a b with
  | zero =>
    obtain ⟨stack, rfl⟩ : ∃ k, stack = k + 1 := ⟨stack - 1, by omega⟩
    have hleaf : a.isLeaf = true := hna
    rw [valuesEqualOn_flat (by cases a <;> first | rfl | cases hleaf)
      (by cases a <;> first | rfl | cases hleaf) (by cases a <;> first | rfl | cases hleaf)]
    rfl
  | succ n ih =>
    obtain ⟨stack, rfl⟩ : ∃ k, stack = k + 1 := ⟨stack - 1, by omega⟩
    have hreached := reached_nested hP hL (show 2 * n < stack by omega)
    have hinside : ∀ {v : Value}, WellFormed P v → v.nestsWithin (n + 1) = true →
        ∀ x ∈ v.inside, WellFormed P x ∧ x.nestsWithin n = true := fun hv hnv x hx =>
      ⟨hv.inside x hx, List.all_eq_true.mp hnv x hx⟩
    have hparts : ∀ x ∈ a.inside, ∀ y ∈ b.inside,
        (valuesEqualOn P L partialCompare stack x y).isSome = true := fun x hx y hy =>
      ih (by omega) (hinside ha hna x hx).1 (hinside hb hnb y hy).1 (hinside ha hna x hx).2
        (hinside hb hnb y hy).2
    by_cases hab : a = b
    · rw [valuesEqualOn.eq_def]
      dsimp only
      rw [if_pos hab]
      rfl
    cases hio : a.inOrder && b.inOrder with
    | true =>
      obtain ⟨hia, hib⟩ := Bool.and_eq_true_iff.mp hio
      have helements : ∀ x ∈ a.elements, ∀ y ∈ b.elements,
          (valuesEqualOn P L partialCompare stack x y).isSome = true := by
        cases a <;> cases hia <;> cases b <;> cases hib <;> exact hparts
      rw [valuesEqualOn_inOrder hab hia hib]
      split
      · exact sequenceEqualsOn_isSome helements
      split
      · split
        · exact equalInStepOn_isSome helements
        · rfl
      · exact equalInStepOn_isSome helements
    | false =>
      cases hmap : a.isMap && b.isMap with
      | true =>
        obtain ⟨hma, hmb⟩ := Bool.and_eq_true_iff.mp hmap
        cases a <;> cases hma
        cases b <;> cases hmb
        rw [valuesEqualOn.eq_def]
        dsimp only
        rw [if_neg hab]
        exact hreached.mapEquals hP hL (fun e he => hinside ha hna _ (Value.inside_key he))
          (fun e he => hinside hb hnb _ (Value.inside_key he)) (hb.distinct (.inl rfl))
          fun e he f hf => hparts _ (Value.inside_value he) _ (Value.inside_value hf)
      | false =>
        cases hset : a.isSet && b.isSet with
        | true =>
          obtain ⟨hsa, hsb⟩ := Bool.and_eq_true_iff.mp hset
          cases a <;> cases hsa
          cases b <;> cases hsb
          rw [valuesEqualOn.eq_def]
          dsimp only
          rw [if_neg hab]
          exact hreached.mapEquals hP hL (fun e he => hinside ha hna _ (Value.inside_element he))
            (fun e he => hinside hb hnb _ (Value.inside_element he)) (hb.distinct (.inr rfl))
            fun _ _ _ _ => rfl
        | false =>
          rw [valuesEqualOn_flat hio hmap hset]
          rfl

end ValuesEqual

/-! ### As deep as the stack reaches -/

theorem among_wellFormed {m : HashedMap Value Value} {k x : Value} (hm : WellFormed P (.map m))
    (hk : WellFormed P k) (hx : Among m.entries k x) : WellFormed P x := by
  rcases hx with rfl | hx
  · exact hk
  · exact hm.parts (List.mem_append_left _ hx)

/-- What a lookup in a map finds within some stack is the entry whose key is equal. -/
theorem mapGetOn_some (hP : P.Lawful) (hL : L.Lawful) {stack : Nat} {m : HashedMap Value Value}
    {k : Value} {o : Option Value} (hm : WellFormed P (.map m)) (hk : WellFormed P k)
    (ho : mapGetOn P L stack (some m) (some k) = some o) : o = mapGet P (some m) (some k) :=
  hashedGetOn_some hL (fun x y hx hy => keyEqualsOn_some hP hL stack x y (among_wellFormed hm hk hx)
    (among_wellFormed hm hk hy)) ho

theorem mapGetOn_entry (hP : P.Lawful) (hL : L.Lawful) {stack i : Nat} {a b v : Value}
    {o : Option Value} (ha : WellFormed P a) (hb : WellFormed P b)
    (ho : mapGetOn P L stack (some ⟨i, [(a, v)]⟩) (some b) = some o) :
    o = mapGet P (some ⟨i, [(a, v)]⟩) (some b) := by
  have hamong : ∀ x, Among [(a, v)] b x → WellFormed P x := by
    rintro x (rfl | hx)
    · exact hb
    · rw [List.map_singleton, List.mem_singleton] at hx
      exact hx ▸ ha
  exact hashedGetOn_some hL (fun x y hx hy => keyEqualsOn_some hP hL stack x y (hamong x hx)
    (hamong y hy)) ho

theorem mapGet_find (hP : P.Lawful) {m : HashedMap Value Value} {k : Value}
    (hm : WellFormed P (.map m)) (hk : WellFormed P k) :
    mapGet P (some m) (some k) = (m.entries.find? fun e => keyEquals P k e.1).map Prod.snd :=
  hP.helper.get _ m k ((semantics_lawful hP).mono fun _ => among_wellFormed hm hk) (hm.distinct (.inl rfl))

theorem mapGetOn_isSome (hP : P.Lawful) (hL : L.Lawful) {n stack : Nat} (hn : 2 * n < stack)
    {m : HashedMap Value Value} {k : Value} (hm : WellFormed P (.map m)) (hk : WellFormed P k)
    (hnm : ∀ e ∈ m.entries, e.1.nestsWithin n = true) (hnk : k.nestsWithin n = true) :
    (mapGetOn P L stack (some m) (some k)).isSome = true :=
  (reached_nested hP hL hn).get ⟨hk, hnk⟩ fun e he => ⟨(hm.entry he).1, hnm e he⟩

theorem keyEqualsOn_self (stack : Nat) (a : Value) : keyEqualsOn P L stack a a = some true := by
  cases stack <;> rw [keyEqualsOn.eq_def] <;> exact if_pos rfl

theorem keyEqualsOn_eq (hP : P.Lawful) (hL : L.Lawful) {n stack : Nat} (hn : 2 * n < stack)
    {a b : Value} (ha : WellFormed P a) (hb : WellFormed P b) (hna : a.nestsWithin n = true)
    (hnb : b.nestsWithin n = true) : keyEqualsOn P L stack a b = some (keyEquals P a b) := by
  obtain ⟨r, hr⟩ := Option.isSome_iff_exists.mp (keyEqualsOn_isSome hP hL hn ha hb hna hnb)
  rw [hr, keyEqualsOn_some hP hL stack a b ha hb r hr]

section Equal
variable {partialCompare : Value → Value → Option Ordering}

theorem valuesEqualOn_self (stack : Nat) (a : Value) :
    valuesEqualOn P L partialCompare stack a a = some true := by
  cases stack <;> rw [valuesEqualOn.eq_def] <;> exact if_pos rfl

/-- What `=` answers within some stack is what it answers with as much as the values need. -/
theorem valuesEqualOn_valuesEqual (hP : P.Lawful) (hL : L.Lawful) (hc : LawfulCompare partialCompare)
    {stack : Nat} {a b : Value} {r : Bool} (ha : IsData P a) (hb : IsData P b)
    (hr : valuesEqualOn P L partialCompare stack a b = some r) : r = valuesEqual P partialCompare a b := by
  rw [valuesEqualOn_some hP hL hc ha hb hr]
  exact ((valuesEqual_keys hP hc).2.2.2.1 a b ha hb).symm

end Equal
end Laws

def collidingLookup : Lookup collidingCore.helper := slotLookup

theorem collidingLookup_lawful : collidingLookup.Lawful := slotLookup_lawful

/-- Vectors inside one another. -/
def nested : Nat → Value
  | 0 => .nil
  | n + 1 => .vector n [nested n]

theorem nested_nestsWithin (n m : Nat) : (nested n).nestsWithin m = decide (n ≤ m) := by
  induction n generalizing m with
  | zero => simp [nested, Value.nestsWithin_leaf (v := .nil) rfl]
  | succ n ih =>
    cases m with
    | zero => rfl
    | succ m =>
      show [nested n].all (Value.nestsWithin m) = _
      simp [ih]

/-- Two vectors of one item: the item is not looked into when they are compared. -/
theorem keyEqualsOn_shared {P : ProtoCore} (L : Lookup P.helper) (stack i j : Nat) (v : Value) :
    keyEqualsOn P L (stack + 1) (.vector i [v]) (.vector j [v]) = some true := by
  rw [keyEqualsOn.eq_def]
  dsimp only
  split
  · rfl
  · show sequenceEqualsOn (keyEqualsOn P L stack) [v] [v] = _
    simp [sequenceEqualsOn, allOn, keyEqualsOn_self]

/-- Whatever the stack, two vectors of an item nested as deep are equal, and neither can be hashed. -/
theorem keyHashOn_shared (stack : Nat) :
    keyEqualsOn collidingCore collidingLookup (stack + 1) (.vector (stack + 1) [nested (stack + 1)])
        (.vector (stack + 2) [nested (stack + 1)]) = some true ∧
      ∀ i, keyHashOn collidingCore (stack + 1) (.vector i [nested (stack + 1)]) = none := by
  refine ⟨keyEqualsOn_shared _ _ _ _ _, fun i => ?_⟩
  have hdeep : (Value.vector i [nested (stack + 1)]).nestsWithin (stack + 1) = false := by
    show [nested (stack + 1)].all (Value.nestsWithin stack) = _
    simp [nested_nestsWithin]
  rw [keyHashOn_eq, hdeep]
  rfl

/-- Two vectors of one item, equal, and the entry of neither is found by the other. -/
theorem valuesEqualOn_shared (stack : Nat) :
    valuesEqualOn collidingCore collidingLookup plainCompare (stack + 1)
        (.vector (stack + 1) [nested (stack + 1)]) (.vector (stack + 2) [nested (stack + 1)]) = some true ∧
      mapGetOn collidingCore collidingLookup (stack + 1)
        (some ⟨0, [(.vector (stack + 1) [nested (stack + 1)], .nil)]⟩)
        (some (.vector (stack + 2) [nested (stack + 1)])) = none := by
  constructor
  · rw [valuesEqualOn_inOrder (by simp) rfl rfl]
    show sequenceEqualsOn _ [nested (stack + 1)] [nested (stack + 1)] = _
    simp [sequenceEqualsOn, allOn, valuesEqualOn_self]
  · exact slotLookup_get_none rfl ((keyHashOn_shared stack).2 (stack + 2))

end ProtoClojure.Maps
