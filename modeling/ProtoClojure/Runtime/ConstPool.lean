import ProtoClojure.Collections.InternTable

/-! The constant pool of a module: one vector of constants, and for each kind a map from what
names a constant of the kind to its index. -/
namespace ProtoClojure.ConstPool

/-- The bytes of a C++ string. -/
abbrev Text := List UInt8

inductive ConstKind where
  | long
  | double
  | string
  | symbol
  | named
  | bigInteger
  | datum
deriving DecidableEq

/-- `Obj` is a pointer to an object of the space. -/
structure Const (Obj : Type) where
  kind : ConstKind
  ival : Int64 := 0
  dval : UInt64 := 0           -- the bits of the double
  sval : Text := []
  named : Option Obj := none
deriving DecidableEq

/-- An `unordered_map` into the pool. -/
abbrev Index (Key : Type) := List (Key × Nat)

structure BytecodeModule (Obj : Type) where
  consts : List (Const Obj) := []
  longIndex : Index Int64 := []
  doubleIndex : Index UInt64 := []
  bigIntegerIndex : Index Text := []
  stringIndex : Index Text := []
  symbolIndex : Index Text := []
  namedIndex : Index Text := []
  datumIndex : Index Obj := []

variable {Obj : Type} [DecidableEq Obj]

section
variable {Key : Type} [DecidableEq Key]

def find (index : Index Key) (key : Key) : Option Nat :=
  (index.find? fun e => e.1 = key).map Prod.snd

def findOrAdd (index : Index Key) (key : Key) (consts : List (Const Obj)) (c : Const Obj) :
    Nat × Index Key × List (Const Obj) :=
  match find index key with
  | some i => (i, index, consts)
  | none => (consts.length, (key, consts.length) :: index, consts ++ [c])

end

/-- What the module is given: the symbol a spelling is interned as. -/
structure Host (Obj : Type) where
  internSymbol : Text → Obj

namespace BytecodeModule
variable (m : BytecodeModule Obj)

def addLong (v : Int64) : Nat × BytecodeModule Obj :=
  let (i, longIndex, consts) := findOrAdd m.longIndex v m.consts { kind := .long, ival := v }
  (i, { m with longIndex, consts })

def addBigInteger (digits : Text) : Nat × BytecodeModule Obj :=
  let (i, bigIntegerIndex, consts) :=
    findOrAdd m.bigIntegerIndex digits m.consts { kind := .bigInteger, sval := digits }
  (i, { m with bigIntegerIndex, consts })

/-- By bit pattern. -/
def addDouble (bits : UInt64) : Nat × BytecodeModule Obj :=
  let (i, doubleIndex, consts) :=
    findOrAdd m.doubleIndex bits m.consts { kind := .double, dval := bits }
  (i, { m with doubleIndex, consts })

def addString (s : Text) : Nat × BytecodeModule Obj :=
  let (i, stringIndex, consts) :=
    findOrAdd m.stringIndex s m.consts { kind := .string, sval := s }
  (i, { m with stringIndex, consts })

def addSymbol (H : Host Obj) (s : Text) : Nat × BytecodeModule Obj :=
  match find m.symbolIndex s with
  | some known => (known, m)
  | none =>
    let (i, symbolIndex, consts) := findOrAdd m.symbolIndex s m.consts
      { kind := .symbol, sval := s, named := some (H.internSymbol s) }
    (i, { m with symbolIndex, consts })

def addNamed (spelling : Text) (value : Obj) : Nat × BytecodeModule Obj :=
  let (i, namedIndex, consts) := findOrAdd m.namedIndex spelling m.consts
    { kind := .named, sval := spelling, named := some value }
  (i, { m with namedIndex, consts })

def addDatum (value : Obj) : Nat × BytecodeModule Obj :=
  match find m.datumIndex value with
  | some i => (i, m)
  | none =>
    let idx := m.consts.length
    (idx, { m with
      consts := m.consts ++ [{ kind := .datum, named := some value }]
      datumIndex := (value, idx) :: m.datumIndex })

def constAt (i : Nat) : Option (Const Obj) := m.consts[i]?

end BytecodeModule

/-! ### Additions -/

inductive Addition (Obj : Type) where
  | long (v : Int64)
  | bigInteger (digits : Text)
  | double (bits : UInt64)
  | string (s : Text)
  | symbol (s : Text)
  | named (spelling : Text) (value : Obj)
  | datum (value : Obj)

namespace Addition

def apply (H : Host Obj) (m : BytecodeModule Obj) : Addition Obj → Nat × BytecodeModule Obj
  | .long v => m.addLong v
  | .bigInteger digits => m.addBigInteger digits
  | .double bits => m.addDouble bits
  | .string s => m.addString s
  | .symbol s => m.addSymbol H s
  | .named spelling value => m.addNamed spelling value
  | .datum value => m.addDatum value

/-- The constant that is added. -/
def const (H : Host Obj) : Addition Obj → Const Obj
  | .long v => { kind := .long, ival := v }
  | .bigInteger digits => { kind := .bigInteger, sval := digits }
  | .double bits => { kind := .double, dval := bits }
  | .string s => { kind := .string, sval := s }
  | .symbol s => { kind := .symbol, sval := s, named := some (H.internSymbol s) }
  | .named spelling value => { kind := .named, sval := spelling, named := some value }
  | .datum value => { kind := .datum, named := some value }

/-- A named value is the one its spelling is interned as. -/
def Interned (intern : Text → Obj) : Addition Obj → Prop
  | .named spelling value => value = intern spelling
  | _ => True

end Addition

/-- The indices answered, and the module at last. -/
def addAll (H : Host Obj) : BytecodeModule Obj → List (Addition Obj) → List Nat × BytecodeModule Obj
  | m, [] => ([], m)
  | m, a :: as =>
    let (i, m) := a.apply H m
    let (is, m) := addAll H m as
    (i :: is, m)

/-! ### The maps keep in step with the pool -/

/-- Where the map of its kind finds an addition. -/
def lookup (m : BytecodeModule Obj) : Addition Obj → Option Nat
  | .long v => find m.longIndex v
  | .bigInteger digits => find m.bigIntegerIndex digits
  | .double bits => find m.doubleIndex bits
  | .string s => find m.stringIndex s
  | .symbol s => find m.symbolIndex s
  | .named spelling _ => find m.namedIndex spelling
  | .datum value => find m.datumIndex value

/-- The constant appended, and its index recorded in the map of its kind. -/
def record (H : Host Obj) (m : BytecodeModule Obj) (a : Addition Obj) : BytecodeModule Obj :=
  let m' := { m with consts := m.consts ++ [a.const H] }
  let i := m.consts.length
  match a with
  | .long v => { m' with longIndex := (v, i) :: m.longIndex }
  | .bigInteger digits => { m' with bigIntegerIndex := (digits, i) :: m.bigIntegerIndex }
  | .double bits => { m' with doubleIndex := (bits, i) :: m.doubleIndex }
  | .string s => { m' with stringIndex := (s, i) :: m.stringIndex }
  | .symbol s => { m' with symbolIndex := (s, i) :: m.symbolIndex }
  | .named spelling _ => { m' with namedIndex := (spelling, i) :: m.namedIndex }
  | .datum value => { m' with datumIndex := (value, i) :: m.datumIndex }

section InStep
variable {H : Host Obj} {intern : Text → Obj} {m : BytecodeModule Obj} {a b : Addition Obj}

omit [DecidableEq Obj] in
theorem const_inj : a.const H = b.const H ↔ a = b := by
  constructor
  · intro h
    have hkind := congrArg Const.kind h
    have hival := congrArg Const.ival h
    have hdval := congrArg Const.dval h
    have hsval := congrArg Const.sval h
    have hnamed := congrArg Const.named h
    cases a <;> cases b <;> simp_all [Addition.const]
  · rintro rfl
    rfl

omit [DecidableEq Obj] in
theorem consts_record : (record H m a).consts = m.consts ++ [a.const H] := by
  cases a <;> rfl

/-- An addition answers the index recorded, or records a new one. -/
theorem apply_eq : a.apply H m =
    match lookup m a with
    | some i => (i, m)
    | none => (m.consts.length, record H m a) := by
  cases a with
  | symbol s =>
    -- The map is looked in a second time when the symbol is new.
    simp only [Addition.apply, lookup, BytecodeModule.addSymbol, findOrAdd]
    split <;> rfl
  | _ =>
    simp only [Addition.apply, lookup, BytecodeModule.addLong, BytecodeModule.addBigInteger,
      BytecodeModule.addDouble, BytecodeModule.addString, BytecodeModule.addNamed,
      BytecodeModule.addDatum, findOrAdd]
    split <;> rfl

theorem find_cons {Key : Type} [DecidableEq Key] (index : Index Key) (key key' : Key) (i : Nat) :
    find ((key, i) :: index) key' = if key = key' then some i else find index key' := by
  unfold find
  rw [List.find?_cons]
  by_cases h : key = key'
  · simp [h]
  · simp [h]

/-- Recording an addition changes where that addition is found and no other. -/
theorem lookup_record (ha : a.Interned intern) (hb : b.Interned intern) [Decidable (a = b)] :
    lookup (record H m a) b = if a = b then some m.consts.length else lookup m b := by
  cases a <;> cases b <;> simp_all [lookup, record, find_cons, Addition.Interned]
  case named.named spelling _ spelling' _ _ =>
    by_cases h : spelling = spelling'
    · subst h
      rw [if_pos rfl, if_pos ⟨rfl, rfl⟩]
    · rw [if_neg h, if_neg fun hand => h hand.1]

/-- Each map holds where the constants of its kind are. -/
def InStep (H : Host Obj) (intern : Text → Obj) (m : BytecodeModule Obj) : Prop :=
  ∀ a : Addition Obj, a.Interned intern → ∀ i, lookup m a = some i ↔ m.consts[i]? = some (a.const H)

theorem inStep_empty : InStep H intern ({} : BytecodeModule Obj) := by
  intro a _ i
  have hnone : lookup ({} : BytecodeModule Obj) a = none := by cases a <;> rfl
  rw [hnone]
  constructor <;> intro h <;> cases h

theorem InStep.record (h : InStep H intern m) (ha : a.Interned intern) (hnew : lookup m a = none) :
    InStep H intern (record H m a) := by
  classical
  intro b hb i
  rw [lookup_record ha hb, consts_record, List.getElem?_append]
  by_cases hab : a = b
  · subst hab
    rw [if_pos rfl]
    constructor
    · intro hi
      obtain rfl := Option.some.inj hi
      rw [if_neg (Nat.lt_irrefl _), Nat.sub_self]
      rfl
    · intro hi
      split at hi
      · rw [(h a ha i).mpr hi] at hnew
        cases hnew
      · have hlt := (List.getElem?_eq_some_iff.mp hi).1
        rw [List.length_singleton] at hlt
        exact congrArg some (by omega)
  · rw [if_neg hab, h b hb i]
    split
    · rfl
    · rename_i hlen
      have hnone : m.consts[i]? = none := List.getElem?_eq_none (Nat.le_of_not_lt hlen)
      rw [hnone]
      constructor
      · intro hi
        cases hi
      · intro hi
        have heq := List.mem_singleton.mp (List.mem_of_getElem? hi)
        exact absurd (const_inj.mp heq).symm hab

/-- An addition answers and appends what looking through the pool itself would. -/
theorem apply_spec (h : InStep H intern m) (ha : a.Interned intern) :
    InStep H intern (a.apply H m).2 ∧
      (a.apply H m).1 = (InternTable.add m.consts (a.const H)).1 ∧
      (a.apply H m).2.consts = (InternTable.add m.consts (a.const H)).2 := by
  rw [apply_eq]
  unfold InternTable.add
  cases hi : lookup m a with
  | some i =>
    have hmem := List.mem_of_getElem? ((h a ha i).mp hi)
    have hlt := List.idxOf_lt_length_of_mem hmem
    have hat : m.consts[m.consts.idxOf (a.const H)]? = some (a.const H) := by
      rw [List.getElem?_eq_getElem hlt, List.getElem_idxOf]
    have hidx := Option.some.inj (hi.symm.trans ((h a ha _).mpr hat))
    exact ⟨h, hidx, (if_pos hmem).symm⟩
  | none =>
    have hnew : a.const H ∉ m.consts := by
      intro hmem
      obtain ⟨i, hat⟩ := List.getElem?_of_mem hmem
      rw [(h a ha i).mpr hat] at hi
      cases hi
    exact ⟨h.record ha hi, (List.idxOf_eq_length hnew).symm,
      consts_record.trans (if_neg hnew).symm⟩

/-- Additions to the module are additions to a table of constants. -/
theorem addAll_spec (h : InStep H intern m) (as : List (Addition Obj))
    (ha : ∀ a ∈ as, a.Interned intern) :
    (addAll H m as).1 = (InternTable.addAll m.consts (as.map (Addition.const H))).1 ∧
      (addAll H m as).2.consts = (InternTable.addAll m.consts (as.map (Addition.const H))).2 := by
  induction as generalizing m with
  | nil => exact ⟨rfl, rfl⟩
  | cons a as ih =>
    obtain ⟨ha, has⟩ := List.forall_mem_cons.mp ha
    obtain ⟨hstep, hindex, hconsts⟩ := apply_spec h ha
    obtain ⟨hrest, hlast⟩ := ih hstep has
    rw [hconsts] at hrest hlast
    exact ⟨List.cons_eq_cons.mpr ⟨hindex, hrest⟩, hlast⟩

end InStep

/-- An index denotes the constant it was answered for, then and after every later addition, and
two additions answer one index exactly when they add the same constant. -/
theorem addAll_denotes (H : Host Obj) (intern : Text → Obj) (as : List (Addition Obj))
    (ha : ∀ a ∈ as, a.Interned intern) :
    (∀ (k n : Nat) (a : Addition Obj), as[k]? = some a → k < n →
      ∃ i, (addAll H {} as).1[k]? = some i ∧ (addAll H {} (as.take n)).1[k]? = some i ∧
        (addAll H {} (as.take n)).2.constAt i = some (a.const H)) ∧
    ∀ (j k i i' : Nat) (a b : Addition Obj), as[j]? = some a → as[k]? = some b →
      (addAll H {} as).1[j]? = some i → (addAll H {} as).1[k]? = some i' →
      (i = i' ↔ a.const H = b.const H) := by
  obtain ⟨hall, -⟩ := addAll_spec inStep_empty as ha
  constructor
  · intro k n a hk hn
    have htake : ∀ a ∈ as.take n, a.Interned intern := fun a hm => ha a (List.mem_of_mem_take hm)
    obtain ⟨hindices, hconsts⟩ := addAll_spec inStep_empty _ htake
    have hk' : ((as.take n).map (Addition.const H))[k]? = some (a.const H) := by
      rw [List.getElem?_map, List.getElem?_take_of_lt hn, hk]
      rfl
    obtain ⟨i, hi, hat⟩ := InternTable.addAll_resolves [] hk'
    have hi' : (addAll H {} (as.take n)).1[k]? = some i := by
      rw [hindices]
      exact hi
    refine ⟨i, ?_, hi', ?_⟩
    · -- What was answered does not change with what is added later.
      have hsplit : as.map (Addition.const H) =
          (as.take n).map (Addition.const H) ++ (as.drop n).map (Addition.const H) := by
        rw [← List.map_append, List.take_append_drop]
      have hlt := (List.getElem?_eq_some_iff.mp hi).1
      rw [hall, hsplit, (InternTable.addAll_append _ _ _).1, List.getElem?_append_left hlt]
      exact hi
    · rw [BytecodeModule.constAt, hconsts]
      exact hat
  · intro j k i i' a b hj hk hi hi'
    rw [hall] at hi hi'
    refine InternTable.addAll_index_eq List.nodup_nil ?_ ?_ hi hi'
    · rw [List.getElem?_map, hj]
      rfl
    · rw [List.getElem?_map, hk]
      rfl

/-- A string and a symbol of one spelling, the two zeros, and the symbol once more. -/
theorem addAll_denotes_spelling :
    let as : List (Addition Nat) :=
      [.string [97], .symbol [97], .named [97] 1, .double 0, .double 0x8000000000000000,
        .symbol [97]]
    let H : Host Nat := { internSymbol := List.length }
    (addAll H {} as).1 = [0, 1, 2, 3, 4, 1] ∧
      ∀ (j k i i' : Nat) (a b : Addition Nat), as[j]? = some a → as[k]? = some b →
        (addAll H {} as).1[j]? = some i → (addAll H {} as).1[k]? = some i' →
        (i = i' ↔ a.const H = b.const H) := by
  refine ⟨by decide, (addAll_denotes _ List.length _ ?_).2⟩
  simp [Addition.Interned]

end ProtoClojure.ConstPool
