import Mathlib.Logic.Relation
import ProtoClojure.Sets.SetAlgebra

/-! Which object a set answers for an element: when it is the one a walk meets. -/

namespace ProtoClojure.Maps.Sets
open KeyedMap

section Objects
variable {P : ProtoCore}

/-- The map of a set sends each stored element to that very object. -/
def Stored (s : Value) : Prop := ∀ p ∈ visited s.setElements, p.2 = p.1

/-- Of the items that equal one the base has not, the first and the last are one object. -/
def BatchConsistent (P : ProtoCore) (base : Option Value) (items : List Value) : Prop :=
  ∀ x ∈ items, (∀ s, base = some s → setGet P s (some x) = none) →
    items.find? (keyEquals P · x) = items.reverse.find? (keyEquals P · x)

/-- What is enumerated for an element is what looking it up answers. -/
structure Faithful (P : ProtoCore) (s : Value) : Prop where
  wellFormed : WellFormed P s
  isSet : isSet s = true
  stored : Stored s
  get : ∀ x, WellFormed P x → ∀ e ∈ elementsOf s, keyEquals P x e = true →
    setGet P s (some x) = some e

/-- What both sets have, they have as one object. -/
def Keeps (P : ProtoCore) (s v : Value) : Prop :=
  ∀ x, WellFormed P x → ∀ o o', setGet P s (some x) = some o → setGet P v (some x) = some o' →
    o' = o

section Lawful
variable (hP : P.Lawful)
include hP

theorem entry_self {s : Value} (hs : WellFormed P s) {p : Value × Value}
    (hp : p ∈ visited s.setElements) : entry P s p.1 = some p :=
  (entry_eq_some hP hs ((setElements_denotes hs).entry hp)).mpr ⟨hp, keyEquals_self _⟩

theorem Faithful.of_stored {s : Value} (hs : WellFormed P s) (hset : Sets.isSet s = true)
    (h : Stored s) : Faithful P s where
  wellFormed := hs
  isSet := hset
  stored := h
  get x hx e he hxe := by
    obtain ⟨p, hp, rfl⟩ := List.mem_map.mp he
    rw [setGet_eq hP hs hx, (entry_eq_some hP hs hx).mpr ⟨hp, hxe⟩, ← h p hp]
    rfl

omit hP in
theorem batchEntry_first {items : List Value} {k : Value} {p : Value × Value}
    (h : batchEntry P items k = some p) : p.1 ∈ items ∧ keyEquals P p.1 k = true := by
  obtain ⟨a, ha, h⟩ := Option.bind_eq_some_iff.mp h
  obtain ⟨b, -, rfl⟩ := Option.map_eq_some_iff.mp h
  have hprop := List.find?_some ha
  exact ⟨List.mem_of_find?_eq_some ha, hprop⟩

theorem baseEntry_eq_none {base : Option Value} (hbase : IsBase P base) {x : Value}
    (hx : WellFormed P x) :
    baseEntry P base x = none ↔ ∀ s, base = some s → setGet P s (some x) = none := by
  cases base with
  | none => simp [baseEntry]
  | some s =>
    show entry P s x = none ↔ _
    rw [show (∀ t, some s = some t → setGet P t (some x) = none) ↔ setGet P s (some x) = none by
      simp, setGet_eq hP (hbase.wellFormed s rfl) hx, Option.map_eq_none_iff]

/-- A batch added to a set that stores what it enumerates: exactly the consistent ones do too. -/
theorem Adds.stored_iff {base : Option Value} (hbase : IsBase P base)
    (hstored : ∀ s, base = some s → Stored s) {items : List Value}
    (hitems : ∀ x ∈ items, WellFormed P x) {v : Value} (h : Adds P base items v) :
    Stored v ↔ BatchConsistent P base items := by
  constructor
  · intro hv x hx habsent
    have hnone := (baseEntry_eq_none hP hbase (hitems x hx)).mpr habsent
    have hentry := h.entry x (hitems x hx)
    rw [hnone, Option.none_or] at hentry
    cases hb : batchEntry P items x with
    | none =>
      have := batchEntry_eq_none.mp hb x hx
      rw [keyEquals_self] at this
      cases this
    | some p =>
      rw [hb] at hentry
      have hp := ((entry_eq_some hP h.wellFormed (hitems x hx)).mp hentry).1
      have heq := hv p hp
      obtain ⟨a, ha, hlast⟩ := Option.bind_eq_some_iff.mp hb
      obtain ⟨b, hb', rfl⟩ := Option.map_eq_some_iff.mp hlast
      rw [ha, hb', show b = a from heq]
  · intro hc p hp
    have hk := (setElements_denotes h.wellFormed).entry hp
    have hself := entry_self hP h.wellFormed hp
    rw [h.entry p.1 hk] at hself
    cases hbe : baseEntry P base p.1 with
    | some q =>
      rw [hbe] at hself
      obtain rfl := Option.some.inj hself
      cases base with
      | none => cases hbe
      | some s =>
        exact hstored s rfl _ ((entry_eq_some hP (hbase.wellFormed s rfl) hk).mp hbe).1
    | none =>
      rw [hbe, Option.none_or] at hself
      have hfirst := (batchEntry_first hself).1
      have hsame := hc p.1 hfirst ((baseEntry_eq_none hP hbase hk).mp hbe)
      obtain ⟨a, ha, hb⟩ := Option.bind_eq_some_iff.mp hself
      obtain ⟨b, hb, rfl⟩ := Option.map_eq_some_iff.mp hb
      rw [ha, hb] at hsame
      exact (Option.some.inj hsame).symm

theorem Adds.keeps {s : Value} (hs : WellFormed P s) {items : List Value} {v : Value}
    (h : Adds P (some s) items v) : Keeps P s v := by
  intro x hx o o' ho ho'
  rw [setGet_eq hP hs hx] at ho
  rw [setGet_eq hP h.wellFormed hx, h.entry x hx] at ho'
  obtain ⟨p, hp, rfl⟩ := Option.map_eq_some_iff.mp ho
  rw [show baseEntry P (some s) x = some p from hp] at ho'
  exact (Option.some.inj ho').symm

omit hP in
theorem Removes.entry_of_entry {s : Value} {items : List Value} {v k : Value}
    (h : Removes P s items v) (hk : WellFormed P k) {p : Value × Value}
    (hp : Sets.entry P v k = some p) : Sets.entry P s k = some p := by
  rw [h.entry k hk] at hp
  split at hp
  · cases hp
  · exact hp

theorem Removes.stored {s : Value} (hs : WellFormed P s) (hstored : Stored s)
    {items : List Value} {v : Value} (h : Removes P s items v) : Stored v := by
  intro p hp
  have hk := (setElements_denotes h.wellFormed).entry hp
  have hself := h.entry_of_entry hk (entry_self hP h.wellFormed hp)
  exact hstored p ((entry_eq_some hP hs hk).mp hself).1

theorem Removes.keeps {s : Value} (hs : WellFormed P s) {items : List Value} {v : Value}
    (h : Removes P s items v) : Keeps P s v := by
  intro x hx o o' ho ho'
  rw [setGet_eq hP hs hx] at ho
  rw [setGet_eq hP h.wellFormed hx] at ho'
  obtain ⟨p, hp, rfl⟩ := Option.map_eq_some_iff.mp ho'
  rw [h.entry_of_entry hx hp] at ho
  exact Option.some.inj ho

/-- Sets that store what they enumerate, the elements of one among those of the other. -/
theorem Keeps.of_subset {s v : Value} (hs : Faithful P s) (hv : Faithful P v)
    (hsub : ∀ e ∈ elementsOf v, e ∈ elementsOf s) : Keeps P s v := by
  intro x hx o o' ho ho'
  rw [setGet_eq hP hv.wellFormed hx] at ho'
  obtain ⟨p, hp, rfl⟩ := Option.map_eq_some_iff.mp ho'
  obtain ⟨hmem, hxp⟩ := (entry_eq_some hP hv.wellFormed hx).mp hp
  have he := hsub p.1 (List.mem_map_of_mem hmem)
  rw [hs.get x hx p.1 he hxp] at ho
  rw [hv.stored p hmem]
  exact Option.some.inj ho

/-- Items no two of which are equal. -/
theorem BatchConsistent.of_distinct {items : List Value}
    (hitems : ∀ x ∈ items, WellFormed P x)
    (hd : items.Pairwise fun x y => keyEquals P x y = false) (base : Option Value) :
    BatchConsistent P base items := by
  intro x hx _
  have hboth : items.Pairwise fun x y => keyEquals P x y = false ∧ keyEquals P y x = false := by
    refine hd.imp_of_mem fun {x y} hx hy h => ⟨h, ?_⟩
    rw [Bool.eq_false_iff]
    intro hyx
    rw [keyEquals_symm hP (hitems y hy) (hitems x hx) hyx] at h
    cases h
  have hunique : ∀ y ∈ items, keyEquals P y x = true → y = x := by
    intro y hy hyx
    by_contra hne
    have hsymm : Std.Symm fun x y => keyEquals P x y = false ∧ keyEquals P y x = false :=
      ⟨fun _ _ h => ⟨h.2, h.1⟩⟩
    rw [(hboth.forall hy hx hne).1] at hyx
    cases hyx
  have hfind : ∀ l : List Value, (∀ y, y ∈ l ↔ y ∈ items) →
      l.find? (keyEquals P · x) = some x := by
    intro l hl
    have hsome : (l.find? (keyEquals P · x)).isSome :=
      List.find?_isSome.mpr ⟨x, (hl x).mpr hx, keyEquals_self x⟩
    obtain ⟨y, hy⟩ := Option.isSome_iff_exists.mp hsome
    have hyx := List.find?_some hy
    rw [hy, hunique y ((hl y).mp (List.mem_of_find?_eq_some hy)) hyx]
  rw [hfind items fun _ => .rfl, hfind items.reverse fun _ => List.mem_reverse]

/-- One item is the first and the last. -/
theorem BatchConsistent.single {x : Value} (hx : WellFormed P x) (base : Option Value) :
    BatchConsistent P base [x] :=
  .of_distinct hP (by simpa using hx) (List.pairwise_singleton ..) base

/-- The keys are as many as the items: no two items are equal. -/
theorem distinct_of_ncard {xs : List Value} (hxs : ∀ x ∈ xs, WellFormed P x) :
    ((keysOf hP xs).Finite ∧ (keysOf hP xs).ncard ≤ xs.length) ∧
      ((keysOf hP xs).ncard = xs.length → xs.Pairwise fun x y => keyEquals P x y = false) := by
  induction xs with
  | nil => simp [keysOf_nil]
  | cons x xs ih =>
    obtain ⟨hx, hxs'⟩ := List.forall_mem_cons.mp hxs
    obtain ⟨⟨hfin, hle⟩, hpair⟩ := ih hxs'
    rw [keysOf_cons hP hx]
    refine ⟨⟨hfin.insert _, (Set.ncard_insert_le _ _).trans (by simpa using hle)⟩, fun hcard => ?_⟩
    have hnot : key hP x hx ∉ keysOf hP xs := by
      intro hmem
      rw [Set.insert_eq_of_mem hmem, List.length_cons] at hcard
      omega
    rw [Set.ncard_insert_of_notMem hnot hfin, List.length_cons] at hcard
    refine List.pairwise_cons.mpr ⟨fun y hy => ?_, hpair (by omega)⟩
    rw [Bool.eq_false_iff]
    intro hxy
    refine hnot ((mem_keysOf hP hxs').mpr ⟨y, hy, ?_⟩)
    exact keyEquals_symm hP hx (hxs' y hy) hxy

end Lawful
end Objects

/-! ### Every sequence of operations -/

section Sessions
variable (K : Kernel) (describeKey : Value → String)

/-- A set literal of constants is the reader's; another one calls `hash-set`. -/
inductive SetOp where
  | literal (items : List Value)
  | call (c : Call) (args : List Value)
  | into (target source : Value)

namespace SetOp

def run : SetOp → Making Value
  | .literal items => readSet K describeKey items
  | .call c args => c.run K args
  | .into target source => Sets.into K target source

/-- The set whose elements stay, where the operation has one. -/
def base : SetOp → Option Value
  | .literal _ | .call .hashSet _ => none
  | .call _ args => args.head?
  | .into target _ => some target

def args : SetOp → List Value
  | .literal args | .call _ args => args
  | .into target source => [target, source]

def Takes : SetOp → Prop
  | .literal _ => True
  | .call c args => c.Takes K args
  | .into target _ => isSet target = true

/-- What the operation is applied to: a set made before where its elements are to stay, and
values of any kind. -/
structure On (made : List Value) (op : SetOp) : Prop where
  wellFormed : ∀ a ∈ op.args, WellFormed K.core a
  takes : op.Takes K
  made : ∀ s, op.base = some s → isSet s = true → s ∈ made

/-- A batch whose items come from outside, and what it is added to. The entries of a map come
from the walk. -/
def Consistent : SetOp → Prop
  | .call .hashSet args => BatchConsistent K.core none args
  | .call .set [coll] => isSet coll = true ∨ coll.asMap.isSome = true ∨
      ∀ items, collectElements K coll = .ok items → BatchConsistent K.core none items
  | .call .conj (s :: xs) => BatchConsistent K.core (some s) xs
  | .call .union (s :: ss) =>
    BatchConsistent K.core (if s = .nil then none else some s) (ss.flatMap elementsOf)
  | _ => True

end SetOp

/-- What the operations so far have answered. -/
structure Session where
  made : List Value
  next : Nat

/-- One more answer, by an operation that is consistent. -/
inductive Step : Session → Session → Prop
  | mk {σ : Session} {op : SetOp} {v : Value} {next' : Nat} : op.On K σ.made →
      op.Consistent K → op.run K describeKey σ.next = .ok (v, next') →
      Step σ ⟨σ.made ++ [v], next'⟩

end Sessions

section Lawful
variable {K : Kernel} {describeKey : Value → String} (hP : K.core.Lawful)

theorem noBase_faithful : ∀ s, (none : Option Value) = some s → Faithful K.core s := nofun

theorem Keeps.refl (s : Value) : Keeps K.core s s := by
  intro x _ o o' ho ho'
  exact Option.some.inj (ho'.symm.trans ho)

/-- What an operation may answer: nil or a set that stores what it enumerates, and what the base
had as it was. -/
structure Sound (base : Option Value) (v : Value) : Prop where
  faithful : isSet v = true → Faithful K.core v
  keeps : ∀ s, base = some s → isSet s = true → Keeps K.core s v

theorem Sound.self {base : Option Value} {s : Value} (hs : isSet s = true → Faithful K.core s)
    (hbase : ∀ t, base = some t → t = s) : Sound (K := K) base s where
  faithful := hs
  keeps t ht _ := by
    obtain rfl := hbase t ht
    exact .refl t

include hP

theorem setConj_sound {base : Option Value} (hbase : ∀ s, base = some s → Faithful K.core s)
    {items : List Value} (hitems : ∀ x ∈ items, WellFormed K.core x)
    (hc : BatchConsistent K.core base items) {next next' : Nat} {v : Value}
    (hrun : setConj K.core base (items.map some) next = .ok (v, next')) :
    Sound (K := K) base v ∧ Faithful K.core v ∧ Adds K.core base items v := by
  have hisBase : IsBase K.core base :=
    ⟨fun s hs => (hbase s hs).wellFormed, fun s hs => (hbase s hs).isSet⟩
  obtain ⟨v', next'', hrun', hadds⟩ := setConj_items hP hisBase hitems next
  rw [hrun] at hrun'
  cases hrun'
  have hstored := (hadds.stored_iff hP hisBase (fun s hs => (hbase s hs).stored) hitems).mpr hc
  have hfaithful := Faithful.of_stored hP hadds.wellFormed hadds.isSet hstored
  refine ⟨⟨fun _ => hfaithful, ?_⟩, hfaithful, hadds⟩
  rintro s rfl _
  exact hadds.keeps hP (hbase s rfl).wellFormed

theorem keep_sound {s : Value} (hs : isSet s = true → Faithful K.core s)
    (harg : IsSetArg K.core s) {q : Value → Bool} {next next' : Nat} {v : Value}
    (hrun : keep K s (elementsOf s) ((elementsOf s).filter q) next = .ok (v, next')) :
    Sound (K := K) (some s) v := by
  unfold keep at hrun
  split at hrun
  · cases hrun
    exact .self hs fun t ht => (Option.some.inj ht).symm
  · have hkept : ∀ x ∈ (elementsOf s).filter q, WellFormed K.core x := fun x hx =>
      elementsOf_wellFormed harg.wellFormed x (List.mem_filter.mp hx).1
    have hd := (elementsOf_distinct harg.wellFormed).filter q
    obtain ⟨-, hv, hadds⟩ := setConj_sound hP noBase_faithful hkept (.of_distinct hP hkept hd none) hrun
    refine ⟨fun _ => hv, ?_⟩
    rintro _ ⟨⟩ hset
    refine Keeps.of_subset hP (hs hset) hv fun e he => ?_
    obtain ⟨p, hp, rfl⟩ := List.mem_map.mp he
    have hk := (setElements_denotes hadds.wellFormed).entry hp
    have hself := entry_self hP hadds.wellFormed hp
    rw [hadds.entry p.1 hk] at hself
    exact (List.mem_filter.mp (batchEntry_first hself).1).1

/-- One element at a time is always consistent. -/
theorem conjAll_sound {items : List Value} (hitems : ∀ x ∈ items, WellFormed K.core x)
    {s : Value} (hs : Faithful K.core s) {next next' : Nat} {v : Value}
    (hrun : items.foldlM (fun acc x => conj K [acc, x]) s next = .ok (v, next')) :
    Faithful K.core v ∧ ∀ x, WellFormed K.core x → ∀ o, setGet K.core s (some x) = some o →
      setGet K.core v (some x) = some o := by
  induction items generalizing s next with
  | nil =>
    cases hrun
    exact ⟨hs, fun _ _ _ h => h⟩
  | cons x xs ih =>
    obtain ⟨hx, hxs⟩ := List.forall_mem_cons.mp hitems
    rw [List.foldlM_cons, StateExcept.bind_ok] at hrun
    obtain ⟨s₁, next₁, hconj, hrest⟩ := hrun
    have hset := hs.isSet
    have hconj : setConj K.core (some s) ([x].map some) next = .ok (s₁, next₁) := by
      cases s with
      | set => exact hconj
      | _ => cases hset
    have hbase : ∀ t, some s = some t → Faithful K.core t := by
      rintro _ ⟨⟩
      exact hs
    obtain ⟨-, hs₁, hadds⟩ := setConj_sound hP hbase (by simpa using hx) (.single hP hx _) hconj
    obtain ⟨hv, hkeep⟩ := ih hxs hs₁ hrest
    refine ⟨hv, fun y hy o ho => hkeep y hy o ?_⟩
    rw [setGet_eq hP hs.wellFormed hy] at ho
    rw [setGet_eq hP hs₁.wellFormed hy, hadds.entry y hy]
    obtain ⟨p, hp, rfl⟩ := Option.map_eq_some_iff.mp ho
    rw [show baseEntry K.core (some s) y = some p from hp]
    rfl

omit hP in
theorem firstDuplicate_eq_none {before xs : List Value} (h : firstDuplicate K before xs = none) :
    (∀ x ∈ xs, ∀ y ∈ before, keyEquals K.core y x = false) ∧
      xs.Pairwise fun x y => keyEquals K.core x y = false := by
  induction xs generalizing before with
  | nil => exact ⟨nofun, .nil⟩
  | cons x xs ih =>
    rw [firstDuplicate] at h
    split at h
    · cases h
    · rename_i hany
      rw [Bool.not_eq_true, List.any_eq_false] at hany
      obtain ⟨hall, hpair⟩ := ih h
      refine ⟨List.forall_mem_cons.mpr ⟨fun y hy => by simpa using hany y hy, fun z hz y hy => ?_⟩,
        List.pairwise_cons.mpr ⟨fun y hy => hall y hy x (by simp), hpair⟩⟩
      exact hall z hz y (List.mem_append_left _ hy)

/-- The reader accepts no literal with equal items. -/
theorem readSet_sound {items : List Value} (hitems : ∀ x ∈ items, WellFormed K.core x)
    {next next' : Nat} {v : Value} (hrun : readSet K describeKey items next = .ok (v, next')) :
    Sound (K := K) none v := by
  unfold readSet at hrun
  rw [StateExcept.bind_ok] at hrun
  obtain ⟨s, next₁, hs, hrun⟩ := hrun
  have hd : v = s ∧ items.Pairwise fun x y => keyEquals K.core x y = false := by
    split at hrun
    · rename_i hcount
      cases hrun
      refine ⟨rfl, (distinct_of_ncard hP hitems).2 ?_⟩
      obtain ⟨s', next'', hs', hadds⟩ := setConj_items hP IsBase.none hitems next
      rw [hs] at hs'
      cases hs'
      have hkeys := hadds.keys hP hitems .none
      rw [Option.elim_none, Set.empty_union] at hkeys
      rw [← hkeys, ncard_keys hP hadds.wellFormed, hcount]
    · cases hdup : firstDuplicate K [] items with
      | some x =>
        rw [hdup] at hrun
        cases hrun
      | none =>
        rw [hdup] at hrun
        cases hrun
        exact ⟨rfl, (firstDuplicate_eq_none hdup).2⟩
  obtain ⟨rfl, hd⟩ := hd
  exact (setConj_sound hP noBase_faithful hitems (.of_distinct hP hitems hd none) hs).1

theorem SetOp.sound {op : SetOp} {made : List Value}
    (hmade : ∀ s ∈ made, isSet s = true → Faithful K.core s) (hon : op.On K made)
    (hc : op.Consistent K) {next next' : Nat} {v : Value}
    (hrun : op.run K describeKey next = .ok (v, next')) : Sound (K := K) op.base v := by
  cases op with
  | literal items => exact readSet_sound hP hon.wellFormed hrun
  | into target source =>
    obtain ⟨ht, hsource⟩ := List.forall_mem_cons.mp hon.wellFormed
    have htarget := hmade target (hon.made target rfl hon.takes) hon.takes
    obtain ⟨items, next₁, hitems, hrest⟩ := StateExcept.bind_ok.mp hrun
    have hsource := hsource source (by simp)
    have hwf := walked_wellFormed hP hsource (fun h => seqToList_wellFormed hsource h) hitems
    obtain ⟨hv, hkeep⟩ := conjAll_sound hP hwf htarget hrest
    refine ⟨fun _ => hv, ?_⟩
    rintro _ ⟨⟩ _ x hx o o' ho ho'
    rw [hkeep x hx o ho] at ho'
    exact (Option.some.inj ho').symm
  | call c args =>
    have hargs := hon.wellFormed
    have htakes := hon.takes
    have hfirst : ∀ s ss, c ≠ .hashSet → args = s :: ss → isSet s = true → Faithful K.core s := by
      rintro s ss hne rfl hset
      refine hmade s (hon.made s ?_ hset) hset
      cases c <;> first | rfl | exact absurd rfl hne
    have hsets : (∀ s ∈ args, s = .nil ∨ isSet s = true) → ∀ s ∈ args, IsSetArg K.core s :=
      fun h s hs => ⟨hargs s hs, h s hs⟩
    cases c with
    | hashSet => exact (setConj_sound hP noBase_faithful hargs hc hrun).1
    | set =>
      obtain ⟨coll, items, rfl, hitems⟩ := htakes
      have hcoll := hargs coll List.mem_cons_self
      have hwf := collectElements_wellFormed hcoll hitems
      have hrun : (if isSet coll then pure coll else do
          let items ← walked (collectElements K) coll
          setConj K.core none (items.map some)) next = .ok (v, next') := hrun
      by_cases hset : isSet coll = true
      · rw [if_pos hset] at hrun
        cases hrun
        exact .self (hfirst _ [] nofun rfl) fun t ht => (Option.some.inj ht).symm
      · rw [if_neg hset] at hrun
        obtain ⟨objects, next₁, hwalk, hobjects⟩ := walked_ok hP hcoll hitems hwf (fun _ => rfl) next
        rw [StateExcept.run_bind hwalk] at hrun
        have hbatch : BatchConsistent K.core none objects := by
          rcases hc.resolve_left hset with hmap | hbatch
          · exact .of_distinct hP hobjects.wellFormed (hobjects.distinct hmap) none
          · cases hmap : coll.asMap with
            | some m => exact .of_distinct hP hobjects.wellFormed (hobjects.distinct (by simp [hmap])) none
            | none =>
              rw [hobjects.same hmap]
              exact hbatch items hitems
        refine ⟨(setConj_sound hP noBase_faithful hobjects.wellFormed hbatch hrun).1.faithful, ?_⟩
        rintro _ ⟨⟩ h
        exact absurd h hset
    | conj =>
      obtain ⟨s, xs, rfl, hset⟩ := htakes
      obtain ⟨hs, hxs⟩ := List.forall_mem_cons.mp hargs
      have hbase : ∀ t, some s = some t → Faithful K.core t := by
        rintro _ ⟨⟩
        exact hfirst s xs nofun rfl hset
      cases xs with
      | nil =>
        cases hrun
        exact .self (hfirst _ [] nofun rfl) fun t ht => (Option.some.inj ht).symm
      | cons x xs =>
        have hrun : setConj K.core (some s) ((x :: xs).map some) next = .ok (v, next') := by
          cases s with
          | set => exact hrun
          | _ => cases hset
        exact (setConj_sound hP hbase hxs hc hrun).1
    | disj =>
      obtain ⟨s, xs, rfl, hset⟩ := htakes
      obtain ⟨hs, hxs⟩ := List.forall_mem_cons.mp hargs
      rw [SetOp.run, Call.run, disj_eq ⟨hs, hset⟩] at hrun
      by_cases hnil : s = .nil
      · rw [if_pos hnil] at hrun
        cases hrun
        subst hnil
        exact .self nofun fun t ht => (Option.some.inj ht).symm
      · have hset := hset.resolve_left hnil
        rw [if_neg hnil] at hrun
        obtain ⟨v', next'', hrun', hremoves⟩ := disjAll_removes hP hs hset hxs next
        rw [hrun] at hrun'
        cases hrun'
        have hfaithful := hfirst s xs nofun rfl hset
        refine ⟨fun _ => .of_stored hP hremoves.wellFormed hremoves.isSet
          (hremoves.stored hP hs hfaithful.stored), ?_⟩
        rintro _ ⟨⟩ _
        exact hremoves.keeps hP hs
    | union =>
      cases args with
      | nil =>
        have hrun : setConj K.core none (([] : List Value).map some) next = .ok (v, next') := hrun
        exact (setConj_sound hP noBase_faithful hargs (.of_distinct hP hargs .nil none) hrun).1
      | cons s ss =>
        obtain ⟨hs, hss⟩ := List.forall_mem_cons.mp (hsets htakes)
        have hflat := flatMap_wellFormed hss
        rw [SetOp.run, Call.run, union_eq hs hss] at hrun
        have hc : BatchConsistent K.core (if s = .nil then none else some s)
          (ss.flatMap elementsOf) := hc
        by_cases hnil : s = .nil
        · rw [if_pos hnil] at hrun hc
          split at hrun
          · cases hrun
            exact ⟨nofun, fun _ _ _ _ _ _ _ _ ho' => by cases ho'⟩
          · refine ⟨(setConj_sound hP noBase_faithful hflat hc hrun).1.faithful, ?_⟩
            rintro _ ⟨⟩ h
            exact absurd hnil (not_nil_of_isSet h)
        · rw [if_neg hnil] at hrun hc
          have hbase : ∀ t, some s = some t → Faithful K.core t := by
            rintro _ ⟨⟩
            exact hfirst s ss nofun rfl (hs.isSet.resolve_left hnil)
          exact (setConj_sound hP hbase hflat hc hrun).1
    | intersection =>
      obtain ⟨hne, hall⟩ := htakes
      cases args with
      | nil => exact absurd rfl hne
      | cons s ss =>
        obtain ⟨hs, hss⟩ := List.forall_mem_cons.mp (hsets hall)
        rw [SetOp.run, Call.run, intersection_eq hs hss] at hrun
        split at hrun
        · cases hrun
          exact .self (hfirst _ ss nofun rfl) fun t ht => (Option.some.inj ht).symm
        · exact keep_sound hP (hfirst s ss nofun rfl) hs hrun
    | difference =>
      obtain ⟨hne, hall⟩ := htakes
      cases args with
      | nil => exact absurd rfl hne
      | cons s ss =>
        obtain ⟨hs, hss⟩ := List.forall_mem_cons.mp (hsets hall)
        rw [SetOp.run, Call.run, difference_eq hs hss] at hrun
        split at hrun
        · cases hrun
          exact .self (hfirst _ ss nofun rfl) fun t ht => (Option.some.inj ht).symm
        · exact keep_sound hP (hfirst s ss nofun rfl) hs hrun

theorem Step.faithful {σ σ' : Session} (h : Step K describeKey σ σ')
    (hmade : ∀ s ∈ σ.made, isSet s = true → Faithful K.core s) :
    ∀ s ∈ σ'.made, isSet s = true → Faithful K.core s := by
  obtain ⟨hon, hc, hrun⟩ := h
  intro s hs hset
  rcases List.mem_append.mp hs with hs | hs
  · exact hmade s hs hset
  · obtain rfl := List.mem_singleton.mp hs
    exact (SetOp.sound hP hmade hon hc hrun).faithful hset

end Lawful

/-- `[nil]` and `(nil)`, one key in two objects. -/
def nilVector : Value := .vector 1 [.nil]
def nilList : Value := .list 2 [.nil]

/-- `#{[nil]}` -/
def nilVectorSet : Value := .set 3 ⟨1, [(nilVector, nilVector)]⟩

end ProtoClojure.Maps.Sets
