import Mathlib.Data.Set.Card
import ProtoClojure.Sets.SetEntries

/-! The set primitives are the operations of sets of keys, values modulo `keyEquals`. -/

namespace ProtoClojure.Maps.Sets
open KeyedMap

/-! ### Keys -/

section Keys
variable {P : ProtoCore} (hP : P.Lawful)

def keySetoid : Setoid {v : Value // WellFormed P v} where
  r a b := keyEquals P a.1 b.1 = true
  iseqv := {
    refl := fun a => keyEquals_self a.1
    symm := fun {a b} h => keyEquals_symm hP a.2 b.2 h
    trans := fun {a b c} hab hbc => keyEquals_trans hP a.2 b.2 c.2 hab hbc }

abbrev Key := Quotient (keySetoid hP)

def key (v : Value) (h : WellFormed P v) : Key hP := Quotient.mk (keySetoid hP) ⟨v, h⟩

theorem key_eq {a b : Value} {ha : WellFormed P a} {hb : WellFormed P b} :
    key hP a ha = key hP b hb ↔ keyEquals P a b = true :=
  Quotient.eq (r := keySetoid hP)

/-- The keys of some values. -/
def keysOf (xs : List Value) : Set (Key hP) := {k | ∃ x h, x ∈ xs ∧ key hP x h = k}

/-- The keys of a set; nil has none. -/
def keys (s : Value) : Set (Key hP) := keysOf hP (elementsOf s)

theorem keySet_ext {S T : Set (Key hP)} (h : ∀ v hv, key hP v hv ∈ S ↔ key hP v hv ∈ T) :
    S = T := by
  ext k
  obtain ⟨⟨v, hv⟩, rfl⟩ := k.exists_rep
  exact h v hv

theorem mem_keysOf {xs : List Value} (hxs : ∀ x ∈ xs, WellFormed P x) {v : Value}
    {hv : WellFormed P v} : key hP v hv ∈ keysOf hP xs ↔ ∃ x ∈ xs, keyEquals P x v = true := by
  constructor
  · rintro ⟨x, hx, hmem, heq⟩
    exact ⟨x, hmem, (key_eq hP).mp heq⟩
  · rintro ⟨x, hmem, heq⟩
    exact ⟨x, hxs x hmem, hmem, (key_eq hP).mpr heq⟩

theorem keysOf_nil : keysOf hP [] = ∅ := by
  ext k
  simp [keysOf]

theorem keysOf_append (xs ys : List Value) :
    keysOf hP (xs ++ ys) = keysOf hP xs ∪ keysOf hP ys := by
  ext k
  constructor
  · rintro ⟨x, hx, hmem, rfl⟩
    exact (List.mem_append.mp hmem).imp (fun h => ⟨x, hx, h, rfl⟩) fun h => ⟨x, hx, h, rfl⟩
  · rintro (⟨x, hx, hmem, rfl⟩ | ⟨x, hx, hmem, rfl⟩)
    · exact ⟨x, hx, List.mem_append_left _ hmem, rfl⟩
    · exact ⟨x, hx, List.mem_append_right _ hmem, rfl⟩

theorem mem_keys {s v : Value} (hs : WellFormed P s) {hv : WellFormed P v} :
    key hP v hv ∈ keys hP s ↔ (entry P s v).isSome := by
  rw [keys, mem_keysOf hP (elementsOf_wellFormed hs), entry_isSome hP hs hv]
  refine exists_congr fun e => and_congr_right fun he => ?_
  have hwf := elementsOf_wellFormed hs e he
  exact ⟨keyEquals_symm hP hwf hv, keyEquals_symm hP hv hwf⟩

theorem mem_keysOf_batch {xs : List Value} (hxs : ∀ x ∈ xs, WellFormed P x) {v : Value}
    {hv : WellFormed P v} : key hP v hv ∈ keysOf hP xs ↔ (batchEntry P xs v).isSome := by
  rw [mem_keysOf hP hxs, Option.isSome_iff_ne_none, Ne, batchEntry_eq_none]
  simp

theorem mem_keys_setGet {s v : Value} (hs : WellFormed P s) {hv : WellFormed P v} :
    key hP v hv ∈ keys hP s ↔ (setGet P s (some v)).isSome := by
  rw [mem_keys hP hs, setGet_eq hP hs hv, Option.isSome_map]

theorem keysOf_cons {x : Value} (hx : WellFormed P x) (xs : List Value) :
    keysOf hP (x :: xs) = insert (key hP x hx) (keysOf hP xs) := by
  ext k
  constructor
  · rintro ⟨y, hy, hmem, rfl⟩
    rcases List.mem_cons.mp hmem with rfl | hmem
    · exact .inl rfl
    · exact .inr ⟨y, hy, hmem, rfl⟩
  · rintro (rfl | ⟨y, hy, hmem, rfl⟩)
    · exact ⟨x, hx, List.mem_cons_self, rfl⟩
    · exact ⟨y, hy, List.mem_cons_of_mem _ hmem, rfl⟩

/-- Elements no two of which are equal are as many as their keys. -/
theorem ncard_keysOf {xs : List Value} (hxs : ∀ x ∈ xs, WellFormed P x)
    (hd : xs.Pairwise fun x y => keyEquals P x y = false) :
    (keysOf hP xs).Finite ∧ (keysOf hP xs).ncard = xs.length := by
  induction xs with
  | nil => simp [keysOf_nil]
  | cons x xs ih =>
    obtain ⟨hx, hxs'⟩ := List.forall_mem_cons.mp hxs
    obtain ⟨hne, hd⟩ := List.pairwise_cons.mp hd
    obtain ⟨hfin, hcard⟩ := ih hxs' hd
    have hnot : key hP x hx ∉ keysOf hP xs := by
      rw [mem_keysOf hP hxs']
      rintro ⟨y, hy, heq⟩
      have := keyEquals_symm hP (hxs' y hy) hx heq
      rw [hne y hy] at this
      cases this
    rw [keysOf_cons hP hx]
    exact ⟨hfin.insert _, by rw [Set.ncard_insert_of_notMem hnot hfin, hcard, List.length_cons]⟩

theorem elementsOf_distinct {s : Value} (hs : WellFormed P s) :
    (elementsOf s).Pairwise fun x y => keyEquals P x y = false :=
  List.pairwise_map.mpr (setElements_denotes hs).distinct

theorem setCount_eq (s : Value) : setCount s = (elementsOf s).length := by
  rw [setCount, mapCount_eq, elementsOf, List.length_map]

/-- The count of a set is the number of its keys. -/
theorem ncard_keys {s : Value} (hs : WellFormed P s) : (keys hP s).ncard = setCount s := by
  rw [setCount_eq]
  exact (ncard_keysOf hP (elementsOf_wellFormed hs) (elementsOf_distinct hs)).2

/-! ### Adding, removing and keeping -/

theorem Adds.keys {base : Option Value} {items : List Value} {v : Value}
    (hitems : ∀ x ∈ items, WellFormed P x) (hbase : IsBase P base) (h : Adds P base items v) :
    keys hP v = base.elim ∅ (keys hP) ∪ keysOf hP items := by
  apply keySet_ext hP
  intro k hk
  rw [mem_keys hP h.wellFormed, h.entry k hk, Set.mem_union, mem_keysOf_batch hP hitems,
    Option.isSome_or, Bool.or_eq_true]
  refine or_congr_left ?_
  cases base with
  | none => simp [baseEntry]
  | some s => exact (mem_keys hP (hbase.wellFormed s rfl)).symm

theorem Adds.same_of_keys {s : Value} {items : List Value} {v : Value}
    (hitems : ∀ x ∈ items, WellFormed P x) (hbase : IsBase P (some s))
    (h : Adds P (some s) items v) (heq : Sets.keys hP v = Sets.keys hP s) : v = s := by
  refine h.same (fun x hx => ?_) s rfl
  have hmem : key hP x (hitems x hx) ∈ Sets.keys hP v := by
    rw [h.keys hP hitems hbase]
    exact .inr ⟨x, hitems x hx, hx, rfl⟩
  rw [heq] at hmem
  exact (mem_keys hP (hbase.wellFormed s rfl)).mp hmem

theorem Removes.keys {s v : Value} {items : List Value} (hs : WellFormed P s)
    (hitems : ∀ x ∈ items, WellFormed P x) (h : Removes P s items v) :
    keys hP v = keys hP s \ keysOf hP items := by
  apply keySet_ext hP
  intro k hk
  rw [mem_keys hP h.wellFormed, h.entry k hk, Set.mem_sdiff, mem_keys hP hs,
    mem_keysOf hP hitems]
  cases hany : items.any (keyEquals P · k) with
  | true =>
    obtain ⟨x, hx, heq⟩ := List.any_eq_true.mp hany
    simp only [if_true, Option.isSome_none, Bool.false_eq_true, false_iff, not_and, not_not]
    exact fun _ => ⟨x, hx, heq⟩
  | false =>
    rw [List.any_eq_false] at hany
    simp only [Bool.false_eq_true, if_false, iff_self_and]
    rintro - ⟨x, hx, heq⟩
    exact hany x hx heq

theorem Removes.same_of_keys {s v : Value} {items : List Value} (hs : WellFormed P s)
    (hitems : ∀ x ∈ items, WellFormed P x) (h : Removes P s items v)
    (heq : Sets.keys hP v = Sets.keys hP s) : v = s := by
  refine h.same fun x hx => ?_
  rw [← Option.not_isSome_iff_eq_none]
  intro hsome
  have hmem : key hP x (hitems x hx) ∈ Sets.keys hP s := (mem_keys hP hs).mpr hsome
  rw [← heq, h.keys hP hs hitems] at hmem
  exact hmem.2 ⟨x, hitems x hx, hx, rfl⟩

theorem keysOf_filter {xs : List Value} {q : Value → Bool}
    {T : Set (Key hP)} (h : ∀ x hx, x ∈ xs → (q x = true ↔ key hP x hx ∈ T)) :
    keysOf hP (xs.filter q) = keysOf hP xs ∩ T := by
  ext k
  constructor
  · rintro ⟨x, hx, hmem, rfl⟩
    obtain ⟨hmem, hq⟩ := List.mem_filter.mp hmem
    exact ⟨⟨x, hx, hmem, rfl⟩, (h x hx hmem).mp hq⟩
  · rintro ⟨⟨x, hx, hmem, rfl⟩, hT⟩
    exact ⟨x, hx, List.mem_filter.mpr ⟨hmem, (h x hx hmem).mpr hT⟩, rfl⟩

/-- Distinct elements that lose no key lose none. -/
theorem length_filter_of_keys {xs : List Value} (hxs : ∀ x ∈ xs, WellFormed P x)
    (hd : xs.Pairwise fun x y => keyEquals P x y = false) {q : Value → Bool}
    (heq : keysOf hP (xs.filter q) = keysOf hP xs) : (xs.filter q).length = xs.length := by
  have hsub := ncard_keysOf hP (fun x hx => hxs x (List.mem_filter.mp hx).1) (hd.filter q)
  rw [← hsub.2, heq, (ncard_keysOf hP hxs hd).2]

end Keys

/-! ### The primitives -/

section Primitives
variable {K : Kernel} (hP : K.core.Lawful)

/-- A set, or nil for the empty set. -/
structure IsSetArg (P : ProtoCore) (s : Value) : Prop where
  wellFormed : WellFormed P s
  isSet : s = .nil ∨ isSet s = true

theorem IsSetArg.nil {P : ProtoCore} : IsSetArg P .nil := ⟨.embedded _, .inl rfl⟩

theorem setArg_ok {s : Value} (h : IsSetArg K.core s) (who : String) : setArg K who s = .ok s := by
  unfold setArg
  rw [if_pos h.isSet]

theorem setArgs_ok {ss : List Value} (h : ∀ s ∈ ss, IsSetArg K.core s) (who : String) :
    setArgs K who ss = .ok () := by
  induction ss with
  | nil => rfl
  | cons s ss ih =>
    obtain ⟨hs, hss⟩ := List.forall_mem_cons.mp h
    rw [setArgs, setArg_ok hs]
    exact ih hss

theorem collectElements_set {s : Value} (h : IsSetArg K.core s) :
    collectElements K s = .ok (elementsOf s) := by
  unfold collectElements
  rcases h.isSet with rfl | hs
  · rfl
  · rw [if_pos hs, setForEach_collect]

theorem collectArgs_ok {ss : List Value} (h : ∀ s ∈ ss, IsSetArg K.core s) (who : String) :
    collectArgs K who ss = .ok (ss.flatMap elementsOf) := by
  induction ss with
  | nil => rfl
  | cons s ss ih =>
    obtain ⟨hs, hss⟩ := List.forall_mem_cons.mp h
    rw [collectArgs, setArg_ok hs, List.flatMap_cons]
    show (collectElements K s >>= _) = _
    rw [collectElements_set hs]
    show (collectArgs K who ss >>= _) = _
    rw [ih hss]
    rfl

theorem keysOf_flatMap (ss : List Value) :
    keysOf hP (ss.flatMap elementsOf) = {k | ∃ s ∈ ss, k ∈ keys hP s} := by
  induction ss with
  | nil => simp [keysOf_nil]
  | cons s ss ih =>
    rw [List.flatMap_cons, keysOf_append, ih]
    ext k
    simp [keys]

theorem flatMap_wellFormed {ss : List Value} (h : ∀ s ∈ ss, IsSetArg K.core s) :
    ∀ x ∈ ss.flatMap elementsOf, WellFormed K.core x := by
  intro x hx
  obtain ⟨s, hs, hx⟩ := List.mem_flatMap.mp hx
  exact elementsOf_wellFormed (h s hs).wellFormed x hx

theorem keys_nil : keys hP .nil = ∅ := keysOf_nil hP

/-- What a primitive answers whose result has the keys `S`: nil only where all that could
contribute is nil, and the first set itself when nothing changes. -/
structure Answers (sources : List Value) (S : Set (Key hP)) (v : Value) : Prop where
  isSetArg : IsSetArg K.core v
  keys : keys hP v = S
  nil : v = .nil → sources ≠ [] ∧ ∀ s ∈ sources, s = .nil
  same : ∀ s, sources.head? = some s → isSet s = true → S = Sets.keys hP s → v = s

theorem not_nil_of_isSet {v : Value} (h : isSet v = true) : v ≠ .nil := by
  rintro rfl
  cases h

theorem Answers.of_adds {base : Option Value} {items sources : List Value} {v : Value}
    (hitems : ∀ x ∈ items, WellFormed K.core x) (hbase : IsBase K.core base)
    (hsources : ∀ s, sources.head? = some s → isSet s = true → base = some s)
    (h : Adds K.core base items v) :
    Answers hP sources (base.elim ∅ (Sets.keys hP) ∪ keysOf hP items) v where
  isSetArg := ⟨h.wellFormed, .inr h.isSet⟩
  keys := h.keys hP hitems hbase
  nil hv := absurd hv (not_nil_of_isSet h.isSet)
  same s hs hset heq := by
    obtain rfl := hsources s hs hset
    exact h.same_of_keys hP hitems hbase ((h.keys hP hitems hbase).trans heq)

/-- The first argument, when it is what the answer is. -/
theorem Answers.first {s : Value} (h : IsSetArg K.core s) (ss : List Value)
    (hss : s = .nil → ∀ t ∈ ss, t = .nil) : Answers hP (s :: ss) (Sets.keys hP s) s where
  isSetArg := h
  keys := rfl
  nil hv := ⟨by simp, List.forall_mem_cons.mpr ⟨hv, hss hv⟩⟩
  same t ht _ _ := Option.some.inj ht

theorem IsBase.none {P : ProtoCore} : IsBase P none := ⟨nofun, nofun⟩

theorem IsBase.some {P : ProtoCore} {s : Value} (hs : WellFormed P s)
    (hset : Sets.isSet s = true) :
    IsBase P (some s) := by
  constructor
  · rintro _ ⟨⟩
    exact hs
  · rintro _ ⟨⟩
    exact hset

theorem setConj_answers {base : Option Value} {items : List Value} (sources : List Value)
    (hitems : ∀ x ∈ items, WellFormed K.core x) (hbase : IsBase K.core base)
    (hsources : ∀ s, sources.head? = some s → isSet s = true → base = some s) (next : Nat) :
    ∃ v next', setConj K.core base (items.map some) next = .ok (v, next') ∧
      Answers hP sources (base.elim ∅ (Sets.keys hP) ∪ keysOf hP items) v := by
  obtain ⟨v, next', hrun, hadds⟩ := setConj_items hP hbase hitems next
  exact ⟨v, next', hrun, .of_adds hP hitems hbase hsources hadds⟩

theorem raise_bind {α β : Type} (a : α) (f : α → Making β) :
    ((raise (.ok a) : Making α) >>= f) = f a := rfl

theorem raise_ok {α : Type} {r : Result α} {next next' : Nat} {a : α}
    (h : (raise r : Making α) next = .ok (a, next')) : r = .ok a ∧ next' = next := by
  cases r with
  | error e => cases h
  | ok b =>
    cases h
    exact ⟨rfl, rfl⟩

/-! ### Each primitive -/

/-- Whether every set has an element. -/
def inAll (P : ProtoCore) (ss : List Value) (e : Value) : Bool :=
  ss.all fun s => (setGet P s (some e)).isSome

def inAny (P : ProtoCore) (ss : List Value) (e : Value) : Bool :=
  ss.any fun s => (setGet P s (some e)).isSome

theorem disj_eq {s : Value} (hs : IsSetArg K.core s) (xs : List Value) :
    disj K (s :: xs) = if s = .nil then pure .nil else disjAll K s xs := by
  unfold disj
  dsimp only
  rw [setArg_ok hs, raise_bind]

theorem union_eq {s : Value} {ss : List Value} (hs : IsSetArg K.core s)
    (hss : ∀ t ∈ ss, IsSetArg K.core t) : union K (s :: ss) =
      if s = .nil then
        if ss.isEmpty then pure .nil
        else setConj K.core none ((ss.flatMap elementsOf).map some)
      else setConj K.core (some s) ((ss.flatMap elementsOf).map some) := by
  unfold union
  dsimp only
  rw [setArg_ok hs, raise_bind, collectArgs_ok hss, raise_bind]

theorem intersection_eq {s : Value} {ss : List Value} (hs : IsSetArg K.core s)
    (hss : ∀ t ∈ ss, IsSetArg K.core t) : intersection K (s :: ss) =
      if ss.isEmpty then pure s
      else keep K s (elementsOf s) ((elementsOf s).filter (inAll K.core ss)) := by
  unfold intersection
  dsimp only
  rw [setArg_ok hs, raise_bind, setArgs_ok hss, collectElements_set hs]
  rfl

theorem difference_eq {s : Value} {ss : List Value} (hs : IsSetArg K.core s)
    (hss : ∀ t ∈ ss, IsSetArg K.core t) : difference K (s :: ss) =
      if ss.isEmpty || s = .nil then pure s
      else keep K s (elementsOf s) ((elementsOf s).filter fun e => !inAny K.core ss e) := by
  unfold difference
  dsimp only
  rw [setArg_ok hs, raise_bind, setArgs_ok hss, raise_bind, collectElements_set hs]
  rfl

theorem hashSet_answers (args : List Value) (hargs : ∀ x ∈ args, WellFormed K.core x)
    (next : Nat) : ∃ v next', hashSet K args next = .ok (v, next') ∧
      Answers hP [] (keysOf hP args) v := by
  obtain ⟨v, next', hrun, h⟩ := setConj_answers hP [] hargs .none nofun next
  rw [Option.elim_none, Set.empty_union] at h
  exact ⟨v, next', hrun, h⟩

theorem seqToList_wellFormed {coll : Value} (h : WellFormed K.core coll) {items : List Value}
    (hitems : seqToList K coll = .ok items) : ∀ x ∈ items, WellFormed K.core x := by
  cases coll with
  | string form address text =>
    cases hitems
    intro x hx
    obtain ⟨c, -, rfl⟩ := List.mem_map.mp hx
    exact .mk _ (List.forall_mem_nil _) (by simp [Value.asMap, Value.setElements])
  | embedded w =>
    cases w with
    | nil =>
      cases hitems
      exact List.forall_mem_nil _
    | _ => cases hitems
  | double | largeInteger | identity => cases hitems
  | _ =>
    cases hitems
    exact h.elements

theorem collectElements_wellFormed {coll : Value} (h : WellFormed K.core coll)
    {items : List Value} (hitems : collectElements K coll = .ok items) :
    ∀ x ∈ items, WellFormed K.core x := by
  unfold collectElements at hitems
  split at hitems
  · cases hitems
    rw [setForEach_collect]
    exact elementsOf_wellFormed h
  · exact seqToList_wellFormed h hitems

/-! #### What a walk meets -/

/-- The vector of an entry. -/
def IsEntry (x : Value) (e : Value × Value) : Prop := ∃ address, x = .vector address [e.1, e.2]

theorem newEntries_spec (es : List (Value × Value)) (next : Nat) :
    ∃ items next', newEntries es next = .ok (items, next') ∧ List.Forall₂ IsEntry items es := by
  induction es generalizing next with
  | nil => exact ⟨[], next, rfl, .nil⟩
  | cons e es ih =>
    obtain ⟨items, next', hrun, hitems⟩ := ih (next + 1)
    refine ⟨.vector next [e.1, e.2] :: items, next', ?_, .cons ⟨next, rfl⟩ hitems⟩
    show (newEntries es >>= fun xs => pure (.vector next [e.1, e.2] :: xs)) (next + 1) = _
    rw [StateExcept.run_bind hrun]
    rfl

theorem IsEntry.wellFormed {m : HashedMap Value Value} {x : Value} {e : Value × Value}
    (hm : WellFormed K.core (.map m)) (he : e ∈ m.entries) (h : IsEntry x e) :
    WellFormed K.core x := by
  obtain ⟨address, rfl⟩ := h
  have hk := hm.parts (List.mem_append_left _ (List.mem_map_of_mem he))
  have hv := hm.parts (List.mem_append_right _ (List.mem_map_of_mem he))
  exact .vector (by simpa using ⟨hk, hv⟩)

include hP in
theorem IsEntry.keyEquals_iff {x y : Value} {e f : Value × Value} (hx : IsEntry x e)
    (hy : IsEntry y f) (hwx : WellFormed K.core x) (hwy : WellFormed K.core y) :
    keyEquals K.core x y = true ↔ KeyEq K.core e.1 f.1 ∧ KeyEq K.core e.2 f.2 := by
  refine (hwx.keyEq_iff hP hwy).trans ?_
  obtain ⟨a, rfl⟩ := hx
  obtain ⟨b, rfl⟩ := hy
  constructor
  · rintro (heq | hm)
    · obtain ⟨-, hitems⟩ := Value.vector.inj heq
      obtain ⟨h₁, h₂⟩ : e.1 = f.1 ∧ e.2 = f.2 := by simpa using hitems
      exact ⟨h₁ ▸ .refl _, h₂ ▸ .refl _⟩
    · simpa [Value.shape, Shape.Matches] using hm
  · exact fun h => .inr (by simpa [Value.shape, Shape.Matches] using h)

/-- What a walk of the collection answers: the elements, or new vectors of a map's entries. -/
structure Walked (coll : Value) (items objects : List Value) : Prop where
  wellFormed : ∀ x ∈ objects, WellFormed K.core x
  keys : keysOf hP objects = keysOf hP items
  same : coll.asMap = none → objects = items
  distinct : coll.asMap.isSome = true → objects.Pairwise fun x y => keyEquals K.core x y = false

theorem newEntries_walked {m : HashedMap Value Value} (hm : WellFormed K.core (.map m)) (next : Nat) :
    ∃ objects next', newEntries m.entries next = .ok (objects, next') ∧
      Walked hP (.map m) (Value.map m).elements objects := by
  obtain ⟨objects, next', hrun, hobjects⟩ := newEntries_spec m.entries next
  have hentry : ∀ x ∈ objects, ∃ e ∈ m.entries, IsEntry x e := fun x hx =>
    (List.forall₂_iff_get.mp hobjects).elim fun hlen hall => by
      obtain ⟨i, rfl⟩ := List.get_of_mem hx
      exact ⟨_, List.get_mem _ _, hall i.1 i.2 (hlen ▸ i.2)⟩
  have hobject : ∀ e ∈ m.entries, ∃ x ∈ objects, IsEntry x e := fun e he =>
    (List.forall₂_iff_get.mp hobjects).elim fun hlen hall => by
      obtain ⟨i, rfl⟩ := List.get_of_mem he
      exact ⟨_, List.get_mem _ ⟨i.1, hlen.symm ▸ i.2⟩, hall i.1 (hlen.symm ▸ i.2) i.2⟩
  have hwf : ∀ x ∈ objects, WellFormed K.core x := fun x hx => by
    obtain ⟨e, he, hxe⟩ := hentry x hx
    exact hxe.wellFormed hm he
  refine ⟨objects, next', hrun, hwf, keySet_ext hP fun v hv => ?_, nofun, fun _ => ?_⟩
  · rw [mem_keysOf hP hwf, mem_keysOf hP hm.elements]
    have hself : ∀ {x y e}, e ∈ m.entries → IsEntry x e → IsEntry y e →
        keyEquals K.core x y = true := fun he hx hy =>
      (hx.keyEquals_iff hP hy (hx.wellFormed hm he) (hy.wellFormed hm he)).mpr ⟨.refl _, .refl _⟩
    constructor
    · rintro ⟨x, hx, hxv⟩
      obtain ⟨e, he, hxe⟩ := hentry x hx
      have hye : IsEntry (.vector 0 [e.1, e.2]) e := ⟨0, rfl⟩
      exact ⟨_, List.mem_map_of_mem he, keyEquals_trans hP (hye.wellFormed hm he)
        (hxe.wellFormed hm he) hv (hself he hye hxe) hxv⟩
    · rintro ⟨y, hy, hyv⟩
      obtain ⟨e, he, rfl⟩ := List.mem_map.mp hy
      have hye : IsEntry (.vector 0 [e.1, e.2]) e := ⟨0, rfl⟩
      obtain ⟨x, hx, hxe⟩ := hobject e he
      exact ⟨x, hx, keyEquals_trans hP (hxe.wellFormed hm he) (hye.wellFormed hm he) hv
        (hself he hxe hye) hyv⟩
  · have hd : Distinct (clojureKeySemantics K.core) m.entries := hm.distinct (.inl rfl)
    rw [List.pairwise_iff_getElem]
    intro i j hi hj hij
    obtain ⟨hlen, hall⟩ := List.forall₂_iff_get.mp hobjects
    have hne := List.pairwise_iff_getElem.mp hd i j (hlen ▸ hi) (hlen ▸ hj) hij
    rw [Bool.eq_false_iff]
    intro heq
    have hkey := ((hall i hi (hlen ▸ hi)).keyEquals_iff hP (hall j hj (hlen ▸ hj))
      (hwf _ (List.getElem_mem hi)) (hwf _ (List.getElem_mem hj))).mp heq
    have hkey : keyEquals K.core m.entries[i].1 m.entries[j].1 = true := hkey.1
    exact absurd hkey (by simpa [clojureKeySemantics, semantics] using hne)

/-- A walk that answers the elements of every map answers objects for what it answers. -/
theorem walked_ok {elements : Value → Result (List Value)} {coll : Value} {items : List Value}
    (h : WellFormed K.core coll) (hitems : elements coll = .ok items)
    (hwf : ∀ x ∈ items, WellFormed K.core x) (hmap : ∀ m, elements (.map m) = .ok (Value.map m).elements)
    (next : Nat) : ∃ objects next', walked elements coll next = .ok (objects, next') ∧
      Walked hP coll items objects := by
  cases coll with
  | map m =>
    rw [hmap m] at hitems
    cases hitems
    exact newEntries_walked hP h next
  | _ =>
    refine ⟨items, next, ?_, hwf, rfl, fun _ => rfl, nofun⟩
    show (raise (elements _) : Making _) next = _
    rw [hitems]
    rfl

include hP in
theorem walked_wellFormed {elements : Value → Result (List Value)} {coll : Value} {objects : List Value}
    {next next' : Nat} (h : WellFormed K.core coll)
    (hwf : ∀ {items}, elements coll = .ok items → ∀ x ∈ items, WellFormed K.core x)
    (hrun : walked elements coll next = .ok (objects, next')) : ∀ x ∈ objects, WellFormed K.core x := by
  cases coll with
  | map m =>
    obtain ⟨objects', next'', hrun', hobjects⟩ := newEntries_walked hP h next
    cases hrun.symm.trans hrun'
    exact hobjects.wellFormed
  | _ => exact hwf (raise_ok hrun).1

theorem set_answers {coll : Value} (h : WellFormed K.core coll) {items : List Value}
    (hitems : collectElements K coll = .ok items) (next : Nat) :
    ∃ v next', set K [coll] next = .ok (v, next') ∧ Answers hP [coll] (keysOf hP items) v := by
  unfold Sets.set
  dsimp only
  by_cases hset : isSet coll = true
  · rw [collectElements_set ⟨h, .inr hset⟩] at hitems
    cases hitems
    rw [if_pos hset]
    exact ⟨coll, next, rfl, .first hP ⟨h, .inr hset⟩ [] (by simp)⟩
  · rw [if_neg hset]
    have hsources : ∀ s, [coll].head? = some s → isSet s = true → (none : Option Value) = some s := by
      rintro s ⟨⟩ hs
      exact absurd hs hset
    obtain ⟨objects, next₁, hwalk, hobjects⟩ :=
      walked_ok hP h hitems (collectElements_wellFormed h hitems) (fun _ => rfl) next
    obtain ⟨v, next', hrun, hans⟩ :=
      setConj_answers hP [coll] hobjects.wellFormed .none hsources next₁
    rw [Option.elim_none, Set.empty_union, hobjects.keys] at hans
    exact ⟨v, next', (StateExcept.run_bind hwalk).trans hrun, hans⟩

theorem conj_answers {s : Value} (hs : WellFormed K.core s) (hset : isSet s = true)
    {xs : List Value} (hxs : ∀ x ∈ xs, WellFormed K.core x) (next : Nat) :
    ∃ v next', conj K (s :: xs) next = .ok (v, next') ∧
      Answers hP [s] (keys hP s ∪ keysOf hP xs) v := by
  cases xs with
  | nil =>
    rw [keysOf_nil, Set.union_empty]
    exact ⟨s, next, rfl, .first hP ⟨hs, .inr hset⟩ [] (by simp)⟩
  | cons x xs =>
    have hsources : ∀ t, [s].head? = some t → isSet t = true → some s = some t := fun t ht _ => ht
    obtain ⟨v, next', hrun, hans⟩ := setConj_answers hP [s] hxs (.some hs hset) hsources next
    refine ⟨v, next', ?_, hans⟩
    cases s with
    | set => exact hrun
    | _ => cases hset

include hP in
theorem disjAll_removes {s : Value} (hs : WellFormed K.core s) (hset : isSet s = true)
    {xs : List Value} (hxs : ∀ x ∈ xs, WellFormed K.core x) (next : Nat) :
    ∃ v next', disjAll K s xs next = .ok (v, next') ∧ Removes K.core s xs v := by
  induction xs generalizing s next with
  | nil => exact ⟨s, next, rfl, hs, hset, fun _ _ => rfl, fun _ => rfl⟩
  | cons x xs ih =>
    obtain ⟨hx, hxs⟩ := List.forall_mem_cons.mp hxs
    obtain ⟨v, next₁, hrun, hv⟩ := setDisj_removes hP hs hset hx next
    obtain ⟨w, next', hrun', hw⟩ := ih hv.wellFormed hv.isSet hxs next₁
    refine ⟨w, next', ?_, hv.trans hw⟩
    rw [disjAll, StateExcept.run_bind hrun]
    exact hrun'

theorem disj_answers {s : Value} (hs : IsSetArg K.core s) {xs : List Value}
    (hxs : ∀ x ∈ xs, WellFormed K.core x) (next : Nat) :
    ∃ v next', disj K (s :: xs) next = .ok (v, next') ∧
      Answers hP [s] (keys hP s \ keysOf hP xs) v := by
  rw [disj_eq hs]
  rcases hs.isSet with rfl | hset
  · rw [if_pos rfl]
    refine ⟨.nil, next, rfl, ?_⟩
    rw [keys_nil, Set.empty_sdiff, ← keys_nil hP]
    exact .first hP .nil [] (by simp)
  · obtain ⟨v, next', hrun, hv⟩ := disjAll_removes hP hs.wellFormed hset hxs next
    have hkeys := hv.keys hP hs.wellFormed hxs
    refine ⟨v, next', ?_, ⟨hv.wellFormed, .inr hv.isSet⟩, hkeys,
      fun hnil => absurd hnil (not_nil_of_isSet hv.isSet), ?_⟩
    · rw [if_neg (not_nil_of_isSet hset)]
      exact hrun
    · rintro t ⟨⟩ _ heq
      exact hv.same_of_keys hP hs.wellFormed hxs (hkeys.trans heq)

theorem union_answers {args : List Value} (hargs : ∀ s ∈ args, IsSetArg K.core s) (next : Nat) :
    ∃ v next', union K args next = .ok (v, next') ∧
      Answers hP args (⋃ s ∈ args, keys hP s) v := by
  cases args with
  | nil =>
    obtain ⟨v, next', hrun, h⟩ := hashSet_answers hP [] nofun next
    refine ⟨v, next', hrun, ?_⟩
    rw [keysOf_nil] at h
    simpa using h
  | cons s ss =>
    obtain ⟨hs, hss⟩ := List.forall_mem_cons.mp hargs
    have hunion : (⋃ t ∈ s :: ss, keys hP t) = keys hP s ∪ keysOf hP (ss.flatMap elementsOf) := by
      rw [keysOf_flatMap]
      ext k
      simp
    have hflat := flatMap_wellFormed hss
    rw [union_eq hs hss, hunion]
    rcases hs.isSet with rfl | hset
    · rw [if_pos rfl]
      cases ss with
      | nil =>
        refine ⟨.nil, next, rfl, ?_⟩
        rw [List.flatMap_nil, keysOf_nil, Set.union_empty]
        exact .first hP .nil [] (by simp)
      | cons t ts =>
        have hsources : ∀ u, (Value.nil :: t :: ts).head? = some u → isSet u = true →
            (none : Option Value) = some u := by
          rintro u ⟨⟩ hu
          cases hu
        obtain ⟨v, next', hrun, h⟩ := setConj_answers hP (.nil :: t :: ts) hflat .none hsources next
        rw [keys_nil]
        exact ⟨v, next', hrun, h⟩
    · rw [if_neg (not_nil_of_isSet hset)]
      exact setConj_answers hP (s :: ss) hflat (.some hs.wellFormed hset)
        (fun u hu _ => hu) next

/-- Keeping the elements of the first set whose keys are in `T`. -/
theorem keep_answers {s : Value} (hs : IsSetArg K.core s) {q : Value → Bool} {T : Set (Key hP)}
    (hq : ∀ x hx, x ∈ elementsOf s → (q x = true ↔ key hP x hx ∈ T)) (next : Nat) :
    ∃ v next', keep K s (elementsOf s) ((elementsOf s).filter q) next = .ok (v, next') ∧
      Answers hP [s] (keys hP s ∩ T) v := by
  have helems := elementsOf_wellFormed hs.wellFormed
  have hkept : ∀ x ∈ (elementsOf s).filter q, WellFormed K.core x := fun x hx =>
    helems x (List.mem_filter.mp hx).1
  have hkeys : keysOf hP ((elementsOf s).filter q) = keys hP s ∩ T := keysOf_filter hP hq
  unfold keep
  split
  · rename_i hlen
    have hall := (List.filter_sublist (p := q) (l := elementsOf s)).eq_of_length hlen
    rw [hall] at hkeys
    rw [← hkeys]
    exact ⟨s, next, rfl, .first hP hs [] (by simp)⟩
  · rename_i hlen
    obtain ⟨v, next', hrun, h⟩ := setConj_answers hP [] hkept .none nofun next
    rw [Option.elim_none, Set.empty_union, hkeys] at h
    refine ⟨v, next', hrun, h.isSetArg, h.keys, fun hnil => absurd rfl (h.nil hnil).1, ?_⟩
    rintro t ⟨⟩ _ heq
    have hsame := length_filter_of_keys hP helems (elementsOf_distinct hs.wellFormed)
      (q := q) (hkeys.trans heq)
    exact absurd hsame hlen

/-- The first argument alone decides what is nil and what is unchanged. -/
theorem intersection_answers {s : Value} {ss : List Value} (hs : IsSetArg K.core s)
    (hss : ∀ t ∈ ss, IsSetArg K.core t) (next : Nat) :
    ∃ v next', intersection K (s :: ss) next = .ok (v, next') ∧
      Answers hP [s] (⋂ t ∈ s :: ss, keys hP t) v := by
  have hinter : (⋂ t ∈ s :: ss, keys hP t) = keys hP s ∩ {k | ∀ t ∈ ss, k ∈ keys hP t} := by
    ext k
    simp
  rw [intersection_eq hs hss, hinter]
  cases ss with
  | nil =>
    refine ⟨s, next, rfl, ?_⟩
    simpa using Answers.first hP hs [] (by simp)
  | cons t ts =>
    rw [List.isEmpty_cons, if_neg Bool.false_ne_true]
    refine keep_answers hP hs (fun x hx _ => ?_) next
    rw [inAll, List.all_eq_true]
    exact forall₂_congr fun u hu => (mem_keys_setGet hP (hss u hu).wellFormed).symm

theorem difference_answers {s : Value} {ss : List Value} (hs : IsSetArg K.core s)
    (hss : ∀ t ∈ ss, IsSetArg K.core t) (next : Nat) :
    ∃ v next', difference K (s :: ss) next = .ok (v, next') ∧
      Answers hP [s] (keys hP s \ ⋃ t ∈ ss, keys hP t) v := by
  have hdiff : keys hP s \ (⋃ t ∈ ss, keys hP t) =
      keys hP s ∩ {k | ∀ t ∈ ss, k ∉ keys hP t} := by
    ext k
    simp
  rw [difference_eq hs hss, hdiff]
  split
  · rename_i hfirst
    refine ⟨s, next, rfl, ?_⟩
    rw [Bool.or_eq_true, List.isEmpty_iff, decide_eq_true_iff] at hfirst
    rcases hfirst with rfl | rfl
    · simpa using Answers.first hP hs [] (by simp)
    · rw [keys_nil, Set.empty_inter, ← keys_nil hP]
      exact .first hP hs [] (by simp)
  · refine keep_answers hP hs (fun x hx _ => ?_) next
    rw [Bool.not_eq_true', inAny, List.any_eq_false]
    exact forall₂_congr fun u hu => not_congr (mem_keys_setGet hP (hss u hu).wellFormed).symm

theorem isSubset_answers {a b : Value} (ha : IsSetArg K.core a) (hb : IsSetArg K.core b) :
    ∃ r, isSubset K a b = .ok r ∧ (r = true ↔ keys hP a ⊆ keys hP b) := by
  unfold isSubset
  rw [collectElements_set ha]
  refine ⟨_, rfl, ?_⟩
  rw [List.all_eq_true]
  constructor
  · rintro h k ⟨x, hx, hmem, rfl⟩
    exact (mem_keys_setGet hP hb.wellFormed).mpr (h x hmem)
  · intro h x hmem
    have hx := elementsOf_wellFormed ha.wellFormed x hmem
    have hkey : key hP x hx ∈ keys hP b := h ⟨x, hx, hmem, rfl⟩
    exact (mem_keys_setGet hP hb.wellFormed).mp hkey

end Primitives

/-! ### Any calls, in any order -/

inductive Call where
  | hashSet
  | set
  | conj
  | disj
  | union
  | intersection
  | difference

namespace Call
variable (K : Kernel)

def run : Call → List Value → Making Value
  | .hashSet => Sets.hashSet K
  | .set => Sets.set K
  | .conj => Sets.conj K
  | .disj => Sets.disj K
  | .union => Sets.union K
  | .intersection => Sets.intersection K
  | .difference => Sets.difference K

/-- Sets where sets are called for, nil for the empty set; `conj` is onto a set, and `set` of
what can be walked. -/
def Takes : Call → List Value → Prop
  | .hashSet, _ => True
  | .set, args => ∃ coll items, args = [coll] ∧ collectElements K coll = .ok items
  | .conj, args => ∃ s xs, args = s :: xs ∧ isSet s = true
  | .disj, args => ∃ s xs, args = s :: xs ∧ (s = .nil ∨ isSet s = true)
  | .union, args => ∀ s ∈ args, s = .nil ∨ isSet s = true
  | .intersection, args | .difference, args => args ≠ [] ∧ ∀ s ∈ args, s = .nil ∨ isSet s = true

/-- The arguments whose elements the answer may have. -/
def sources : Call → List Value → List Value
  | .hashSet, _ => []
  | .set, args | .union, args => args
  | .conj, args | .disj, args | .intersection, args | .difference, args => args.take 1

variable {K} (hP : K.core.Lawful)

/-- What the call means for the keys. -/
def denotes : Call → List Value → Set (Key hP)
  | .hashSet, args => keysOf hP args
  | .set, args => {k | ∃ coll ∈ args, ∃ items, collectElements K coll = .ok items ∧
      k ∈ keysOf hP items}
  | .conj, s :: xs => keys hP s ∪ keysOf hP xs
  | .disj, s :: xs => keys hP s \ keysOf hP xs
  | .union, args => ⋃ s ∈ args, keys hP s
  | .intersection, args => ⋂ s ∈ args, keys hP s
  | .difference, s :: ss => keys hP s \ ⋃ t ∈ ss, keys hP t
  | .conj, [] | .disj, [] | .difference, [] => ∅

theorem run_answers {c : Call} {args : List Value} (hargs : ∀ a ∈ args, WellFormed K.core a)
    (htakes : c.Takes K args) (next : Nat) : ∃ v next', c.run K args next = .ok (v, next') ∧
      Answers hP (c.sources args) (c.denotes hP args) v := by
  have hsets : (∀ s ∈ args, s = .nil ∨ isSet s = true) → ∀ s ∈ args, IsSetArg K.core s :=
    fun h s hs => ⟨hargs s hs, h s hs⟩
  cases c with
  | hashSet => exact hashSet_answers hP args hargs next
  | set =>
    obtain ⟨coll, items, rfl, hitems⟩ := htakes
    obtain ⟨v, next', hrun, h⟩ :=
      set_answers hP (hargs coll List.mem_cons_self) hitems next
    have hmeans : Call.set.denotes hP [coll] = keysOf hP items := by
      simp [denotes, hitems]
    exact ⟨v, next', hrun, hmeans ▸ h⟩
  | conj =>
    obtain ⟨s, xs, rfl, hset⟩ := htakes
    obtain ⟨hs, hxs⟩ := List.forall_mem_cons.mp hargs
    exact conj_answers hP hs hset hxs next
  | disj =>
    obtain ⟨s, xs, rfl, hset⟩ := htakes
    obtain ⟨hs, hxs⟩ := List.forall_mem_cons.mp hargs
    exact disj_answers hP ⟨hs, hset⟩ hxs next
  | union => exact union_answers hP (hsets htakes) next
  | intersection =>
    obtain ⟨hne, hall⟩ := htakes
    cases args with
    | nil => exact absurd rfl hne
    | cons s ss =>
      obtain ⟨hs, hss⟩ := List.forall_mem_cons.mp (hsets hall)
      exact intersection_answers hP hs hss next
  | difference =>
    obtain ⟨hne, hall⟩ := htakes
    cases args with
    | nil => exact absurd rfl hne
    | cons s ss =>
      obtain ⟨hs, hss⟩ := List.forall_mem_cons.mp (hsets hall)
      exact difference_answers hP hs hss next

end Call

/-- Values of any kind, and what calls make of values made before. -/
inductive Made (K : Kernel) : Value → Prop
  | given (v : Value) : WellFormed K.core v → Made K v
  | call (c : Call) (args : List Value) (next next' : Nat) (v : Value) : (∀ a ∈ args, Made K a) →
      c.Takes K args → c.run K args next = .ok (v, next') → Made K v

theorem Made.wellFormed {K : Kernel} (hP : K.core.Lawful) {v : Value} (h : Made K v) :
    WellFormed K.core v := by
  induction h with
  | given v h => exact h
  | call c args next next' v _ htakes hrun ih =>
    obtain ⟨v', next'', hrun', hans⟩ := Call.run_answers hP ih htakes next
    rw [hrun] at hrun'
    cases hrun'
    exact hans.isSetArg.wellFormed

theorem count_eq {K : Kernel} (hP : K.core.Lawful) {v : Value} (h : IsSetArg K.core v) :
    count K [v] = .ok (keys hP v).ncard := by
  rcases h.isSet with rfl | hset
  · rw [keys_nil, Set.ncard_empty]
    rfl
  · rw [ncard_keys hP h.wellFormed]
    cases v with
    | set => rfl
    | _ => cases hset

/-- Every call, on sets made by any calls before, answers the operation on sets of keys; so do
`subset?` and `superset?`. -/
theorem set_algebra {K : Kernel} (hP : K.core.Lawful) :
    (∀ (c : Call) args, (∀ a ∈ args, Made K a) → c.Takes K args → ∀ next, ∃ v next',
      c.run K args next = .ok (v, next') ∧
        Answers hP (c.sources args) (c.denotes hP args) v ∧
        count K [v] = .ok (c.denotes hP args).ncard) ∧
    ∀ a b, Made K a → Made K b → (a = .nil ∨ isSet a = true) → (b = .nil ∨ isSet b = true) →
      ∃ r r', subset K [a, b] = .ok (fromBool r) ∧ superset K [a, b] = .ok (fromBool r') ∧
        (r = true ↔ keys hP a ⊆ keys hP b) ∧ (r' = true ↔ keys hP b ⊆ keys hP a) := by
  constructor
  · intro c args hmade htakes next
    have hargs : ∀ a ∈ args, WellFormed K.core a := fun a ha => (hmade a ha).wellFormed hP
    obtain ⟨v, next', hrun, hans⟩ := Call.run_answers hP hargs htakes next
    refine ⟨v, next', hrun, hans, ?_⟩
    rw [count_eq hP hans.isSetArg, hans.keys]
  · intro a b ha hb hsa hsb
    have hA : IsSetArg K.core a := ⟨ha.wellFormed hP, hsa⟩
    have hB : IsSetArg K.core b := ⟨hb.wellFormed hP, hsb⟩
    obtain ⟨r, hr, hiff⟩ := isSubset_answers hP hA hB
    obtain ⟨r', hr', hiff'⟩ := isSubset_answers hP hB hA
    refine ⟨r, r', ?_, ?_, hiff, hiff'⟩
    · rw [subset, setArg_ok hA, setArg_ok hB]
      show (isSubset K a b >>= fun r => pure (fromBool r)) = _
      rw [hr]
      rfl
    · rw [superset, setArg_ok hA, setArg_ok hB]
      show (isSubset K b a >>= fun r => pure (fromBool r)) = _
      rw [hr']
      rfl

/-- `#{nil}` -/
def onlyNil : Value := .set 1 ⟨2, [(.nil, .nil)]⟩

/-- `(union nil #{nil})` -/
theorem set_algebra_union_nil : (∃ v next',
    Call.union.run integerKernel [.nil, onlyNil] 3 = .ok (v, next') ∧
      Answers (K := integerKernel) collidingCore_lawful [.nil, onlyNil]
        (Call.union.denotes (K := integerKernel) collidingCore_lawful [.nil, onlyNil]) v ∧
      count integerKernel [v] = .ok (Call.union.denotes (K := integerKernel)
        collidingCore_lawful [.nil, onlyNil]).ncard) ∧
    ∃ r r', subset integerKernel [.nil, onlyNil] = .ok (fromBool r) ∧
      superset integerKernel [.nil, onlyNil] = .ok (fromBool r') ∧
      (r = true ↔ keys collidingCore_lawful .nil ⊆ keys collidingCore_lawful onlyNil) ∧
      (r' = true ↔ keys collidingCore_lawful onlyNil ⊆ keys collidingCore_lawful .nil) := by
  have hnil : Made integerKernel .nil := .given _ (.embedded _)
  have hset : Made integerKernel onlyNil := by
    refine .given _ (.mk _ ?_ ?_)
    · simpa [Value.parts, onlyNil] using WellFormed.embedded .nil
    · rintro m (h | h)
      · cases h
      · cases h
        exact List.pairwise_singleton ..
  have h := set_algebra (K := integerKernel) collidingCore_lawful
  refine ⟨h.1 .union _ ?_ ?_ 3, h.2 _ _ hnil hset (.inl rfl) (.inr rfl)⟩
  · exact List.forall_mem_cons.mpr ⟨hnil, List.forall_mem_cons.mpr ⟨hset, List.forall_mem_nil _⟩⟩
  · exact List.forall_mem_cons.mpr ⟨.inl rfl, List.forall_mem_cons.mpr ⟨.inr rfl, List.forall_mem_nil _⟩⟩

/-- `(conj nil true)` is a list, and `(union nil nil)` a new set. -/
theorem nil_for_the_empty_set :
    (¬ ∃ v next', conj integerKernel [.nil, .embedded (.bool true)] 0 = .ok (v, next') ∧
      isSet v = true) ∧
    union integerKernel [.nil, .nil] 0 = .ok (.set 0 ⟨0, []⟩, 1) := by
  constructor
  · rintro ⟨v, next', h, hset⟩
    cases h
    cases hset
  · decide +kernel

end ProtoClojure.Maps.Sets
