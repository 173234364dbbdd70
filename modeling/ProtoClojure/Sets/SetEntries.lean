import ProtoClojure.Sets.SetOps
import ProtoClojure.Runtime.MapFunctions

/-! What the operations on sets do to the entry a key names. -/

namespace ProtoClojure.Maps.Sets
open KeyedMap
variable {P : ProtoCore}

/-- The elements as a walk meets them. -/
def elementsOf (s : Value) : List Value := (visited s.setElements).map Prod.fst

/-- The stored element a key names, and the object it is sent to. -/
def entry (P : ProtoCore) (s k : Value) : Option (Value × Value) :=
  find (clojureKeySemantics P) (visited s.setElements) k

/-- What the first and the last of the items that equal a key are. -/
def batchEntry (P : ProtoCore) (items : List Value) (k : Value) : Option (Value × Value) :=
  (items.find? (keyEquals P · k)).bind fun first =>
    (items.reverse.find? (keyEquals P · k)).map fun last => (first, last)

/-! ### Batches of pairs -/

theorem find?_reverse_isSome {α : Type} (p : α → Bool) (xs : List α) :
    (xs.reverse.find? p).isSome = (xs.find? p).isSome := by
  rw [Bool.eq_iff_iff, List.find?_isSome, List.find?_isSome]
  simp

theorem batchEntry_eq_none {items : List Value} {k : Value} :
    batchEntry P items k = none ↔ ∀ x ∈ items, keyEquals P x k = false := by
  have hsome := find?_reverse_isSome (keyEquals P · k) items
  have hnone : items.find? (keyEquals P · k) = none ↔ ∀ x ∈ items, keyEquals P x k = false := by
    simp
  rw [← hnone]
  unfold batchEntry
  cases hf : items.find? (keyEquals P · k) with
  | none => simp
  | some a =>
    rw [hf] at hsome
    obtain ⟨b, hb⟩ := Option.isSome_iff_exists.mp hsome
    simp [hb]

theorem batchEntry_cons (x : Value) (items : List Value) (k : Value) :
    batchEntry P (x :: items) k =
      if keyEquals P x k then
        some (x, ((batchEntry P items k).map Prod.snd).getD x)
      else batchEntry P items k := by
  have hsome := find?_reverse_isSome (keyEquals P · k) items
  unfold batchEntry
  rw [List.find?_cons, List.reverse_cons, List.find?_append, List.find?_singleton]
  cases hx : keyEquals P x k with
  | false => simp
  | true =>
    cases hf : items.find? (keyEquals P · k) with
    | none =>
      rw [hf] at hsome
      rw [Option.isSome_none, Option.isSome_eq_false_iff, Option.isNone_iff_eq_none] at hsome
      simp [hsome]
    | some a =>
      rw [hf] at hsome
      obtain ⟨b, hb⟩ := Option.isSome_iff_exists.mp hsome
      simp [hb]

/-- Equal keys name one entry. -/
def Respects (P : ProtoCore) (f : Mapping) : Prop :=
  ∀ a b, WellFormed P a → WellFormed P b → keyEquals P a b = true → f a = f b

section Lawful
variable (hP : P.Lawful)
include hP

theorem keyEquals_symm {a b : Value} (ha : WellFormed P a) (hb : WellFormed P b)
    (h : keyEquals P a b = true) : keyEquals P b a = true :=
  (semantics_lawful hP).symm a b ha hb h

theorem keyEquals_trans {a b c : Value} (ha : WellFormed P a) (hb : WellFormed P b)
    (hc : WellFormed P c) (hab : keyEquals P a b = true) (hbc : keyEquals P b c = true) :
    keyEquals P a c = true :=
  (semantics_lawful hP).trans a b c ha hb hc hab hbc

theorem keyEquals_congr {a b c : Value} (ha : WellFormed P a) (hb : WellFormed P b)
    (hc : WellFormed P c) (hab : keyEquals P a b = true) :
    keyEquals P c a = keyEquals P c b := by
  rw [Bool.eq_iff_iff]
  exact ⟨fun h => keyEquals_trans hP hc ha hb h hab,
    fun h => keyEquals_trans hP hc hb ha h (keyEquals_symm hP ha hb hab)⟩

theorem respects_of_denotes {m : Option (HashedMap Value Value)} {f : Mapping}
    (h : Denotes P m f) : Respects P f := by
  intro a b ha hb hab
  rw [← h.find a ha, ← h.find b hb]
  refine find_congr ((semantics_lawful hP).mono ?_) hab
  rintro x (hx | rfl)
  · rcases hx with rfl | hx
    · exact ha
    · obtain ⟨e, he, rfl⟩ := List.mem_map.mp hx
      exact h.entry he
  · exact hb

/-- Each element of a list with itself. -/
def selfPairs (es : List Value) : List (Option Value) := es.flatMap fun e => [some e, some e]

theorem Respects.assoc {f : Mapping} (hf : Respects P f) {e v : Value} (he : WellFormed P e) :
    Respects P (f.assoc P e v) := by
  intro a b ha hb hab
  unfold Mapping.assoc
  rw [keyEquals_congr hP ha hb he hab, hf a b ha hb hab]

/-- Keys already there keep their first object and take the last; others take both from the
batch. -/
theorem assocAll_selfPairs {f : Mapping} (hf : Respects P f) {es : List Value}
    (hes : ∀ e ∈ es, WellFormed P e) {k : Value} (hk : WellFormed P k) :
    f.assocAll P (selfPairs es) k =
      match batchEntry P es k with
      | none => f k
      | some (first, last) => some (((f k).map Prod.fst).getD first, last) := by
  induction es generalizing f with
  | nil => rfl
  | cons e es ih =>
    obtain ⟨he, hes⟩ := List.forall_mem_cons.mp hes
    show (f.assoc P e e).assocAll P (selfPairs es) k = _
    rw [ih (hf.assoc hP he) hes, batchEntry_cons]
    unfold Mapping.assoc
    cases hek : keyEquals P e k with
    | false => simp
    | true =>
      rw [hf e k he hk hek]
      cases batchEntry P es k with
      | none => simp
      | some p => simp

/-! ### Sets -/

omit hP in
theorem setElements_denotes {s : Value} (hs : WellFormed P s) :
    Denotes P s.setElements (entry P s) := by
  refine ⟨fun m hm => ?_, fun _ _ => rfl⟩
  have hd := hs.distinct (.inr hm)
  cases s with
  | set i m' =>
    cases hm
    refine .map (fun e he => ⟨hs.parts ?_, hs.parts ?_⟩) hd
    · exact List.mem_append_left _ (List.mem_map_of_mem he)
    · exact List.mem_append_right _ (List.mem_map_of_mem he)
  | _ => cases hm

omit hP in
theorem elementsOf_wellFormed {s : Value} (hs : WellFormed P s) :
    ∀ e ∈ elementsOf s, WellFormed P e := by
  intro e he
  obtain ⟨p, hp, rfl⟩ := List.mem_map.mp he
  exact (setElements_denotes hs).entry hp

theorem setGet_eq {s k : Value} (hs : WellFormed P s) (hk : WellFormed P k) :
    setGet P s (some k) = (entry P s k).map Prod.snd :=
  ((setElements_denotes hs).behaves hP).get (some k) hk

theorem entry_isSome {s k : Value} (hs : WellFormed P s) (hk : WellFormed P k) :
    (entry P s k).isSome ↔ ∃ e ∈ elementsOf s, keyEquals P k e = true := by
  rw [((setElements_denotes hs).behaves hP).keys k hk]
  simp [elementsOf]

/-- An entry is stored under its own element. -/
theorem entry_eq_some {s k : Value} (hs : WellFormed P s) (hk : WellFormed P k)
    {p : Value × Value} :
    entry P s k = some p ↔ p ∈ visited s.setElements ∧ keyEquals P k p.1 = true :=
  (setElements_denotes hs).eq_some hP hk

end Lawful

theorem setForEach_collect (s : Value) :
    setForEach s (fun out e => out ++ [e]) [] = elementsOf s := by
  have h : ∀ (es : List (Value × Value)) (acc : List Value),
      es.foldl (fun out e => out ++ [e.1]) acc = acc ++ es.map Prod.fst := by
    intro es
    induction es with
    | nil => simp
    | cons e es ih => simp [ih]
  unfold setForEach elementsOf mapForEach
  cases s.setElements with
  | none => rfl
  | some m => rw [visited_some]; exact h m.entries []

/-! ### Adding -/

theorem absentPairs_eq (elements : Option (HashedMap Value Value)) (items : List (Option Value)) :
    absentPairs P elements items =
      selfPairs ((items.map orNil).filter fun e => (mapGet P elements (some e)).isNone) := by
  induction items with
  | nil => rfl
  | cons item items ih =>
    rw [absentPairs, List.map_cons, List.filter_cons, ih]
    cases mapGet P elements (some (orNil item)) with
    | none => rfl
    | some v => rfl

theorem selfPairs_even (es : List Value) : (selfPairs es).length % 2 = 0 := by
  induction es with
  | nil => rfl
  | cons e es ih =>
    have h : (selfPairs (e :: es)).length = (selfPairs es).length + 2 := rfl
    omega

/-- The set a batch is added to: none is the empty set. -/
structure IsBase (P : ProtoCore) (base : Option Value) : Prop where
  wellFormed : ∀ s, base = some s → WellFormed P s
  isSet : ∀ s, base = some s → isSet s = true

def baseEntry (P : ProtoCore) (base : Option Value) (k : Value) : Option (Value × Value) :=
  base.bind fun s => entry P s k

/-- What adding a batch makes: the entries of the base, and those of the batch where the base
has none. -/
structure Adds (P : ProtoCore) (base : Option Value) (items : List Value) (v : Value) : Prop where
  wellFormed : WellFormed P v
  isSet : isSet v = true
  entry : ∀ k, WellFormed P k → entry P v k = (baseEntry P base k).or (batchEntry P items k)
  same : (∀ x ∈ items, (baseEntry P base x).isSome) → ∀ s, base = some s → v = s

theorem wellFormed_of_denotes {m : HashedMap Value Value} {f : Mapping}
    (h : Denotes P (some m) f) (address : Nat) : WellFormed P (.set address m) := by
  have hm := h.wellFormed m rfl
  refine .mk _ (fun w hw => hm.parts hw) fun m' hm' => ?_
  rcases hm' with hm' | hm'
  · cases hm'
  · cases hm'
    exact hm.distinct (.inl rfl)

/-- Among the absent items, those that equal an absent key are all that equal it. -/
theorem batchEntry_absent {k : Value} {f : Mapping} (hf : Respects P f) {items : List Value}
    (hitems : ∀ x ∈ items, WellFormed P x) (hk : WellFormed P k) :
    batchEntry P (items.filter fun e => (f e).isNone) k =
      if (f k).isSome then none else batchEntry P items k := by
  have hmem : ∀ x ∈ items, keyEquals P x k = true → f x = f k := fun x hx h =>
    hf x k (hitems x hx) hk h
  cases hfk : f k with
  | some e =>
    rw [Option.isSome_some, if_pos rfl, batchEntry_eq_none]
    intro x hx
    obtain ⟨hx, hnone⟩ := List.mem_filter.mp hx
    rw [Bool.eq_false_iff]
    intro h
    rw [hmem x hx h, hfk] at hnone
    cases hnone
  | none =>
    have hsame : ∀ x ∈ items,
        decide ((f x).isNone = true ∧ keyEquals P x k = true) = keyEquals P x k := by
      intro x hx
      cases h : keyEquals P x k with
      | false => simp
      | true => simp [hmem x hx h, hfk]
    rw [if_neg (by simp)]
    unfold batchEntry
    rw [List.find?_filter, ← List.filter_reverse, List.find?_filter]
    rw [List.find?_congr hsame, List.find?_congr fun x hx => hsame x (List.mem_reverse.mp hx)]

theorem IsBase.denotes {base : Option Value} (h : IsBase P base) :
    Denotes P (base.bind Value.setElements) (baseEntry P base) := by
  cases base with
  | none => exact .null
  | some s => exact setElements_denotes (h.wellFormed s rfl)

section Adding
variable (hP : P.Lawful) {base : Option Value} (hbase : IsBase P base)
  {items : List (Option Value)} (hitems : ∀ x ∈ items.map orNil, WellFormed P x)
include hP hbase hitems

theorem absentPairs_base : absentPairs P (base.bind Value.setElements) items =
    selfPairs ((items.map orNil).filter fun e => (baseEntry P base e).isNone) := by
  rw [absentPairs_eq]
  congr 1
  refine List.filter_congr fun e he => ?_
  have hget : mapGet P (base.bind Value.setElements) (some e) =
      (baseEntry P base e).map Prod.snd := (hbase.denotes.behaves hP).get (some e) (hitems e he)
  rw [hget]
  cases baseEntry P base e <;> rfl

/-- A set of what was absent and the base. -/
theorem mapAssocPairs_absent : ∃ m, mapAssocPairs P (base.bind Value.setElements)
      (absentPairs P (base.bind Value.setElements) items) = .ok m ∧
    ∀ address, WellFormed P (.set address m) ∧ ∀ k, WellFormed P k →
      entry P (.set address m) k =
        (baseEntry P base k).or (batchEntry P (items.map orNil) k) := by
  rw [absentPairs_base hP hbase hitems]
  have habsent : ∀ e ∈ (items.map orNil).filter fun e => (baseEntry P base e).isNone,
      WellFormed P e := fun e he => hitems e (List.mem_filter.mp he).1
  have hpairs : ∀ v ∈ selfPairs ((items.map orNil).filter fun e =>
      (baseEntry P base e).isNone), WellFormed P (orNil v) := by
    intro v hv
    obtain ⟨e, he, hv⟩ := List.mem_flatMap.mp hv
    have hv : v = some e := by simpa using hv
    rw [hv]
    exact habsent e he
  obtain ⟨m, hm⟩ : ∃ m, mapAssocPairs P (base.bind Value.setElements)
      (selfPairs ((items.map orNil).filter fun e => (baseEntry P base e).isNone)) = .ok m := by
    unfold mapAssocPairs
    rw [if_neg (by simp [selfPairs_even])]
    exact ⟨_, rfl⟩
  have hafter := hbase.denotes.mapAssocPairs hP hpairs hm
  have hresp := respects_of_denotes hP hbase.denotes
  refine ⟨m, hm, fun address => ⟨wellFormed_of_denotes hafter address, fun k hk => ?_⟩⟩
  show find (clojureKeySemantics P) (visited (some m)) k = _
  rw [hafter.find k hk, assocAll_selfPairs hP hresp habsent hk,
    batchEntry_absent hresp hitems hk]
  cases baseEntry P base k with
  | some e => rfl
  | none =>
    rw [if_neg (by simp)]
    cases batchEntry P (items.map orNil) k with
    | none => rfl
    | some p => rfl

theorem setConj_adds (next : Nat) : ∃ v next', setConj P base items next = .ok (v, next') ∧
    Adds P base (items.map orNil) v := by
  obtain ⟨m, hm, hnew⟩ := mapAssocPairs_absent hP hbase hitems
  have hnone : absentPairs P (base.bind Value.setElements) items = [] ↔
      ∀ x ∈ items.map orNil, (baseEntry P base x).isSome := by
    rw [absentPairs_base hP hbase hitems]
    simp [selfPairs, List.flatMap_eq_nil_iff, Option.isSome_iff_ne_none]
  unfold setConj
  cases hkv : absentPairs P (base.bind Value.setElements) items with
  | cons kv kvs =>
    rw [hkv] at hm
    refine ⟨.set next m, next + 1, ?_, (hnew next).1, rfl, (hnew next).2, fun hall => ?_⟩
    · cases base <;> (dsimp only; rw [hm]; rfl)
    · rw [hnone.mpr hall] at hkv
      cases hkv
  | nil =>
    rw [hkv] at hm
    cases base with
    | none =>
      refine ⟨.set next m, next + 1, ?_, (hnew next).1, rfl, (hnew next).2, fun _ _ h => by cases h⟩
      dsimp only
      rw [hm]
      rfl
    | some s =>
      have hall := hnone.mp hkv
      refine ⟨s, next, rfl, hbase.wellFormed s rfl, hbase.isSet s rfl, fun k hk => ?_,
        fun _ _ h => by cases h; rfl⟩
      -- what equals an absent key would be absent
      have habsent : entry P s k = none → batchEntry P (items.map orNil) k = none := by
        intro hk'
        rw [batchEntry_eq_none]
        intro x hx
        rw [Bool.eq_false_iff]
        intro h
        have := hall x hx
        rw [respects_of_denotes hP hbase.denotes x k (hitems x hx) hk h] at this
        rw [show baseEntry P (some s) k = none from hk'] at this
        cases this
      show entry P s k = (entry P s k).or _
      cases hk' : entry P s k with
      | some e => rfl
      | none => rw [habsent hk']; rfl

end Adding

theorem map_orNil_some (xs : List Value) : (xs.map some).map orNil = xs := by
  rw [List.map_map]
  exact List.map_id xs

theorem setConj_items (hP : P.Lawful) {base : Option Value} (hbase : IsBase P base)
    {items : List Value} (hitems : ∀ x ∈ items, WellFormed P x) (next : Nat) :
    ∃ v next', setConj P base (items.map some) next = .ok (v, next') ∧ Adds P base items v := by
  have h := map_orNil_some items
  have hwf : ∀ x ∈ (items.map some).map orNil, WellFormed P x := by rwa [h]
  have hadds := setConj_adds hP hbase hwf next
  rwa [h] at hadds

/-! ### Removing -/

/-- What removing items makes. -/
structure Removes (P : ProtoCore) (s : Value) (items : List Value) (v : Value) : Prop where
  wellFormed : WellFormed P v
  isSet : isSet v = true
  entry : ∀ k, WellFormed P k →
    entry P v k = if items.any (keyEquals P · k) then none else entry P s k
  same : (∀ x ∈ items, Sets.entry P s x = none) → v = s

theorem setDisj_removes (hP : P.Lawful) {s item : Value} (hs : WellFormed P s) (hset : isSet s = true)
    (hi : WellFormed P item) (next : Nat) :
    ∃ v next', setDisj P s (some item) next = .ok (v, next') ∧ Removes P s [item] v := by
  cases s with
  | set address m =>
    have hden : Denotes P (some m) (entry P (.set address m)) := setElements_denotes hs
    have hk : WellFormed P (orNil (some item)) := hi
    have hafter := hden.mapDissoc hP hk
    have hentry : ∀ k, Mapping.dissoc P (entry P (.set address m)) item k =
        if [item].any (keyEquals P · k) then none else entry P (.set address m) k := by
      intro k
      simp [Mapping.dissoc]
    unfold setDisj
    dsimp only [Value.setElements]
    have hkey : mapDissoc P (some m) (some (orNil (some item))) = mapDissoc P (some m) (some item) :=
      rfl
    rw [hkey]
    cases hm : mapDissoc P (some m) (some item) with
    | none =>
      unfold mapDissoc at hm
      split at hm <;> cases hm
    | some after =>
      rw [hm] at hafter
      by_cases hsame : after = m
      · subst hsame
        refine ⟨.set address after, next, ?_, hs, rfl,
          fun k hk => ?_, fun _ => rfl⟩
        · dsimp only
          rw [if_pos rfl]
          rfl
        · rw [← hentry k]
          exact hafter.find k hk
      · refine ⟨.set next after, next + 1, ?_, wellFormed_of_denotes hafter next, rfl,
          fun k hk => ?_, fun habsent => ?_⟩
        · dsimp only
          rw [if_neg hsame]
          rfl
        · rw [← hentry k]
          exact hafter.find k hk
        · have hnone := habsent item (List.mem_singleton.mpr rfl)
          have hmissing : mapDissoc P (some m) (some item) = some m :=
            hden.mapDissoc_absent hP hk hnone
          rw [hm] at hmissing
          exact absurd (Option.some.inj hmissing) hsame
  | _ => cases hset

theorem Removes.trans {s v w : Value} {xs ys : List Value} (hv : Removes P s xs v)
    (hw : Removes P v ys w) : Removes P s (xs ++ ys) w where
  wellFormed := hw.wellFormed
  isSet := hw.isSet
  entry k hk := by
    rw [hw.entry k hk, hv.entry k hk, List.any_append]
    cases xs.any (keyEquals P · k) <;> cases ys.any (keyEquals P · k) <;> rfl
  same h := by
    have hxs := hv.same fun x hx => h x (List.mem_append_left _ hx)
    rw [hxs] at hw
    exact hw.same fun y hy => h y (List.mem_append_right _ hy)

end ProtoClojure.Maps.Sets
