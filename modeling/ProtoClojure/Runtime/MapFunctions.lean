import ProtoClojure.Runtime.KeyLaws
import Mathlib.Data.Option.Basic

/-! Maps are finite functions on keys, modulo `keyEquals`. -/

namespace ProtoClojure.Maps
open KeyedMap
variable {P : ProtoCore}

/-- A sequence of operations that make one map of another. -/
inductive MapOp where
  | assocPairs (kv : List (Option Value))
  | dissoc (key : Option Value)

def MapOp.run (P : ProtoCore) (m : Option (HashedMap Value Value)) :
    MapOp → Except String (Option (HashedMap Value Value))
  | .assocPairs kv => (mapAssocPairs P m kv).map some
  | .dissoc key => .ok (mapDissoc P m key)

def MapOp.WellFormed (P : ProtoCore) : MapOp → Prop
  | .assocPairs kv => ∀ v ∈ kv, ProtoClojure.Maps.WellFormed P (orNil v)
  | .dissoc key => ProtoClojure.Maps.WellFormed P (orNil key)

/-- What a map means: for a key, the first key stored that equals it and the last value. -/
abbrev Mapping := Value → Option (Value × Value)

namespace Mapping
variable (P)

def assoc (f : Mapping) (k v : Value) : Mapping := fun k' =>
  if keyEquals P k k' then some (((f k).map Prod.fst).getD k, v) else f k'

def assocAll (f : Mapping) : List (Option Value) → Mapping
  | key :: value :: kv => assocAll (f.assoc P (orNil key) (orNil value)) kv
  | _ => f

def dissoc (f : Mapping) (k : Value) : Mapping := fun k' =>
  if keyEquals P k k' then none else f k'

def apply (f : Mapping) : MapOp → Mapping
  | .assocPairs kv => f.assocAll P kv
  | .dissoc key => f.dissoc P (orNil key)

end Mapping

/-- The entries in the order a walk calls its function on them. -/
def visited (m : Option (HashedMap Value Value)) : List (Value × Value) :=
  mapForEach m (fun l k v => l ++ [(k, v)]) []

@[simp] theorem visited_none : visited none = [] := rfl

@[simp] theorem visited_some (m : HashedMap Value Value) : visited (some m) = m.entries := by
  have h : ∀ (es acc : List (Value × Value)),
      es.foldl (fun l e => l ++ [(e.1, e.2)]) acc = acc ++ es := by
    intro es
    induction es with
    | nil => simp
    | cons e es ih => simp [ih]
  simpa [visited, mapForEach] using h m.entries []

theorem mapCount_eq (m : Option (HashedMap Value Value)) : mapCount m = (visited m).length := by
  have h : ∀ (es : List (Value × Value)) (n : Nat),
      es.foldl (fun n _ => n + 1) n = n + es.length := by
    intro es
    induction es with
    | nil => simp
    | cons e es ih =>
      intro n
      rw [List.foldl_cons, ih, List.length_cons]
      omega
  cases m with
  | none => rfl
  | some m =>
    rw [visited_some]
    exact (h m.entries 0).trans (Nat.zero_add _)

/-- `m` is a map of well-formed values that means `f`. -/
structure Denotes (P : ProtoCore) (m : Option (HashedMap Value Value)) (f : Mapping) : Prop where
  wellFormed : ∀ m', m = some m' → WellFormed P (.map m')
  find : ∀ k, WellFormed P k → find (clojureKeySemantics P) (visited m) k = f k

theorem WellFormed.map {m : HashedMap Value Value}
    (hparts : ∀ e ∈ m.entries, WellFormed P e.1 ∧ WellFormed P e.2)
    (hd : Distinct (clojureKeySemantics P) m.entries) : WellFormed P (.map m) := by
  refine .mk _ (fun w hw => ?_) fun m' hm' => ?_
  · rcases List.mem_append.mp hw with hw | hw
    · obtain ⟨e, he, rfl⟩ := List.mem_map.mp hw
      exact (hparts e he).1
    · obtain ⟨e, he, rfl⟩ := List.mem_map.mp hw
      exact (hparts e he).2
  · rcases hm' with hm' | hm'
    · cases hm'
      exact hd
    · cases hm'

theorem WellFormed.entry {m : HashedMap Value Value} (h : WellFormed P (.map m))
    {e : Value × Value} (he : e ∈ m.entries) : WellFormed P e.1 ∧ WellFormed P e.2 :=
  ⟨h.parts (List.mem_append_left _ (List.mem_map_of_mem he)),
    h.parts (List.mem_append_right _ (List.mem_map_of_mem he))⟩

theorem WellFormed.key {m : HashedMap Value Value} (h : WellFormed P (.map m)) {a : Value}
    (ha : a ∈ m.entries.map Prod.fst) : WellFormed P a := by
  obtain ⟨e, he, rfl⟩ := List.mem_map.mp ha
  exact (h.entry he).1

/-- The laws for the keys of a map and one more. -/
theorem WellFormed.lawfulOn (hP : P.Lawful) {m : HashedMap Value Value}
    (h : WellFormed P (.map m)) {k : Value} (hk : WellFormed P k) :
    (clojureKeySemantics P).LawfulOn (Among m.entries k) := by
  refine (semantics_lawful hP).mono ?_
  rintro a (rfl | ha)
  · exact hk
  · exact h.key ha

/-! ### Each operation -/

theorem Denotes.null : Denotes P none fun _ => none := ⟨nofun, fun _ _ => rfl⟩

section Operations
variable (hP : P.Lawful) {m : HashedMap Value Value} {f : Mapping}
include hP

theorem Denotes.hashedGet (h : Denotes P (some m) f) {k : Value} (hk : WellFormed P k) :
    P.helper.hashedGet (clojureKeySemantics P) m k = (f k).map Prod.snd := by
  have hwf := h.wellFormed m rfl
  rw [hP.helper.get _ m k (hwf.lawfulOn hP hk) (hwf.distinct (.inl rfl)), lookup, ← h.find k hk,
    visited_some]

/-- A map with other entries, a permutation of `es`. -/
theorem Denotes.of_perm {es : List (Value × Value)} (hp : m.entries.Perm es)
    (hparts : ∀ e ∈ es, WellFormed P e.1 ∧ WellFormed P e.2)
    (hd : Distinct (clojureKeySemantics P) es)
    (hfind : ∀ k, WellFormed P k → KeyedMap.find (clojureKeySemantics P) es k = f k) :
    Denotes P (some m) f := by
  have hkeys : ∀ a ∈ es.map Prod.fst, WellFormed P a := by
    intro a ha
    obtain ⟨e, he, rfl⟩ := List.mem_map.mp ha
    exact (hparts e he).1
  have hl : ∀ k, WellFormed P k → (clojureKeySemantics P).LawfulOn (Among es k) := by
    refine fun k hk => (semantics_lawful hP).mono ?_
    rintro a (rfl | ha)
    · exact hk
    · exact hkeys a ha
  refine ⟨?_, fun k hk => ?_⟩
  · rintro _ ⟨⟩
    refine .map (fun e he => hparts e (hp.mem_iff.mp he)) ?_
    exact hd.perm hp.symm ((semantics_lawful hP).mono hkeys)
  · rw [visited_some, ← find_perm hp.symm hd (hl k hk)]
    exact hfind k hk

theorem Denotes.assoc (h : Denotes P (some m) f) {key value : Option Value}
    (hk : WellFormed P (orNil key)) (hv : WellFormed P (orNil value)) :
    Denotes P (some (assoc P m key value)) (f.assoc P (orNil key) (orNil value)) := by
  have hwf := h.wellFormed m rfl
  have hl := hwf.lawfulOn hP hk
  have hd := hwf.distinct (.inl rfl)
  refine Denotes.of_perm hP (hP.helper.put _ m _ _ hl hd) ?_ (hd.insert hl) fun k' hk' => ?_
  · intro e he
    by_cases hp : ∃ e ∈ m.entries, (clojureKeySemantics P).equals (orNil key) e.1 = true
    · obtain ⟨e₀, he₀, hke₀⟩ := hp
      rw [insert_of_present he₀ hke₀] at he
      obtain ⟨g, hg, rfl⟩ := List.mem_map.mp he
      split
      · exact ⟨(hwf.entry hg).1, hv⟩
      · exact hwf.entry hg
    · rw [insert_of_absent fun e he => Bool.eq_false_iff.mpr fun hke => hp ⟨e, he, hke⟩] at he
      rcases List.mem_append.mp he with he | he
      · exact hwf.entry he
      · rw [List.mem_singleton.mp he]
        exact ⟨hk, hv⟩
  · have hl' : (clojureKeySemantics P).LawfulOn fun a =>
        Among m.entries (orNil key) a ∨ a = k' := by
      refine (semantics_lawful hP).mono ?_
      rintro a ((rfl | ha) | rfl)
      · exact hk
      · exact hwf.key ha
      · exact hk'
    rw [find_insert hd hl', Mapping.assoc, ← h.find k' hk', ← h.find _ hk, visited_some]
    rfl

theorem Denotes.newMap : Denotes P (some P.helper.newMap) fun _ => none := by
  have hp : P.helper.newMap.entries.Perm [] := by rw [hP.helper.newMap]
  exact Denotes.of_perm hP hp nofun .nil fun _ _ => rfl

theorem Denotes.assocAll (h : Denotes P (some m) f) {kv : List (Option Value)}
    (hkv : ∀ v ∈ kv, WellFormed P (orNil v)) :
    Denotes P (some (assocAll P m kv)) (f.assocAll P kv) := by
  fun_induction ProtoClojure.Maps.assocAll P m kv generalizing f with
  | case1 m key value kv ih =>
    obtain ⟨hk, hkv⟩ := List.forall_mem_cons.mp hkv
    obtain ⟨hv, hkv⟩ := List.forall_mem_cons.mp hkv
    exact ih (h.assoc hP hk hv) hkv
  | case2 kv m hne =>
    have hsame : f.assocAll P kv = f := by
      cases kv with
      | nil => rfl
      | cons k kv =>
        cases kv with
        | nil => rfl
        | cons v kv => exact absurd rfl (hne k v kv)
    rw [hsame]
    exact h

theorem Denotes.mapAssocPairs {base : Option (HashedMap Value Value)} (h : Denotes P base f)
    {kv : List (Option Value)} (hkv : ∀ v ∈ kv, WellFormed P (orNil v))
    (hm : mapAssocPairs P base kv = .ok m) : Denotes P (some m) (f.assocAll P kv) := by
  unfold ProtoClojure.Maps.mapAssocPairs at hm
  split at hm
  · cases hm
  · cases hm
    refine Denotes.assocAll hP ?_ hkv
    cases base with
    | none =>
      refine ⟨(Denotes.newMap hP).wellFormed, fun k hk => ?_⟩
      rw [Option.getD_none, (Denotes.newMap hP).find k hk, ← h.find k hk]
      rfl
    | some base => exact h

/-- `dissoc` of an absent key: the very map. -/
theorem Denotes.mapDissoc_absent {m : Option (HashedMap Value Value)} (h : Denotes P m f)
    {key : Option Value} (hk : WellFormed P (orNil key)) (hf : f (orNil key) = none) :
    mapDissoc P m key = m := by
  unfold mapDissoc
  split
  · rfl
  · cases m with
    | none => rfl
    | some m =>
      simp only [Option.map_some]
      rw [h.hashedGet hP hk, hf]
      rfl

theorem Denotes.mapDissoc {m : Option (HashedMap Value Value)} (h : Denotes P m f)
    {key : Option Value} (hk : WellFormed P (orNil key)) :
    Denotes P (mapDissoc P m key) (f.dissoc P (orNil key)) := by
  cases hf : f (orNil key) with
  | none =>
    rw [h.mapDissoc_absent hP hk hf]
    refine ⟨h.wellFormed, fun k' hk' => ?_⟩
    rw [h.find k' hk', Mapping.dissoc]
    split
    · rename_i hkk'
      -- an equal key is absent too
      have hkeys : ∀ a ∈ (visited m).map Prod.fst, WellFormed P a := by
        cases m with
        | none => exact nofun
        | some m => exact fun a ha => (h.wellFormed m rfl).key (by simpa using ha)
      have hl : (clojureKeySemantics P).LawfulOn fun a =>
          Among (visited m) (orNil key) a ∨ a = k' := by
        refine (semantics_lawful hP).mono ?_
        rintro a ((rfl | ha) | rfl)
        · exact hk
        · exact hkeys a ha
        · exact hk'
      rw [← h.find k' hk', ← find_congr hl hkk', h.find _ hk, hf]
    · rfl
  | some e =>
    cases m with
    | none =>
      rw [← h.find _ hk] at hf
      cases hf
    | some m =>
      have hwf := h.wellFormed m rfl
      have hl := hwf.lawfulOn hP hk
      have hd := hwf.distinct (.inl rfl)
      have hne : mapIsEmpty (some m) = false := by
        have hfind := h.find _ hk
        rw [hf, visited_some] at hfind
        cases hes : m.entries with
        | nil =>
          rw [hes] at hfind
          cases hfind
        | cons => simp [mapIsEmpty, hes]
      unfold ProtoClojure.Maps.mapDissoc
      rw [hne, if_neg Bool.false_ne_true, Option.map_some, h.hashedGet hP hk, hf]
      refine Denotes.of_perm hP (hP.helper.remove _ m _ hl hd) (fun e he => ?_) hd.erase
        fun k' hk' => ?_
      · exact hwf.entry (List.mem_filter.mp he).1
      · have hl' : (clojureKeySemantics P).LawfulOn fun a =>
            Among m.entries (orNil key) a ∨ a = k' := by
          refine (semantics_lawful hP).mono ?_
          rintro a ((rfl | ha) | rfl)
          · exact hk
          · exact hwf.key ha
          · exact hk'
        rw [find_erase hd hl', Mapping.dissoc, ← h.find k' hk', visited_some]
        rfl

theorem Denotes.run {m m' : Option (HashedMap Value Value)} (h : Denotes P m f) {op : MapOp}
    (hop : op.WellFormed P) (hrun : op.run P m = .ok m') : Denotes P m' (f.apply P op) := by
  cases op with
  | assocPairs kv =>
    rw [MapOp.run] at hrun
    cases hm : ProtoClojure.Maps.mapAssocPairs P m kv with
    | error e =>
      rw [hm] at hrun
      cases hrun
    | ok m₁ =>
      rw [hm] at hrun
      cases hrun
      exact h.mapAssocPairs hP hop hm
  | dissoc key =>
    cases hrun
    exact h.mapDissoc hP hop

/-- Every sequence of operations. -/
theorem Denotes.runAll {m m' : Option (HashedMap Value Value)} (h : Denotes P m f)
    {ops : List MapOp} (hops : ∀ op ∈ ops, op.WellFormed P)
    (hrun : ops.foldlM (MapOp.run P) m = .ok m') :
    Denotes P m' (ops.foldl (Mapping.apply P) f) := by
  induction ops generalizing m f with
  | nil =>
    cases hrun
    exact h
  | cons op ops ih =>
    obtain ⟨hop, hops⟩ := List.forall_mem_cons.mp hops
    rw [List.foldlM_cons] at hrun
    cases hm : op.run P m with
    | error e =>
      rw [hm] at hrun
      cases hrun
    | ok m₁ =>
      rw [hm] at hrun
      exact ih (h.run hP hop hm) hops hrun

end Operations

/-! ### Maps as finite functions -/

/-- What a map that means `f` answers. -/
structure Behaves (P : ProtoCore) (m : Option (HashedMap Value Value)) (f : Mapping) : Prop where
  get : ∀ key, WellFormed P (orNil key) → mapGet P m key = (f (orNil key)).map Prod.snd
  /-- A walk meets each entry once, with the key first stored. -/
  visits : ∀ k v, WellFormed P k → ((k, v) ∈ visited m ↔ f k = some (k, v))
  once : (visited m).Pairwise fun e e' => keyEquals P e.1 e'.1 = false
  /-- The entries are as many as the keys: every key that has a value equals the key of one. -/
  count : mapCount m = (visited m).length
  keys : ∀ k, WellFormed P k → ((f k).isSome ↔ ∃ e ∈ visited m, keyEquals P k e.1 = true)
  absent : ∀ key, WellFormed P (orNil key) → f (orNil key) = none → mapDissoc P m key = m
  /-- Equality of maps is equality of functions, for a value equality that holds of a value and
  itself, as the callers' do. -/
  equal : ∀ valueEq : Value → Value → Bool, (∀ v, valueEq v v = true) →
    ∀ m' f', Denotes P m' f' → (mapEquals P valueEq m m' = true ↔
      ∀ k, WellFormed P k → Option.Rel (fun x y => valueEq x y = true)
        ((f k).map Prod.snd) ((f' k).map Prod.snd))

section Behaviour
variable (hP : P.Lawful) {m : Option (HashedMap Value Value)} {f : Mapping}

theorem Denotes.distinct (h : Denotes P m f) :
    Distinct (clojureKeySemantics P) (visited m) := by
  cases m with
  | none => exact .nil
  | some m =>
    rw [visited_some]
    exact (h.wellFormed m rfl).distinct (.inl rfl)

theorem Denotes.entry (h : Denotes P m f) {e : Value × Value} (he : e ∈ visited m) :
    WellFormed P e.1 := by
  cases m with
  | none => cases he
  | some m =>
    rw [visited_some] at he
    exact ((h.wellFormed m rfl).entry he).1

include hP

theorem Denotes.lawfulOn (h : Denotes P m f) {k : Value} (hk : WellFormed P k) :
    (clojureKeySemantics P).LawfulOn (Among (visited m) k) := by
  refine (semantics_lawful hP).mono ?_
  rintro a (rfl | ha)
  · exact hk
  · obtain ⟨e, he, rfl⟩ := List.mem_map.mp ha
    exact h.entry he

/-- An entry is what its key means. -/
theorem Denotes.eq_some (h : Denotes P m f) {k : Value} (hk : WellFormed P k)
    {e : Value × Value} : f k = some e ↔ e ∈ visited m ∧ keyEquals P k e.1 = true := by
  rw [← h.find k hk]
  exact find_eq_some h.distinct (h.lawfulOn hP hk)

theorem compareEntries_denotes {a b : HashedMap Value Value} {f g : Mapping}
    (ha : Denotes P (some a) f) (hb : Denotes P (some b) g) {valueEq : Value → Value → Bool} :
    compareEntries P (clojureKeySemantics P) valueEq a b = true ↔
      ∀ e ∈ visited (some a), ∃ e' ∈ visited (some b),
        keyEquals P e.1 e'.1 = true ∧ valueEq e.2 e'.2 = true := by
  rw [visited_some, visited_some]
  refine compareEntries_iff hP (by simpa using hb.distinct) fun e he => ?_
  simpa using hb.lawfulOn hP (ha.entry (by simpa using he))

theorem Denotes.rel_of_entries {m' : Option (HashedMap Value Value)} {g : Mapping}
    (h : Denotes P m f) (h' : Denotes P m' g) {valueEq : Value → Value → Bool}
    (hlen : (visited m').length ≤ (visited m).length)
    (hall : ∀ e ∈ visited m, ∃ e' ∈ visited m',
      keyEquals P e.1 e'.1 = true ∧ valueEq e.2 e'.2 = true) {k : Value} (hk : WellFormed P k) :
    Option.Rel (fun x y => valueEq x y = true) ((f k).map Prod.snd) ((g k).map Prod.snd) := by
  have hl := semantics_lawful hP
  cases hf : f k with
  | some e =>
    obtain ⟨he, hke⟩ := (h.eq_some hP hk).mp hf
    obtain ⟨e', he', hee', hv⟩ := hall e he
    have hke' : keyEquals P k e'.1 = true :=
      hl.trans k e.1 e'.1 hk (h.entry he) (h'.entry he') hke hee'
    rw [(h'.eq_some hP hk).mpr ⟨he', hke'⟩]
    exact .some hv
  | none =>
    cases hg : g k with
    | none => exact .none
    | some e' =>
      obtain ⟨he', hke'⟩ := (h'.eq_some hP hk).mp hg
      have hpairs : (clojureKeySemantics P).LawfulOn fun a =>
          a ∈ (visited m).map Prod.fst ∨ a ∈ (visited m').map Prod.fst := by
        refine hl.mono ?_
        rintro a (ha | ha)
        · obtain ⟨x, hx, rfl⟩ := List.mem_map.mp ha
          exact h.entry hx
        · obtain ⟨x, hx, rfl⟩ := List.mem_map.mp ha
          exact h'.entry hx
      obtain ⟨fs, hperm, hforall⟩ := h.distinct.matching
        (R := fun e e' => keyEquals P e.1 e'.1 = true) hpairs hlen (fun _ _ hee => hee)
        fun e he => (hall e he).imp fun _ hx => ⟨hx.1, hx.2.1⟩
      obtain ⟨e, he, hee'⟩ := mem_of_matching hperm hforall he'
      have he'e : keyEquals P e'.1 e.1 = true :=
        hl.symm e.1 e'.1 (h.entry he) (h'.entry he') hee'
      have hke : keyEquals P k e.1 = true :=
        hl.trans k e'.1 e.1 hk (h'.entry he') (h.entry he) hke' he'e
      rw [(h.eq_some hP hk).mpr ⟨he, hke⟩] at hf
      cases hf

theorem Denotes.entries_of_rel {m' : Option (HashedMap Value Value)} {g : Mapping}
    (h : Denotes P m f) (h' : Denotes P m' g) {valueEq : Value → Value → Bool}
    (hrel : ∀ k, WellFormed P k → Option.Rel (fun x y => valueEq x y = true)
      ((f k).map Prod.snd) ((g k).map Prod.snd)) :
    (∀ e ∈ visited m, ∃ e' ∈ visited m', keyEquals P e.1 e'.1 = true ∧ valueEq e.2 e'.2 = true) ∧
      ∀ e' ∈ visited m', ∃ e ∈ visited m, keyEquals P e'.1 e.1 = true := by
  constructor
  · intro e he
    have hk := h.entry he
    have hrel := hrel e.1 hk
    rw [(h.eq_some hP hk).mpr ⟨he, keyEquals_self _⟩] at hrel
    cases hg : g e.1 with
    | none =>
      rw [hg] at hrel
      cases hrel
    | some e' =>
      rw [hg] at hrel
      obtain ⟨he', hee'⟩ := (h'.eq_some hP hk).mp hg
      cases hrel with
      | some hv => exact ⟨e', he', hee', hv⟩
  · intro e' he'
    have hk := h'.entry he'
    have hrel := hrel e'.1 hk
    rw [(h'.eq_some hP hk).mpr ⟨he', keyEquals_self _⟩] at hrel
    cases hf : f e'.1 with
    | none =>
      rw [hf] at hrel
      cases hrel
    | some e => exact ⟨e, (h.eq_some hP hk).mp hf⟩

theorem Denotes.length_le {m' : Option (HashedMap Value Value)} {g : Mapping}
    (h : Denotes P m f) (h' : Denotes P m' g)
    (hsub : ∀ e ∈ visited m, ∃ e' ∈ visited m', keyEquals P e.1 e'.1 = true) :
    (visited m).length ≤ (visited m').length := by
  refine h.distinct.length_le ((semantics_lawful hP).mono ?_) hsub
  rintro a (ha | ha)
  · obtain ⟨x, hx, rfl⟩ := List.mem_map.mp ha
    exact h.entry hx
  · obtain ⟨x, hx, rfl⟩ := List.mem_map.mp ha
    exact h'.entry hx

theorem Denotes.mapEquals_iff {m' : Option (HashedMap Value Value)} {g : Mapping}
    (h : Denotes P m f) (h' : Denotes P m' g) {valueEq : Value → Value → Bool}
    (hrefl : ∀ v, valueEq v v = true) : mapEquals P valueEq m m' = true ↔
      ∀ k, WellFormed P k → Option.Rel (fun x y => valueEq x y = true)
        ((f k).map Prod.snd) ((g k).map Prod.snd) := by
  constructor
  · intro heq k hk
    unfold mapEquals at heq
    split at heq
    · rename_i hmm
      subst hmm
      exact h.rel_of_entries hP h' (Nat.le_refl _)
        (fun e he => ⟨e, he, keyEquals_self _, hrefl _⟩) hk
    split at heq
    · cases heq
    rename_i hcount
    rw [not_not, mapCount_eq, mapCount_eq] at hcount
    refine h.rel_of_entries hP h' hcount.ge ?_ hk
    split at heq
    · rename_i hzero
      rw [mapCount_eq] at hzero
      rw [List.eq_nil_of_length_eq_zero hzero]
      exact nofun
    · rename_i hzero
      cases m with
      | none => exact absurd rfl hzero
      | some a =>
        cases m' with
        | none =>
          rw [visited_none, List.length_nil, ← mapCount_eq] at hcount
          exact absurd hcount hzero
        | some b => exact (compareEntries_denotes hP h h').mp heq
  · intro hrel
    obtain ⟨hall, hback⟩ := h.entries_of_rel hP h' hrel
    have hle := h.length_le hP h' fun e he => (hall e he).imp fun _ hx => ⟨hx.1, hx.2.1⟩
    have hge := h'.length_le hP h hback
    unfold mapEquals
    split
    · rfl
    rw [if_neg (by rw [mapCount_eq, mapCount_eq]; omega)]
    split
    · rfl
    cases m with
    | none => rfl
    | some a =>
      cases m' with
      | none => rfl
      | some b => exact (compareEntries_denotes hP h h').mpr hall

theorem Denotes.behaves (h : Denotes P m f) : Behaves P m f where
  get key hk := by
    cases m with
    | none => rw [← h.find _ hk]; rfl
    | some m => exact h.hashedGet hP hk
  visits k v hk := by
    rw [h.eq_some hP hk]
    simp
  once := h.distinct
  count := mapCount_eq m
  keys k hk := by
    rw [Option.isSome_iff_exists]
    exact exists_congr fun e => h.eq_some hP hk
  absent key hk hf := h.mapDissoc_absent hP hk hf
  equal valueEq hrefl m' f' h' := h.mapEquals_iff hP h' hrefl

end Behaviour

/-- After any operations on a map, lookups, walks, counts and comparisons are those of the finite
function that the operations make of what the map meant. -/
theorem maps_finite_functions (hP : P.Lawful) {base m : Option (HashedMap Value Value)}
    {f : Mapping} (hbase : Denotes P base f) {ops : List MapOp}
    (hops : ∀ op ∈ ops, op.WellFormed P) (hrun : ops.foldlM (MapOp.run P) base = .ok m) :
    Behaves P m (ops.foldl (Mapping.apply P) f) ∧ Denotes P m (ops.foldl (Mapping.apply P) f) :=
  have h := hbase.runAll hP hops hrun
  ⟨h.behaves hP, h⟩

/-- `(dissoc (assoc nil nil nil [] nil) nil)`, with every key in one slot. -/
theorem maps_finite_functions_nil :
    Behaves collidingCore (some ⟨3, [(.vector 0 [], .nil)]⟩)
      ([MapOp.assocPairs [none, none, some (.vector 0 []), none], .dissoc none].foldl
        (Mapping.apply collidingCore) fun _ => none) := by
  have hnil : WellFormed collidingCore .nil := .embedded _
  have hops : ∀ op ∈ [MapOp.assocPairs [none, none, some (.vector 0 []), none], .dissoc none],
      op.WellFormed collidingCore := by
    have hvector : WellFormed collidingCore (.vector 0 []) := .vector nofun
    simp [MapOp.WellFormed, orNil, hnil, hvector]
  have hrun : [MapOp.assocPairs [none, none, some (.vector 0 []), none], .dissoc none].foldlM
      (MapOp.run collidingCore) none = .ok (some ⟨3, [(.vector 0 [], .nil)]⟩) := by
    decide +kernel
  exact (maps_finite_functions collidingCore_lawful .null hops hrun).1

end ProtoClojure.Maps
