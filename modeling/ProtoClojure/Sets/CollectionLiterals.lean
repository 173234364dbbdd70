import ProtoClojure.Sets.SetObjects

/-! Map and set literals: which forms are refused as repeated. -/
namespace ProtoClojure.Maps.Sets
open KeyedMap

/-- Every other form, from the first on. -/
def keysAt : List Value → List Value
  | k :: _ :: kv => k :: keysAt kv
  | _ => []

/-- A map literal, of the forms the reader read. -/
def readMap (K : Kernel) (describeKey : Value → String) (kv : List Value) :
    Result (HashedMap Value Value) :=
  if kv.length % 2 ≠ 0 then .error (.error "Map literal must contain an even number of forms")
  else do
    let m ← (mapAssocPairs K.core none (kv.map some)).mapError Raised.error
    if mapCount (some m) = kv.length / 2 then pure m
    else
      match firstDuplicate K [] (keysAt kv) with
      | none => pure m
      | some k => .error (.error ("Duplicate key: " ++ describeKey k))

/-- The form equals one before it. -/
def Repeats (K : Kernel) (xs : List Value) (x : Value) : Prop :=
  ∃ (i j : Nat) (y : Value), i < j ∧ xs[i]? = some y ∧ xs[j]? = some x ∧ keyEquals K.core y x = true

section
variable {K : Kernel}

theorem repeats_iff {xs : List Value} : (∃ x, Repeats K xs x) ↔
    ¬ xs.Pairwise fun x y => keyEquals K.core x y = false := by
  rw [List.pairwise_iff_getElem]
  constructor
  · rintro ⟨x, i, j, y, hij, hi, hj, heq⟩ hd
    obtain ⟨hi', rfl⟩ := List.getElem?_eq_some_iff.mp hi
    obtain ⟨hj', rfl⟩ := List.getElem?_eq_some_iff.mp hj
    rw [hd i j hi' hj' hij] at heq
    cases heq
  · intro h
    simp only [not_forall, Bool.not_eq_false] at h
    obtain ⟨i, j, hi, hj, hij, heq⟩ := h
    exact ⟨xs[j], i, j, xs[i], hij, List.getElem?_eq_getElem hi, List.getElem?_eq_getElem hj, heq⟩

/-- What is found equals an element before it. -/
theorem firstDuplicate_some {before xs : List Value} {x : Value}
    (h : firstDuplicate K before xs = some x) : Repeats K (before ++ xs) x := by
  induction xs generalizing before with
  | nil => cases h
  | cons z xs ih =>
    rw [firstDuplicate] at h
    split at h
    · rename_i hany
      cases h
      obtain ⟨y, hy, heq⟩ := List.any_eq_true.mp hany
      obtain ⟨i, hi, rfl⟩ := List.mem_iff_getElem.mp hy
      refine ⟨i, before.length, before[i], hi, ?_, ?_, heq⟩
      · rw [List.getElem?_append_left hi, List.getElem?_eq_getElem hi]
      · rw [List.getElem?_append_right (le_refl _), Nat.sub_self]
        rfl
    · have hfound := ih h
      rw [List.append_assoc] at hfound
      exact hfound

/-- The search finds a repeated form when there is one. -/
theorem firstDuplicate_iff {xs : List Value} :
    (∃ x, firstDuplicate K [] xs = some x) ↔ ∃ x, Repeats K xs x := by
  constructor
  · rintro ⟨x, hx⟩
    exact ⟨x, firstDuplicate_some hx⟩
  · intro h
    cases hfind : firstDuplicate K [] xs with
    | some x => exact ⟨x, rfl⟩
    | none => exact absurd (firstDuplicate_eq_none hfind).2 (repeats_iff.mp h)

section Counts
variable (hP : K.core.Lawful)
include hP

theorem assoc_length {m : HashedMap Value Value} {f : Mapping} (h : Denotes K.core (some m) f)
    (key value : Option Value) (hk : WellFormed K.core (orNil key)) :
    (assoc K.core m key value).entries.length =
      m.entries.length + if (f (orNil key)).isSome then 0 else 1 := by
  have hwf := h.wellFormed m rfl
  have hput := hP.helper.put _ m (orNil key) (orNil value) (hwf.lawfulOn hP hk)
    (hwf.distinct (.inl rfl))
  have hfind := h.find _ hk
  rw [visited_some] at hfind
  rw [← hfind, ← length_insert]
  exact hput.length_eq

/-- A map of the pairs has as many entries just when no key is there before. -/
theorem assocAll_length {kv : List Value} : ∀ {m : HashedMap Value Value} {f : Mapping},
    kv.length % 2 = 0 → Denotes K.core (some m) f → (∀ x ∈ kv, WellFormed K.core x) →
    (assocAll K.core m (kv.map some)).entries.length ≤ m.entries.length + kv.length / 2 ∧
    ((assocAll K.core m (kv.map some)).entries.length = m.entries.length + kv.length / 2 ↔
      (∀ k ∈ keysAt kv, f k = none) ∧
        (keysAt kv).Pairwise fun x y => keyEquals K.core x y = false) := by
  fun_induction keysAt kv with
  | case1 k v kv ih =>
    intro m f heven h hkv
    obtain ⟨hk, hkv⟩ := List.forall_mem_cons.mp hkv
    obtain ⟨hv, hkv⟩ := List.forall_mem_cons.mp hkv
    have hlen : (k :: v :: kv).length / 2 = kv.length / 2 + 1 := by
      simp only [List.length_cons]
      omega
    have heven' : kv.length % 2 = 0 := by
      simp only [List.length_cons] at heven
      omega
    have hstep : Denotes K.core (some (assoc K.core m (some k) (some v))) (f.assoc K.core k v) :=
      h.assoc hP hk hv
    have hcount := assoc_length hP h (some k) (some v) hk
    obtain ⟨hle, hiff⟩ := ih heven' hstep hkv
    have hnone : ∀ k', f.assoc K.core k v k' = none ↔
        keyEquals K.core k k' = false ∧ f k' = none := by
      intro k'
      unfold Mapping.assoc
      split
      · rename_i heq
        rw [heq]
        exact ⟨fun h => (by cases h), fun h => (by cases h.1)⟩
      · rename_i hne
        exact ⟨fun h => ⟨Bool.eq_false_iff.mpr hne, h⟩, And.right⟩
    rw [List.map_cons, List.map_cons, assocAll, hlen]
    cases hf : f k with
    | some p =>
      rw [show f (orNil (some k)) = some p from hf, Option.isSome_some, if_pos rfl] at hcount
      refine ⟨by omega, ⟨fun heq => by omega, fun hall => ?_⟩⟩
      rw [hall.1 k List.mem_cons_self] at hf
      cases hf
    | none =>
      rw [show f (orNil (some k)) = none from hf, Option.isSome_none, if_neg Bool.false_ne_true]
        at hcount
      refine ⟨by omega, ?_⟩
      rw [hcount] at hiff
      rw [List.forall_mem_cons, List.pairwise_cons, ← Nat.add_assoc, Nat.add_right_comm, hiff]
      constructor
      · rintro ⟨hnew, hd⟩
        exact ⟨⟨hf, fun k' hk' => ((hnone k').mp (hnew k' hk')).2⟩,
          fun k' hk' => ((hnone k').mp (hnew k' hk')).1, hd⟩
      · rintro ⟨⟨-, hold⟩, hne, hd⟩
        exact ⟨fun k' hk' => (hnone k').mpr ⟨hne k' hk', hold k' hk'⟩, hd⟩
  | case2 kv hne =>
    intro m f heven h hkv
    have hnil : kv = [] := by
      cases kv with
      | nil => rfl
      | cons k kv =>
        cases kv with
        | nil => cases heven
        | cons v kv => exact absurd rfl (hne k v kv)
    subst hnil
    exact ⟨le_refl _, fun _ => ⟨fun k hk => (by cases hk), .nil⟩, fun _ => rfl⟩

/-- The map that a literal's forms make. -/
def pairsMap (K : Kernel) (kv : List Value) : HashedMap Value Value :=
  assocAll K.core K.core.helper.newMap (kv.map some)

theorem pairsMap_length {kv : List Value} (heven : kv.length % 2 = 0)
    (hkv : ∀ x ∈ kv, WellFormed K.core x) : (pairsMap K kv).entries.length = kv.length / 2 ↔
      ¬ ∃ x, Repeats K (keysAt kv) x := by
  have hcount := (assocAll_length hP heven (Denotes.newMap hP) hkv).2
  have hempty : K.core.helper.newMap.entries = [] := hP.helper.newMap
  rw [hempty, List.length_nil, Nat.zero_add] at hcount
  rw [pairsMap, hcount, repeats_iff, not_not]
  exact and_iff_right fun _ _ => rfl

omit hP in
theorem mapCount_pairsMap (kv : List Value) :
    mapCount (some (pairsMap K kv)) = (pairsMap K kv).entries.length := by
  rw [mapCount_eq, visited_some]

omit hP in
theorem readMap_even {describeKey : Value → String} {kv : List Value}
    (heven : kv.length % 2 = 0) : readMap K describeKey kv =
      if (pairsMap K kv).entries.length = kv.length / 2 then .ok (pairsMap K kv)
      else match firstDuplicate K [] (keysAt kv) with
        | none => .ok (pairsMap K kv)
        | some k => .error (.error ("Duplicate key: " ++ describeKey k)) := by
  have hsome : (kv.map some).length % 2 = 0 := by rwa [List.length_map]
  have hassoc : mapAssocPairs K.core none (kv.map some) = .ok (pairsMap K kv) :=
    if_neg (not_not_intro hsome)
  unfold readMap
  rw [if_neg (not_not_intro heven), hassoc, ← mapCount_pairsMap]
  rfl

/-- A map literal is refused for its odd form, or for a key equal to one before it. -/
theorem readMap_answers (describeKey : Value → String) {kv : List Value}
    (hkv : ∀ x ∈ kv, WellFormed K.core x) :
    (kv.length % 2 ≠ 0 → readMap K describeKey kv =
      .error (.error "Map literal must contain an even number of forms")) ∧
    (kv.length % 2 = 0 → (∃ x, Repeats K (keysAt kv) x) → ∃ x, Repeats K (keysAt kv) x ∧
      readMap K describeKey kv = .error (.error ("Duplicate key: " ++ describeKey x))) ∧
    (kv.length % 2 = 0 → (¬ ∃ x, Repeats K (keysAt kv) x) →
      ∃ m, readMap K describeKey kv = .ok m ∧ WellFormed K.core (.map m)) := by
  refine ⟨fun hodd => if_pos hodd, fun heven hrepeats => ?_, fun heven hrepeats => ?_⟩
  · obtain ⟨x, hx⟩ := firstDuplicate_iff.mpr hrepeats
    refine ⟨x, firstDuplicate_some hx, ?_⟩
    rw [readMap_even heven, if_neg fun h => (pairsMap_length hP heven hkv).mp h hrepeats, hx]
  · refine ⟨pairsMap K kv, ?_, ?_⟩
    · rw [readMap_even heven, if_pos ((pairsMap_length hP heven hkv).mpr hrepeats)]
    · refine (Denotes.assocAll hP (Denotes.newMap hP) fun v hv => ?_).wellFormed _ rfl
      obtain ⟨x, hx, rfl⟩ := List.mem_map.mp hv
      exact hkv x hx

/-- A set literal is refused for an element equal to one before it. -/
theorem readSet_answers (describeKey : Value → String) {items : List Value}
    (hitems : ∀ x ∈ items, WellFormed K.core x) (next : Nat) :
    ((∃ x, Repeats K items x) → ∃ x, Repeats K items x ∧
      readSet K describeKey items next = .error (.error ("Duplicate key: " ++ describeKey x))) ∧
    ((¬ ∃ x, Repeats K items x) →
      ∃ v next', readSet K describeKey items next = .ok (v, next') ∧ WellFormed K.core v) := by
  obtain ⟨v, next', hs, hadds⟩ := setConj_items hP IsBase.none hitems next
  have hkeys := hadds.keys hP hitems .none
  rw [Option.elim_none, Set.empty_union] at hkeys
  have hcount : setCount v = items.length →
      items.Pairwise fun x y => keyEquals K.core x y = false := by
    intro hcount
    refine (distinct_of_ncard hP hitems).2 ?_
    rw [← hkeys, ncard_keys hP hadds.wellFormed, hcount]
  have hread : readSet K describeKey items next =
      (if setCount v = items.length then pure v
      else match firstDuplicate K [] items with
        | none => pure v
        | some x => raise (.error (.error ("Duplicate key: " ++ describeKey x))) :
        Making Value) next' := by
    unfold readSet
    exact (StateExcept.run_bind hs).trans rfl
  rw [hread]
  constructor
  · intro hrepeats
    obtain ⟨x, hx⟩ := firstDuplicate_iff.mpr hrepeats
    refine ⟨x, firstDuplicate_some hx, ?_⟩
    rw [if_neg fun h => repeats_iff.mp hrepeats (hcount h), hx]
    rfl
  · intro hrepeats
    refine ⟨v, next', ?_, hadds.wellFormed⟩
    split
    · rfl
    · cases hfind : firstDuplicate K [] items with
      | none => rfl
      | some x => exact absurd (firstDuplicate_iff.mp ⟨x, hfind⟩) hrepeats

end Counts
end
end ProtoClojure.Maps.Sets
