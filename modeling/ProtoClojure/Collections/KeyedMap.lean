import Mathlib.Data.List.Basic
import Mathlib.Data.List.Find
import Mathlib.Data.List.Forall2
import Mathlib.Data.List.Perm.Basic
import Mathlib.Data.List.Perm.Subperm

/-! Finite maps whose keys match by a given equality, as lists of entries, and what a hashed
representation of them may do with that equality and a hash. -/

namespace ProtoClojure.KeyedMap

/-- How keys match: a test for keys matched by being the same, a hash and an equality. -/
structure KeySemantics (K : Type) where
  isIdentity : K → Bool
  hash : K → UInt64
  equals : K → K → Bool

variable {K V : Type}

structure KeySemantics.LawfulOn (sem : KeySemantics K) (S : K → Prop) : Prop where
  refl : ∀ a, S a → sem.equals a a = true
  symm : ∀ a b, S a → S b → sem.equals a b = true → sem.equals b a = true
  trans : ∀ a b c, S a → S b → S c → sem.equals a b = true → sem.equals b c = true →
    sem.equals a c = true
  hash : ∀ a b, S a → S b → sem.equals a b = true → sem.hash a = sem.hash b
  identity : ∀ a b, S a → S b → (sem.isIdentity a = true ∨ sem.isIdentity b = true) →
    sem.equals a b = true → a = b

theorem KeySemantics.LawfulOn.mono {sem : KeySemantics K} {S S' : K → Prop}
    (h : sem.LawfulOn S) (hs : ∀ a, S' a → S a) : sem.LawfulOn S' where
  refl a ha := h.refl a (hs a ha)
  symm a b ha hb := h.symm a b (hs a ha) (hs b hb)
  trans a b c ha hb hc := h.trans a b c (hs a ha) (hs b hb) (hs c hc)
  hash a b ha hb := h.hash a b (hs a ha) (hs b hb)
  identity a b ha hb := h.identity a b (hs a ha) (hs b hb)

/-- Only the answers for the keys at hand count. -/
theorem KeySemantics.LawfulOn.congr {sem sem' : KeySemantics K} {S : K → Prop}
    (h : sem.LawfulOn S) (he : ∀ a b, S a → S b → sem'.equals a b = sem.equals a b)
    (hh : ∀ a, S a → sem'.hash a = sem.hash a)
    (hi : ∀ a, S a → sem'.isIdentity a = sem.isIdentity a) : sem'.LawfulOn S where
  refl a ha := by
    rw [he a a ha ha]
    exact h.refl a ha
  symm a b ha hb hab := by
    rw [he b a hb ha]
    exact h.symm a b ha hb (he a b ha hb ▸ hab)
  trans a b c ha hb hc hab hbc := by
    rw [he a c ha hc]
    exact h.trans a b c ha hb hc (he a b ha hb ▸ hab) (he b c hb hc ▸ hbc)
  hash a b ha hb hab := by
    rw [hh a ha, hh b hb]
    exact h.hash a b ha hb (he a b ha hb ▸ hab)
  identity a b ha hb hid hab := by
    rw [hi a ha, hi b hb] at hid
    exact h.identity a b ha hb hid (he a b ha hb ▸ hab)

/-- No two entries have equal keys. -/
def Distinct (sem : KeySemantics K) (es : List (K × V)) : Prop :=
  es.Pairwise fun e f => sem.equals e.1 f.1 = false

/-- The keys a question about `k` is asked of. -/
def Among (es : List (K × V)) (k a : K) : Prop := a = k ∨ a ∈ es.map Prod.fst

/-- The entry a key names, with the key first stored. -/
def find (sem : KeySemantics K) (es : List (K × V)) (k : K) : Option (K × V) :=
  es.find? fun e => sem.equals k e.1

def lookup (sem : KeySemantics K) (es : List (K × V)) (k : K) : Option V :=
  (find sem es k).map Prod.snd

/-- An entry with an equal key keeps its key and takes the value. -/
def insert (sem : KeySemantics K) (es : List (K × V)) (k : K) (v : V) : List (K × V) :=
  if es.any fun e => sem.equals k e.1 then
    es.map fun e => if sem.equals k e.1 then (e.1, v) else e
  else es ++ [(k, v)]

def erase (sem : KeySemantics K) (es : List (K × V)) (k : K) : List (K × V) :=
  es.filter fun e => !sem.equals k e.1

/-! ### Lookups -/

section Lookup
variable {sem : KeySemantics K} {es : List (K × V)} {k : K}

theorem among_self : Among es k k := .inl rfl

theorem among_of_mem {e : K × V} (he : e ∈ es) : Among es k e.1 :=
  .inr (List.mem_map_of_mem he)

theorem find_eq_none : find sem es k = none ↔ ∀ e ∈ es, sem.equals k e.1 = false := by
  simp [find]

/-- Two entries that match the same key are one entry. -/
theorem Distinct.eq_of_equals (hd : Distinct sem es) (hl : sem.LawfulOn (Among es k))
    {e f : K × V} (he : e ∈ es) (hf : f ∈ es) (hke : sem.equals k e.1 = true)
    (hkf : sem.equals k f.1 = true) : e = f := by
  have hek := hl.symm k e.1 among_self (among_of_mem he) hke
  have hfk := hl.symm k f.1 among_self (among_of_mem hf) hkf
  have hef := hl.trans e.1 k f.1 (among_of_mem he) among_self (among_of_mem hf) hek hkf
  have hfe := hl.trans f.1 k e.1 (among_of_mem hf) among_self (among_of_mem he) hfk hke
  by_contra hne
  have hpair : sem.equals e.1 f.1 = false ∨ sem.equals f.1 e.1 = false := by
    have h : ∀ x y, List.Sublist [x, y] es → sem.equals x.1 y.1 = false := fun _ _ hs =>
      List.pairwise_iff_forall_sublist.mp hd hs
    rcases List.mem_iff_append.mp he with ⟨l₁, l₂, rfl⟩
    rcases List.mem_append.mp hf with hf₁ | hf₂
    · have hsub : List.Sublist [f, e] (l₁ ++ e :: l₂) :=
        (List.singleton_sublist.mpr hf₁).append (List.singleton_sublist.mpr List.mem_cons_self)
      exact .inr (h _ _ hsub)
    · rcases List.mem_cons.mp hf₂ with rfl | hf₂
      · exact absurd rfl hne
      · have hsub : List.Sublist [e, f] (l₁ ++ e :: l₂) :=
          (List.nil_sublist l₁).append ((List.singleton_sublist.mpr hf₂).cons_cons e)
        exact .inl (h _ _ hsub)
  rcases hpair with h | h
  · rw [hef] at h
    cases h
  · rw [hfe] at h
    cases h

theorem find_eq_some (hd : Distinct sem es) (hl : sem.LawfulOn (Among es k)) {e : K × V} :
    find sem es k = some e ↔ e ∈ es ∧ sem.equals k e.1 = true := by
  constructor
  · intro h
    have hprop := List.find?_some h
    exact ⟨List.mem_of_find?_eq_some h, hprop⟩
  · rintro ⟨he, hke⟩
    have hsome : (es.find? fun e => sem.equals k e.1).isSome = true :=
      List.find?_isSome.mpr ⟨e, he, hke⟩
    obtain ⟨f, hf⟩ := Option.isSome_iff_exists.mp hsome
    have hprop := List.find?_some hf
    have hef := hd.eq_of_equals hl he (List.mem_of_find?_eq_some hf) hke hprop
    rw [find, hf, hef]

theorem lookup_eq_some (hd : Distinct sem es) (hl : sem.LawfulOn (Among es k)) {v : V} :
    lookup sem es k = some v ↔ ∃ e ∈ es, sem.equals k e.1 = true ∧ e.2 = v := by
  unfold lookup
  rw [Option.map_eq_some_iff]
  refine exists_congr fun e => ?_
  rw [find_eq_some hd hl, and_assoc]

/-- Equal keys find the same entry. -/
theorem find_congr {k' : K} (hl : sem.LawfulOn fun a => Among es k a ∨ a = k')
    (hk : sem.equals k k' = true) : find sem es k = find sem es k' := by
  have hkk : Among es k k := among_self
  have hiff : ∀ e ∈ es, sem.equals k e.1 = sem.equals k' e.1 := by
    intro e he
    have hmem : Among es k e.1 ∨ e.1 = k' := .inl (among_of_mem he)
    rw [Bool.eq_iff_iff]
    constructor
    · exact hl.trans k' k e.1 (.inr rfl) (.inl hkk) hmem (hl.symm k k' (.inl hkk) (.inr rfl) hk)
    · exact hl.trans k k' e.1 (.inl hkk) (.inr rfl) hmem hk
  exact List.find?_congr hiff

end Lookup

/-! ### The order of the entries does not matter -/

theorem Distinct.perm {sem : KeySemantics K} {es es' : List (K × V)} (hd : Distinct sem es)
    (hp : es.Perm es') (hl : sem.LawfulOn (· ∈ es.map Prod.fst)) : Distinct sem es' := by
  have hmem : ∀ e ∈ es', e.1 ∈ es.map Prod.fst := fun e he =>
    List.mem_map_of_mem (hp.mem_iff.mpr he)
  have hboth : es.Pairwise fun e f => sem.equals e.1 f.1 = false ∧ sem.equals f.1 e.1 = false := by
    refine hd.imp_of_mem fun {e f} he hf hef => ⟨hef, ?_⟩
    cases hfe : sem.equals f.1 e.1 with
    | false => rfl
    | true =>
      have := hl.symm f.1 e.1 (List.mem_map_of_mem hf) (List.mem_map_of_mem he) hfe
      rw [this] at hef
      exact hef
  exact (hp.pairwise hboth fun {_ _} h => ⟨h.2, h.1⟩).imp fun h => h.1

theorem find_perm {sem : KeySemantics K} {es es' : List (K × V)} {k : K}
    (hp : es.Perm es') (hd : Distinct sem es) (hl : sem.LawfulOn (Among es k)) :
    find sem es k = find sem es' k := by
  have hl' : sem.LawfulOn (Among es' k) := hl.mono fun a ha =>
    ha.imp id fun hm => (hp.map Prod.fst).mem_iff.mpr hm
  have hd' : Distinct sem es' := hd.perm hp (hl.mono fun a ha => .inr ha)
  apply Option.ext
  intro e
  rw [find_eq_some hd hl, find_eq_some hd' hl', hp.mem_iff]

/-! ### Insertion and erasure -/

section Updates
variable {sem : KeySemantics K} {es : List (K × V)} {k : K} {v : V}

theorem insert_of_absent (h : ∀ e ∈ es, sem.equals k e.1 = false) :
    insert sem es k v = es ++ [(k, v)] := by
  unfold insert
  rw [if_neg]
  simpa using h

theorem insert_of_present {e : K × V} (he : e ∈ es) (h : sem.equals k e.1 = true) :
    insert sem es k v = es.map fun e => if sem.equals k e.1 then (e.1, v) else e := by
  unfold insert
  rw [if_pos]
  exact List.any_eq_true.mpr ⟨e, he, h⟩

theorem length_insert : (insert sem es k v).length =
    es.length + if (find sem es k).isSome then 0 else 1 := by
  by_cases hp : ∃ e ∈ es, sem.equals k e.1 = true
  · obtain ⟨e, he, hke⟩ := hp
    have hsome : (find sem es k).isSome = true := List.find?_isSome.mpr ⟨e, he, hke⟩
    rw [insert_of_present he hke, List.length_map, if_pos hsome, Nat.add_zero]
  · have hn : ∀ e ∈ es, sem.equals k e.1 = false := fun e he =>
      Bool.eq_false_iff.mpr fun hke => hp ⟨e, he, hke⟩
    rw [insert_of_absent hn, find_eq_none.mpr hn, List.length_append]
    rfl

/-- A key of the new map was a key already, or is the inserted one. -/
theorem among_insert {a : K} (h : a ∈ (insert sem es k v).map Prod.fst) : Among es k a := by
  by_cases hp : ∃ e ∈ es, sem.equals k e.1 = true
  · obtain ⟨e, he, hke⟩ := hp
    rw [insert_of_present he hke, List.map_map] at h
    obtain ⟨f, hf, rfl⟩ := List.mem_map.mp h
    have hfst : ((fun e : K × V => if sem.equals k e.1 then (e.1, v) else e) f).1 = f.1 := by
      simp only
      split <;> rfl
    rw [Function.comp_apply, hfst]
    exact among_of_mem hf
  · have hn : ∀ e ∈ es, sem.equals k e.1 = false := fun e he =>
      Bool.eq_false_iff.mpr fun hke => hp ⟨e, he, hke⟩
    rw [insert_of_absent hn, List.map_append] at h
    rcases List.mem_append.mp h with h | h
    · exact .inr h
    · exact .inl (by simpa using h)

/-- The keys stay the objects first stored. -/
theorem keys_insert_of_present {e : K × V} (he : e ∈ es) (h : sem.equals k e.1 = true) :
    (insert sem es k v).map Prod.fst = es.map Prod.fst := by
  rw [insert_of_present he h, List.map_map]
  apply List.map_congr_left
  intro f _
  simp only [Function.comp_apply]
  split <;> rfl

theorem distinct_iff_keys : Distinct sem es ↔
    (es.map Prod.fst).Pairwise fun a b => sem.equals a b = false := by
  rw [Distinct, List.pairwise_map]

theorem Distinct.insert (hd : Distinct sem es) (hl : sem.LawfulOn (Among es k)) :
    Distinct sem (insert sem es k v) := by
  by_cases hp : ∃ e ∈ es, sem.equals k e.1 = true
  · obtain ⟨e, he, hke⟩ := hp
    rw [distinct_iff_keys, keys_insert_of_present he hke, ← distinct_iff_keys]
    exact hd
  · have hn : ∀ e ∈ es, sem.equals k e.1 = false := fun e he =>
      Bool.eq_false_iff.mpr fun hke => hp ⟨e, he, hke⟩
    rw [insert_of_absent hn]
    refine List.pairwise_append.mpr ⟨hd, List.pairwise_singleton .., fun e he f hf => ?_⟩
    obtain rfl := List.mem_singleton.mp hf
    cases hek : sem.equals e.1 k with
    | false => rfl
    | true => rw [← hn e he, hl.symm e.1 k (among_of_mem he) among_self hek]

theorem insert_perm {es' : List (K × V)} (hp : es.Perm es') :
    (insert sem es k v).Perm (insert sem es' k v) := by
  unfold insert
  rw [hp.any_eq]
  split
  · exact hp.map _
  · exact hp.append_right _

theorem keys_insert {S : K → Prop} (hes : ∀ e ∈ es, S e.1) (hk : S k) :
    ∀ e ∈ insert sem es k v, S e.1 := by
  intro e he
  rcases among_insert (List.mem_map_of_mem he) with h | h
  · rwa [h]
  · obtain ⟨f, hf, heq⟩ := List.mem_map.mp h
    rw [← heq]
    exact hes f hf

/-- Every key is one there was, or one inserted. -/
theorem keys_inserts {kv : List (K × V)} {S : K → Prop} (hes : ∀ e ∈ es, S e.1)
    (hkv : ∀ e ∈ kv, S e.1) : ∀ e ∈ kv.foldl (fun m e => insert sem m e.1 e.2) es, S e.1 := by
  induction kv generalizing es with
  | nil => exact hes
  | cons f kv ih =>
    obtain ⟨hf, hkv⟩ := List.forall_mem_cons.mp hkv
    exact ih (keys_insert hes hf) hkv

theorem Distinct.inserts {kv : List (K × V)} {S : K → Prop} (hl : sem.LawfulOn S)
    (hd : Distinct sem es) (hes : ∀ e ∈ es, S e.1) (hkv : ∀ e ∈ kv, S e.1) :
    Distinct sem (kv.foldl (fun m e => KeyedMap.insert sem m e.1 e.2) es) := by
  induction kv generalizing es with
  | nil => exact hd
  | cons f kv ih =>
    obtain ⟨hf, hkv⟩ := List.forall_mem_cons.mp hkv
    have hlf : sem.LawfulOn (Among es f.1) := by
      refine hl.mono fun a ha => ?_
      rcases ha with rfl | ha
      · exact hf
      · obtain ⟨g, hg, rfl⟩ := List.mem_map.mp ha
        exact hes g hg
    exact ih (hd.insert hlf) (keys_insert hes hf) hkv

/-- Insertion looks at the keys only. -/
theorem insert_forall₂ {V' : Type} {R : V → V' → Prop} {es' : List (K × V')} {v' : V'}
    (h : List.Forall₂ (fun e e' => e.1 = e'.1 ∧ R e.2 e'.2) es es') (hv : R v v') :
    List.Forall₂ (fun e e' => e.1 = e'.1 ∧ R e.2 e'.2) (insert sem es k v)
      (insert sem es' k v') := by
  have hany : (es.any fun e => sem.equals k e.1) = es'.any fun e => sem.equals k e.1 := by
    induction h with
    | nil => rfl
    | cons he _ ih => rw [List.any_cons, List.any_cons, ih, he.1]
  unfold insert
  rw [hany]
  split
  · refine List.rel_map (fun e e' he => ?_) h
    rw [he.1]
    split
    · exact ⟨rfl, hv⟩
    · exact ⟨he.1, he.2⟩
  · exact List.rel_append h (.cons ⟨rfl, hv⟩ .nil)

theorem inserts_forall₂ {V' : Type} {R : V → V' → Prop} {es' : List (K × V')}
    {kv : List (K × V)} {kv' : List (K × V')}
    (h : List.Forall₂ (fun e e' => e.1 = e'.1 ∧ R e.2 e'.2) es es')
    (hkv : List.Forall₂ (fun e e' => e.1 = e'.1 ∧ R e.2 e'.2) kv kv') :
    List.Forall₂ (fun e e' => e.1 = e'.1 ∧ R e.2 e'.2)
      (kv.foldl (fun m e => insert sem m e.1 e.2) es)
      (kv'.foldl (fun m e => insert sem m e.1 e.2) es') := by
  induction hkv generalizing es es' with
  | nil => exact h
  | @cons e e' kv kv' he _ ih =>
    rw [List.foldl_cons, List.foldl_cons, ← he.1]
    exact ih (insert_forall₂ h he.2)

theorem Distinct.erase (hd : Distinct sem es) : Distinct sem (erase sem es k) :=
  hd.filter _

/-- In the new map an equal key names the entry it did, with the value; other keys what they did. -/
theorem find_insert {k' : K} (hd : Distinct sem es)
    (hl : sem.LawfulOn fun a => Among es k a ∨ a = k') :
    find sem (insert sem es k v) k' =
      if sem.equals k k' then some (((find sem es k).map Prod.fst).getD k, v)
      else find sem es k' := by
  have hlk : sem.LawfulOn (Among es k) := hl.mono fun a ha => .inl ha
  have hd' : Distinct sem (KeyedMap.insert sem es k v) := hd.insert hlk
  have hl' : sem.LawfulOn (Among (KeyedMap.insert sem es k v) k') := hl.mono fun a ha =>
    ha.elim .inr fun hm => .inl (among_insert hm)
  have hl₀ : sem.LawfulOn (Among es k') := hl.mono fun a ha =>
    ha.elim .inr fun hm => .inl (.inr hm)
  have hkS : Among es k k ∨ k = k' := .inl among_self
  have hk'S : Among es k k' ∨ k' = k' := .inr rfl
  have hgS : ∀ g ∈ es, Among es k g.1 ∨ g.1 = k' := fun g hg => .inl (among_of_mem hg)
  apply Option.ext
  intro w
  rw [find_eq_some hd' hl']
  by_cases hp : ∃ e ∈ es, sem.equals k e.1 = true
  · obtain ⟨e, he, hke⟩ := hp
    have hfind : find sem es k = some e := (find_eq_some hd hlk).mpr ⟨he, hke⟩
    rw [insert_of_present he hke, hfind, List.mem_map]
    by_cases hkk' : sem.equals k k' = true
    · rw [if_pos hkk']
      constructor
      · rintro ⟨⟨g, hg, rfl⟩, hk'g⟩
        have hkg : sem.equals k g.1 = true := by
          by_contra hkg
          rw [if_neg hkg] at hk'g
          exact hkg (hl.trans k k' g.1 hkS hk'S (hgS g hg) hkk' hk'g)
        rw [if_pos hkg, hd.eq_of_equals hlk he hg hke hkg]
        rfl
      · intro hw
        cases hw
        have hk'e := hl.trans k' k e.1 hk'S hkS (hgS e he) (hl.symm k k' hkS hk'S hkk') hke
        exact ⟨⟨e, he, by rw [if_pos hke]; rfl⟩, hk'e⟩
    · rw [if_neg hkk', find_eq_some hd hl₀]
      have hnot : ∀ g ∈ es, sem.equals k' g.1 = true → ¬ sem.equals k g.1 = true := by
        intro g hg hk'g hkg
        have hgk' := hl.symm k' g.1 hk'S (hgS g hg) hk'g
        exact hkk' (hl.trans k g.1 k' hkS (hgS g hg) hk'S hkg hgk')
      constructor
      · rintro ⟨⟨g, hg, rfl⟩, hk'g⟩
        have hg1 : sem.equals k' g.1 = true := by
          revert hk'g
          split <;> exact id
        rw [if_neg (hnot g hg hg1)]
        exact ⟨hg, hg1⟩
      · rintro ⟨hw, hk'w⟩
        exact ⟨⟨w, hw, by rw [if_neg (hnot w hw hk'w)]⟩, hk'w⟩
  · have hn : ∀ e ∈ es, sem.equals k e.1 = false := fun e he =>
      Bool.eq_false_iff.mpr fun hke => hp ⟨e, he, hke⟩
    rw [insert_of_absent hn, find_eq_none.mpr hn, List.mem_append, List.mem_singleton]
    by_cases hkk' : sem.equals k k' = true
    · rw [if_pos hkk']
      constructor
      · rintro ⟨hw | rfl, hk'w⟩
        · have hkw := hl.trans k k' w.1 hkS hk'S (hgS w hw) hkk' hk'w
          rw [hn w hw] at hkw
          cases hkw
        · rfl
      · intro hw
        cases hw
        exact ⟨.inr rfl, hl.symm k k' hkS hk'S hkk'⟩
    · rw [if_neg hkk', find_eq_some hd hl₀]
      constructor
      · rintro ⟨hw | rfl, hk'w⟩
        · exact ⟨hw, hk'w⟩
        · exact absurd (hl.symm k' k hk'S hkS hk'w) hkk'
      · rintro ⟨hw, hk'w⟩
        exact ⟨.inl hw, hk'w⟩

theorem find_erase {k' : K} (hd : Distinct sem es)
    (hl : sem.LawfulOn fun a => Among es k a ∨ a = k') :
    find sem (erase sem es k) k' = if sem.equals k k' then none else find sem es k' := by
  have hkS : Among es k k ∨ k = k' := .inl among_self
  have hk'S : Among es k k' ∨ k' = k' := .inr rfl
  have hgS : ∀ g ∈ es, Among es k g.1 ∨ g.1 = k' := fun g hg => .inl (among_of_mem hg)
  have hl₀ : sem.LawfulOn (Among es k') := hl.mono fun a ha =>
    ha.elim .inr fun hm => .inl (.inr hm)
  have hl' : sem.LawfulOn (Among (KeyedMap.erase sem es k) k') := hl₀.mono fun a ha =>
    ha.imp id fun hm => (List.filter_sublist.map Prod.fst).subset hm
  apply Option.ext
  intro w
  rw [find_eq_some hd.erase hl', KeyedMap.erase, List.mem_filter]
  by_cases hkk' : sem.equals k k' = true
  · rw [if_pos hkk']
    constructor
    · rintro ⟨⟨hw, hkw⟩, hk'w⟩
      simp [hl.trans k k' w.1 hkS hk'S (hgS w hw) hkk' hk'w] at hkw
    · exact nofun
  · rw [if_neg hkk', find_eq_some hd hl₀]
    constructor
    · rintro ⟨⟨hw, -⟩, hk'w⟩
      exact ⟨hw, hk'w⟩
    · rintro ⟨hw, hk'w⟩
      have hkw : sem.equals k w.1 = false := Bool.eq_false_iff.mpr fun hkw =>
        hkk' (hl.trans k w.1 k' hkS (hgS w hw) hk'S hkw (hl.symm k' w.1 hk'S (hgS w hw) hk'w))
      exact ⟨⟨hw, by simp [hkw]⟩, hk'w⟩

end Updates

/-! ### Two maps -/

/-- Each of the `es` has a partner among as many `fs`, no two the same: they pair off. -/
theorem exists_matching {α β : Type} {R : α → β → Prop} {es : List α} {fs : List β}
    (hd : es.Pairwise fun e e' => ∀ f ∈ fs, R e f → ¬ R e' f) (hlen : fs.length ≤ es.length)
    (hsub : ∀ e ∈ es, ∃ f ∈ fs, R e f) : ∃ fs', fs'.Perm fs ∧ List.Forall₂ R es fs' := by
  induction es generalizing fs with
  | nil =>
    rw [List.eq_nil_of_length_eq_zero (Nat.le_zero.mp hlen)]
    exact ⟨[], .refl _, .nil⟩
  | cons e es ih =>
    obtain ⟨f, hf, hef⟩ := hsub e List.mem_cons_self
    obtain ⟨l₁, l₂, rfl⟩ := List.mem_iff_append.mp hf
    have hmem : ∀ g ∈ l₁ ++ l₂, g ∈ l₁ ++ f :: l₂ := by
      intro g hg
      simp only [List.mem_append, List.mem_cons] at hg ⊢
      exact hg.imp id .inr
    have hrest : ∀ e' ∈ es, ∃ f' ∈ l₁ ++ l₂, R e' f' := by
      intro e' he'
      obtain ⟨f', hf', hef'⟩ := hsub e' (List.mem_cons_of_mem _ he')
      refine ⟨f', ?_, hef'⟩
      have hcases : f' ∈ l₁ ∨ f' = f ∨ f' ∈ l₂ := by simpa using hf'
      rcases hcases with h | rfl | h
      · exact List.mem_append_left _ h
      · exact absurd hef' (List.rel_of_pairwise_cons hd he' f' hf hef)
      · exact List.mem_append_right _ h
    have hlen' : (l₁ ++ l₂).length ≤ es.length := by
      simp only [List.length_append, List.length_cons] at hlen ⊢
      omega
    have hd' := hd.of_cons.imp fun {_ _} h g hg => h g (hmem g hg)
    obtain ⟨fs', hperm, hall⟩ := ih hd' hlen' hrest
    exact ⟨f :: fs', (hperm.cons f).trans List.perm_middle.symm, .cons hef hall⟩

/-- As many entries, and every key of one among the keys of the other: the entries pair off. -/
theorem Distinct.matching {sem : KeySemantics K} {es fs : List (K × V)} (hd : Distinct sem es)
    (hl : sem.LawfulOn fun a => a ∈ es.map Prod.fst ∨ a ∈ fs.map Prod.fst)
    (hlen : fs.length ≤ es.length) {R : K × V → K × V → Prop}
    (hR : ∀ e f, R e f → sem.equals e.1 f.1 = true) (hsub : ∀ e ∈ es, ∃ f ∈ fs, R e f) :
    ∃ fs', fs'.Perm fs ∧ List.Forall₂ R es fs' := by
  refine exists_matching (hd.imp_of_mem fun {e e'} he he' hne f hf hef hef' => ?_) hlen hsub
  have heS := Or.inl (b := e.1 ∈ fs.map Prod.fst) (List.mem_map_of_mem (f := Prod.fst) he)
  have heS' := Or.inl (b := e'.1 ∈ fs.map Prod.fst) (List.mem_map_of_mem (f := Prod.fst) he')
  have hfS := Or.inr (a := f.1 ∈ es.map Prod.fst) (List.mem_map_of_mem (f := Prod.fst) hf)
  have hfe' := hl.symm e'.1 f.1 heS' hfS (hR e' f hef')
  rw [hl.trans e.1 f.1 e'.1 heS hfS heS' (hR e f hef) hfe'] at hne
  cases hne

theorem Distinct.length_le {sem : KeySemantics K} {es fs : List (K × V)} (hd : Distinct sem es)
    (hl : sem.LawfulOn fun a => a ∈ es.map Prod.fst ∨ a ∈ fs.map Prod.fst)
    (hsub : ∀ e ∈ es, ∃ f ∈ fs, sem.equals e.1 f.1 = true) : es.length ≤ fs.length := by
  by_contra hlt
  obtain ⟨fs', hp, hall⟩ := hd.matching (R := fun e f => sem.equals e.1 f.1 = true) hl (by omega)
    (fun _ _ h => h) hsub
  have := hall.length_eq.trans hp.length_eq
  omega

theorem mem_of_matching {α β : Type} {R : α → β → Prop} {es : List α} {fs fs' : List β}
    (hp : fs'.Perm fs) (h : List.Forall₂ R es fs') {f : β} (hf : f ∈ fs) : ∃ e ∈ es, R e f := by
  have hf' := hp.mem_iff.mpr hf
  clear hp hf
  induction h with
  | nil => cases hf'
  | cons hef _ ih =>
    rcases List.mem_cons.mp hf' with rfl | hf'
    · exact ⟨_, List.mem_cons_self, hef⟩
    · obtain ⟨e, he, h⟩ := ih hf'
      exact ⟨e, List.mem_cons_of_mem _ he, h⟩

/-! ### A hashed representation -/

/-- A map object: its address, and its entries as a walk meets them. -/
structure HashedMap (K V : Type) where
  address : Nat
  entries : List (K × V)
deriving DecidableEq

/-- The operations of a hashed-collection helper; what it does inside is its own. -/
structure Helper (K V : Type) where
  newMap : HashedMap K V
  hashedGet : KeySemantics K → HashedMap K V → K → Option V
  hashedPut : KeySemantics K → HashedMap K V → K → V → HashedMap K V
  hashedRemove : KeySemantics K → HashedMap K V → K → HashedMap K V

/-- What a helper does with keys whose semantics is lawful. -/
structure Helper.Lawful (h : Helper K V) : Prop where
  newMap : h.newMap.entries = []
  get : ∀ sem m k, sem.LawfulOn (Among m.entries k) → Distinct sem m.entries →
    h.hashedGet sem m k = lookup sem m.entries k
  put : ∀ sem m k v, sem.LawfulOn (Among m.entries k) → Distinct sem m.entries →
    (h.hashedPut sem m k v).entries.Perm (insert sem m.entries k v)
  remove : ∀ sem m k, sem.LawfulOn (Among m.entries k) → Distinct sem m.entries →
    (h.hashedRemove sem m k).entries.Perm (erase sem m.entries k)

section Slots
variable [DecidableEq K]

/-- The entries where the helper looks for a key: under the key itself when it is matched by
being the same, else in the slot of the low 54 bits of its hash. -/
def sameSlot (sem : KeySemantics K) (k a : K) : Bool :=
  if sem.isIdentity k then a = k
  else sem.hash a % 0x40000000000000 = sem.hash k % 0x40000000000000 && sem.equals k a

/-- Looking under the key or in its slot finds what looking everywhere does. -/
theorem sameSlot_eq {sem : KeySemantics K} {S : K → Prop} (hl : sem.LawfulOn S) {k a : K}
    (hk : S k) (ha : S a) : sameSlot sem k a = sem.equals k a := by
  unfold sameSlot
  split
  · rename_i hid
    rw [Bool.eq_iff_iff, decide_eq_true_iff]
    constructor
    · rintro rfl
      exact hl.refl a ha
    · intro h
      exact (hl.identity k a hk ha (.inl hid) h).symm
  · cases h : sem.equals k a with
    | false => simp
    | true => simp [hl.hash k a hk ha h]

/-- A helper that keeps one list and looks where an entry may live. -/
def bySlot : Helper K V where
  newMap := ⟨0, []⟩
  hashedGet sem m k := (m.entries.find? fun e => sameSlot sem k e.1).map Prod.snd
  hashedPut sem m k v := ⟨m.address + 1,
    if m.entries.any fun e => sameSlot sem k e.1 then
      m.entries.map fun e => if sameSlot sem k e.1 then (e.1, v) else e
    else m.entries ++ [(k, v)]⟩
  hashedRemove sem m k := ⟨m.address + 1, m.entries.filter fun e => !sameSlot sem k e.1⟩

theorem bySlot_lawful : (bySlot : Helper K V).Lawful where
  newMap := rfl
  get sem m k hl _ := by
    have h : ∀ e ∈ m.entries, sameSlot sem k e.1 = sem.equals k e.1 := fun e he =>
      sameSlot_eq hl among_self (among_of_mem he)
    exact congrArg (Option.map Prod.snd) (List.find?_congr h)
  put sem m k v hl _ := by
    have h : ∀ e ∈ m.entries, sameSlot sem k e.1 = sem.equals k e.1 := fun e he =>
      sameSlot_eq hl among_self (among_of_mem he)
    have hany : (m.entries.any fun e => sameSlot sem k e.1) =
        m.entries.any fun e => sem.equals k e.1 := by
      rw [Bool.eq_iff_iff, List.any_eq_true, List.any_eq_true]
      exact exists_congr fun e => and_congr_right fun he => by rw [h e he]
    have hmap : (m.entries.map fun e => if sameSlot sem k e.1 then (e.1, v) else e) =
        m.entries.map fun e => if sem.equals k e.1 then (e.1, v) else e :=
      List.map_congr_left fun e he => by rw [h e he]
    unfold bySlot insert
    simp only [hany, hmap]
    exact .refl _
  remove sem m k hl _ := by
    have h : ∀ e ∈ m.entries, (!sameSlot sem k e.1) = !sem.equals k e.1 := fun e he => by
      rw [sameSlot_eq hl among_self (among_of_mem he)]
    exact .of_eq (List.filter_congr h)

end Slots
end ProtoClojure.KeyedMap
