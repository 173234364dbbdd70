import Mathlib.Data.UInt
import Mathlib.Algebra.BigOperators.Group.List.Basic
import ProtoClojure.Runtime.MapOps

/-! The laws of the key semantics: an equivalence, a hash that agrees with it, and identity
where the classification says so. -/

namespace ProtoClojure.Maps
open KeyedMap
variable {P : ProtoCore}

/-- Maps and sets hold distinct keys, at every depth. -/
inductive WellFormed (P : ProtoCore) : Value → Prop where
  | mk (v : Value) : (∀ w ∈ v.parts, WellFormed P w) →
      (∀ m, v.asMap = some m ∨ v.setElements = some m →
        Distinct (clojureKeySemantics P) m.entries) → WellFormed P v

theorem WellFormed.parts {v w : Value} (h : WellFormed P v) (hw : w ∈ v.parts) :
    WellFormed P w := by
  cases h with
  | mk _ hp => exact hp w hw

theorem WellFormed.distinct {v : Value} {m : HashedMap Value Value} (h : WellFormed P v)
    (hm : v.asMap = some m ∨ v.setElements = some m) :
    Distinct (clojureKeySemantics P) m.entries := by
  cases h with
  | mk _ _ hd => exact hd m hm

theorem WellFormed.embedded (w : Embedded) : WellFormed P (.embedded w) :=
  .mk _ nofun (by simp [Value.asMap, Value.setElements])

theorem WellFormed.protoList {address : Nat} {items : List Value}
    (h : ∀ x ∈ items, WellFormed P x) : WellFormed P (.protoList address items) :=
  .mk _ h (by simp [Value.asMap, Value.setElements])

theorem WellFormed.vector {address : Nat} {items : List Value}
    (h : ∀ x ∈ items, WellFormed P x) : WellFormed P (.vector address items) :=
  .mk _ h (by simp [Value.asMap, Value.setElements])

theorem WellFormed.elements {v : Value} (h : WellFormed P v) :
    ∀ x ∈ v.elements, WellFormed P x := by
  induction v using Value.elements.induct with
  | case1 | case2 | case3 => exact fun x hx => h.parts hx
  | case4 _ seq ih => exact ih (h.parts (by simp [Value.parts]))
  | case5 _ first more ih =>
    intro x hx
    rcases List.mem_cons.mp hx with rfl | hx
    · exact h.parts (by simp [Value.parts])
    · exact ih (h.parts (by simp [Value.parts])) x hx
  | case6 _ items off stop _ more ih =>
    intro x hx
    rcases List.mem_append.mp hx with hx | hx
    · have hitems := List.mem_of_mem_drop (List.mem_of_mem_take hx)
      exact h.parts (List.mem_append_left _ hitems)
    · exact ih (h.parts (by simp [Value.parts])) x hx
  | case7 m =>
    intro x hx
    obtain ⟨e, he, rfl⟩ := List.mem_map.mp hx
    refine .vector fun y hy => ?_
    have hy : y = e.1 ∨ y = e.2 := by simpa using hy
    rcases hy with rfl | rfl
    · exact h.parts (List.mem_append_left _ (List.mem_map_of_mem he))
    · exact h.parts (List.mem_append_right _ (List.mem_map_of_mem he))
  | case8 _ m => exact fun x hx => h.parts (List.mem_append_left _ hx)
  | case9 | case10 | case11 | case12 | case13 => exact nofun

/-! ### What is compared -/

/-- A value as a key: the kinds of keys that may match in different objects. -/
inductive Shape where
  | same
  | text (s : String)
  | bits (x : UInt64)
  | integer (n : Int)
  | seq (xs : List Value)
  | map (es : List (Value × Value))
  | set (es : List (Value × Value))

def Value.shape : Value → Shape
  | .string _ _ s => .text s
  | .double _ x => .bits x
  | .largeInteger _ n => .integer n
  | .list _ xs | .protoList _ xs | .vector _ xs => .seq xs
  | .map m => .map m.entries
  | .set _ m => .set m.entries
  | v@(.lazy ..) | v@(.cons ..) | v@(.chunk ..) => .seq v.elements
  | .embedded _ | .identity .. => .same

/-- Shapes match when their parts are related. -/
def Shape.Matches (R : Value → Value → Prop) : Shape → Shape → Prop
  | .text s, .text t => s = t
  | .bits x, .bits y => x = y
  | .integer m, .integer n => m = n
  | .seq xs, .seq ys => List.Forall₂ R xs ys
  | .map es, .map fs => es.length = fs.length ∧ ∀ e ∈ es, ∃ f ∈ fs, R e.1 f.1 ∧ R e.2 f.2
  | .set es, .set fs => es.length = fs.length ∧ ∀ e ∈ es, ∃ f ∈ fs, R e.1 f.1
  | _, _ => False

def KeyEq (P : ProtoCore) (a b : Value) : Prop := keyEquals P a b = true

@[simp] theorem keyEqualsWithin_self (stack : Nat) (a : Value) :
    keyEqualsWithin P stack a a = true := by
  cases stack <;> simp [keyEqualsWithin]

@[simp] theorem keyEquals_self (a : Value) : keyEquals P a a = true := keyEqualsWithin_self _ a

theorem KeyEq.refl (a : Value) : KeyEq P a a := keyEquals_self a

theorem Shape.matches_refl {R : Value → Value → Prop} (hR : ∀ a, R a a) {s : Shape}
    (hs : s ≠ .same) : s.Matches R s := by
  cases s with
  | same => exact absurd rfl hs
  | text | bits | integer => rfl
  | seq xs => exact List.forall₂_same.mpr fun x _ => hR x
  | map es => exact ⟨rfl, fun e he => ⟨e, he, hR e.1, hR e.2⟩⟩
  | set es => exact ⟨rfl, fun e he => ⟨e, he, hR e.1⟩⟩

/-! ### The comparisons, when the parts are compared rightly -/

theorem sequenceEquals_iff {keyEquals : Value → Value → Bool} {xs ys : List Value} :
    sequenceEquals keyEquals xs ys = true ↔
      List.Forall₂ (fun x y => keyEquals x y = true) xs ys := by
  simp [sequenceEquals, List.forall₂_iff_zip]

theorem forall₂_imp_of_mem {α β : Type} {R S : α → β → Prop} {xs : List α} {ys : List β}
    (h : ∀ x ∈ xs, ∀ y ∈ ys, R x y → S x y) (hR : List.Forall₂ R xs ys) : List.Forall₂ S xs ys := by
  rw [List.forall₂_iff_zip] at hR ⊢
  refine ⟨hR.1, fun {x y} hxy => ?_⟩
  exact h x (List.of_mem_zip hxy).1 y (List.of_mem_zip hxy).2 (hR.2 hxy)

theorem forall₂_congr_of_mem {R S : Value → Value → Prop} {xs ys : List Value}
    (h : ∀ x ∈ xs, ∀ y ∈ ys, R x y ↔ S x y) : List.Forall₂ R xs ys ↔ List.Forall₂ S xs ys :=
  ⟨forall₂_imp_of_mem fun x hx y hy => (h x hx y hy).mp,
    forall₂_imp_of_mem fun x hx y hy => (h x hx y hy).mpr⟩

theorem compareEntries_iff (hP : P.Lawful) {sem : KeySemantics Value}
    {valueEq : Value → Value → Bool} {a b : HashedMap Value Value}
    (hd : Distinct sem b.entries) (hl : ∀ e ∈ a.entries, sem.LawfulOn (Among b.entries e.1)) :
    compareEntries P sem valueEq a b = true ↔
      ∀ e ∈ a.entries, ∃ f ∈ b.entries, sem.equals e.1 f.1 = true ∧ valueEq e.2 f.2 = true := by
  unfold compareEntries
  rw [List.all_eq_true]
  refine forall_congr' fun e => forall_congr' fun he => ?_
  rw [hP.helper.get sem b e.1 (hl e he) hd]
  constructor
  · intro h
    split at h
    · rename_i mine hmine
      obtain ⟨f, hf, hef, rfl⟩ := (lookup_eq_some hd (hl e he)).mp hmine
      exact ⟨f, hf, hef, h⟩
    · cases h
  · rintro ⟨f, hf, hef, hv⟩
    have hfound := (lookup_eq_some hd (hl e he)).mpr ⟨f, hf, hef, rfl⟩
    simp only [hfound]
    exact hv

/-! ### Sizes -/

theorem Value.rank_lt_of_mem_items {x : Value} {xs : List Value} (h : x ∈ xs) :
    x.rank ≤ rankItems xs := by
  induction xs with
  | nil => cases h
  | cons y xs ih =>
    simp only [rankItems]
    rcases List.mem_cons.mp h with rfl | h
    · omega
    · have := ih h
      omega

theorem Value.rank_add_of_mem_items {x y : Value} {xs : List Value} (hx : x ∈ xs) (hy : y ∈ xs)
    (hne : x ≠ y) : x.rank + y.rank ≤ rankItems xs := by
  induction xs with
  | nil => cases hx
  | cons z xs ih =>
    simp only [rankItems]
    rcases List.mem_cons.mp hx with rfl | hx'
    · rcases List.mem_cons.mp hy with rfl | hy'
      · exact absurd rfl hne
      · have := rank_lt_of_mem_items hy'
        omega
    · rcases List.mem_cons.mp hy with rfl | hy'
      · have := rank_lt_of_mem_items hx'
        omega
      · have := ih hx' hy'
        omega

theorem Value.rank_of_mem_elements {x v : Value} (h : x ∈ v.elements) : x.rank < v.rank := by
  have h₁ := rank_lt_of_mem_items h
  have h₂ := rankItems_elements v
  omega

theorem Value.rank_entry {e : Value × Value} {m : HashedMap Value Value} (he : e ∈ m.entries) :
    e.1.rank + e.2.rank ≤ rankMap m := by
  have h₁ := rank_lt_of_mem_items (List.mem_map_of_mem (f := Prod.fst) he)
  have h₂ := rank_lt_of_mem_items (List.mem_map_of_mem (f := Prod.snd) he)
  have h₃ := rankItems_keys_le m.entries
  rw [rankMap_eq]
  omega

/-! ### The laws, up to a size -/

def Upto (P : ProtoCore) (n : Nat) (v : Value) : Prop := WellFormed P v ∧ v.rank ≤ n

structure LawsTo (P : ProtoCore) (n : Nat) : Prop where
  /-- More stack than the values need changes nothing. -/
  stable : ∀ a b, Upto P n a → Upto P n b → ∀ stack, a.rank + b.rank ≤ stack →
    keyEqualsWithin P stack a b = keyEquals P a b
  lawful : (clojureKeySemantics P).LawfulOn (Upto P n)

theorem Upto.element {n : Nat} {v x : Value} (h : Upto P (n + 1) v) (hx : x ∈ v.elements) :
    Upto P n x := by
  have hrank := Value.rank_of_mem_elements hx
  exact ⟨h.1.elements x hx, by have := h.2; omega⟩

theorem Upto.entry {n : Nat} {v : Value} {m : HashedMap Value Value} {e : Value × Value}
    (h : Upto P (n + 1) v) (hparts : v.parts = m.entries.map Prod.fst ++ m.entries.map Prod.snd)
    (hrank : v.rank = 1 + Value.rankMap m) (he : e ∈ m.entries) :
    Upto P n e.1 ∧ Upto P n e.2 := by
  have hle := Value.rank_entry he
  have hv := h.2
  refine ⟨⟨h.1.parts ?_, by omega⟩, ⟨h.1.parts ?_, by omega⟩⟩
  · rw [hparts]
    exact List.mem_append_left _ (List.mem_map_of_mem he)
  · rw [hparts]
    exact List.mem_append_right _ (List.mem_map_of_mem he)

/-- What the helper asks while `k` is looked up in `m` is answered rightly. -/
theorem LawsTo.agree {n stack : Nat} (h : LawsTo P n) {m : HashedMap Value Value} {k : Value}
    (hk : Upto P n k) (hm : ∀ e ∈ m.entries, Upto P n e.1)
    (hstack : k.rank + Value.rankMap m ≤ stack) {x y : Value} (hx : Among m.entries k x)
    (hy : Among m.entries k y) : keyEqualsWithin P stack x y = keyEquals P x y := by
  have hkeys : ∀ z ∈ m.entries.map Prod.fst, Upto P n z := by
    intro z hz
    obtain ⟨e, he, rfl⟩ := List.mem_map.mp hz
    exact hm e he
  have hitems := Value.rankItems_keys_le m.entries
  rw [Value.rankMap_eq] at hstack
  by_cases hxy : x = y
  · rw [hxy, keyEqualsWithin_self, keyEquals_self]
  rcases hx with rfl | hx
  · rcases hy with rfl | hy
    · exact absurd rfl hxy
    · have := Value.rank_lt_of_mem_items hy
      exact h.stable x y hk (hkeys y hy) stack (by omega)
  · rcases hy with rfl | hy
    · have := Value.rank_lt_of_mem_items hx
      exact h.stable x y (hkeys x hx) hk stack (by omega)
    · have := Value.rank_add_of_mem_items hx hy hxy
      exact h.stable x y (hkeys x hx) (hkeys y hy) stack (by omega)

theorem LawsTo.lawfulWithin {n stack : Nat} (h : LawsTo P n) {m : HashedMap Value Value}
    {k : Value} (hk : Upto P n k) (hm : ∀ e ∈ m.entries, Upto P n e.1)
    (hstack : k.rank + Value.rankMap m ≤ stack) :
    (semantics P (keyEqualsWithin P stack)).LawfulOn (Among m.entries k) := by
  have hamong : ∀ x, Among m.entries k x → Upto P n x := by
    rintro x (rfl | hx)
    · exact hk
    · obtain ⟨e, he, rfl⟩ := List.mem_map.mp hx
      exact hm e he
  exact (h.lawful.mono hamong).congr (fun x y hx hy => h.agree hk hm hstack hx hy)
    (fun _ _ => rfl) (fun _ _ => rfl)

theorem LawsTo.distinctWithin {n stack : Nat} (h : LawsTo P n) {m : HashedMap Value Value}
    {k : Value} (hk : Upto P n k) (hm : ∀ e ∈ m.entries, Upto P n e.1)
    (hstack : k.rank + Value.rankMap m ≤ stack) (hd : Distinct (clojureKeySemantics P) m.entries) :
    Distinct (semantics P (keyEqualsWithin P stack)) m.entries :=
  hd.imp_of_mem fun {_ _} he hf hef =>
    (h.agree hk hm hstack (among_of_mem he) (among_of_mem hf)).trans hef

/-- A walk over one map that looks its keys up in another. -/
theorem LawsTo.compareEntries_iff {n stack : Nat} (hP : P.Lawful) (h : LawsTo P n)
    {valueEq : Value → Value → Bool} {a b : HashedMap Value Value}
    (ha : ∀ e ∈ a.entries, Upto P n e.1) (hb : ∀ e ∈ b.entries, Upto P n e.1)
    (hstack : Value.rankMap a + Value.rankMap b ≤ stack)
    (hd : Distinct (clojureKeySemantics P) b.entries) :
    compareEntries P (semantics P (keyEqualsWithin P stack)) valueEq a b = true ↔
      ∀ e ∈ a.entries, ∃ f ∈ b.entries, KeyEq P e.1 f.1 ∧ valueEq e.2 f.2 = true := by
  have hle : ∀ e ∈ a.entries, e.1.rank + Value.rankMap b ≤ stack := fun e he => by
    have := Value.rank_entry he
    omega
  cases hentries : a.entries with
  | nil => simp [compareEntries, hentries]
  | cons e₀ _ =>
    have he₀ : e₀ ∈ a.entries := by simp [hentries]
    have hd' := h.distinctWithin (ha e₀ he₀) hb (hle e₀ he₀) hd
    rw [← hentries, ProtoClojure.Maps.compareEntries_iff hP hd' fun e he =>
      h.lawfulWithin (ha e he) hb (hle e he)]
    refine forall_congr' fun e => forall_congr' fun he => exists_congr fun f =>
      and_congr_right fun hf => ?_
    have hagree := h.agree (ha e he) hb (hle e he) among_self (among_of_mem hf)
    have hequals : (semantics P (keyEqualsWithin P stack)).equals e.1 f.1 = keyEquals P e.1 f.1 :=
      hagree
    rw [hequals]
    rfl

/-- The shortcuts of `setEquals` change nothing. -/
theorem setEquals_of_entries {sem : KeySemantics Value} {a b : HashedMap Value Value}
    (h : compareEntries P sem (fun _ _ => true) a b = true ↔
      ∀ e ∈ a.entries, ∃ f ∈ b.entries, KeyEq P e.1 f.1) :
    setEquals P sem a b = true ↔ a.entries.length = b.entries.length ∧
      ∀ e ∈ a.entries, ∃ f ∈ b.entries, KeyEq P e.1 f.1 := by
  unfold setEquals mapEqualsBy
  by_cases hab : a = b
  · subst hab
    simpa using fun k v he => ⟨k, ⟨v, he⟩, KeyEq.refl k⟩
  rw [if_neg hab]
  by_cases hlen : a.entries.length = b.entries.length
  · rw [if_neg (not_not.mpr hlen)]
    by_cases hzero : a.entries.length = 0
    · rw [if_pos hzero]
      have hnil := List.eq_nil_of_length_eq_zero hzero
      have hnil' := List.eq_nil_of_length_eq_zero (hlen ▸ hzero)
      simp [hnil, hnil']
    · rw [if_neg hzero, h, and_iff_right hlen]
  · rw [if_pos hlen]
    simp [hlen]

theorem LawsTo.setEquals_iff {n stack : Nat} (hP : P.Lawful) (h : LawsTo P n)
    {a b : HashedMap Value Value} (ha : ∀ e ∈ a.entries, Upto P n e.1)
    (hb : ∀ e ∈ b.entries, Upto P n e.1) (hstack : Value.rankMap a + Value.rankMap b ≤ stack)
    (hd : Distinct (clojureKeySemantics P) b.entries) :
    setEquals P (semantics P (keyEqualsWithin P stack)) a b = true ↔
      a.entries.length = b.entries.length ∧
        ∀ e ∈ a.entries, ∃ f ∈ b.entries, KeyEq P e.1 f.1 := by
  refine setEquals_of_entries ((h.compareEntries_iff hP ha hb hstack hd).trans ?_)
  simp

/-- The comparison of two values that are not seq objects to be read. -/
theorem LawsTo.realised_iff {n stack : Nat} (hP : P.Lawful) (h : LawsTo P n) {a b : Value}
    (ha : Upto P (n + 1) a) (hb : Upto P (n + 1) b) (hua : a.unrealised = false)
    (hub : b.unrealised = false) (hstack : a.rank + b.rank ≤ stack + 1) :
    keyEqualsWithin P (stack + 1) a b = true ↔ a = b ∨ a.shape.Matches (KeyEq P) b.shape := by
  by_cases hab : a = b
  · simp [hab]
  rw [keyEqualsWithin.eq_def]
  dsimp only
  rw [if_neg hab, or_iff_right hab]
  have hseq : ∀ {xs ys : List Value}, a.elements = xs → b.elements = ys →
      (sequenceEquals (keyEqualsWithin P stack) xs ys = true ↔ List.Forall₂ (KeyEq P) xs ys) := by
    rintro _ _ rfl rfl
    rw [sequenceEquals_iff]
    refine forall₂_congr_of_mem fun x hx y hy => ?_
    have hrx := Value.rank_of_mem_elements hx
    have hry := Value.rank_of_mem_elements hy
    rw [h.stable x y (ha.element hx) (hb.element hy) stack (by omega)]
    rfl
  cases a with
  | lazy | cons | chunk => cases hua
  | string =>
    cases b with
    | lazy | cons | chunk => cases hub
    | string => simp [Value.isStringTagFast, Value.shape, Shape.Matches, hP.stringCompare]
    | _ => simp [Value.isStringTagFast, Value.shape, Shape.Matches]
  | list _ xs | protoList _ xs | vector _ xs =>
    cases b with
    | lazy | cons | chunk => cases hub
    | list _ ys | protoList _ ys | vector _ ys =>
      simpa [Value.isStringTagFast, Value.unrealised, Value.isSequential, Value.shape,
        Shape.Matches, Value.elements] using hseq rfl rfl
    | _ =>
      simp [Value.isStringTagFast, Value.unrealised, Value.isSequential, Value.shape,
        Shape.Matches]
  | map m =>
    cases b with
    | lazy | cons | chunk => cases hub
    | map m' =>
      simp only [Value.isStringTagFast, Value.unrealised, Value.isSequential, Value.shape,
        Shape.Matches, mapKeyEquals, Bool.or_self, Bool.false_eq_true, if_false,
        Bool.and_eq_true, beq_iff_eq]
      refine and_congr_right fun _ => ?_
      have hma := fun e he => ha.entry (e := e) (m := m) rfl rfl he
      have hmb := fun e he => hb.entry (e := e) (m := m') rfl rfl he
      simp only [Value.rank] at hstack
      rw [h.compareEntries_iff hP (fun e he => (hma e he).1) (fun e he => (hmb e he).1) (by omega)
        (hb.1.distinct (.inl rfl))]
      refine forall_congr' fun e => forall_congr' fun he => exists_congr fun f =>
        and_congr_right fun hf => and_congr_right fun _ => ?_
      have hre := Value.rank_entry he
      have hrf := Value.rank_entry hf
      have hvalue : keyEqualsWithin P stack e.2 f.2 = keyEquals P e.2 f.2 :=
        h.stable e.2 f.2 (hma e he).2 (hmb f hf).2 stack (by omega)
      exact iff_of_eq (congrArg (· = true) hvalue)
    | _ =>
      simp [Value.isStringTagFast, Value.unrealised, Value.isSequential, Value.shape,
        Shape.Matches]
  | set _ m =>
    cases b with
    | lazy | cons | chunk => cases hub
    | set _ m' =>
      simp only [Value.isStringTagFast, Value.unrealised, Value.isSequential, Value.shape,
        Shape.Matches, Bool.or_self, Bool.false_eq_true, if_false]
      simp only [Value.rank] at hstack
      have hle : Value.rankMap m + Value.rankMap m' ≤ stack := by omega
      exact h.setEquals_iff hP (fun e he => (ha.entry (m := m) rfl rfl he).1)
        (fun e he => (hb.entry (m := m') rfl rfl he).1) hle (hb.1.distinct (.inr rfl))
    | _ =>
      simp [Value.isStringTagFast, Value.unrealised, Value.isSequential, Value.shape,
        Shape.Matches]
  | double | largeInteger | embedded | identity =>
    cases b with
    | lazy | cons | chunk => cases hub
    | _ =>
      simp [Value.isStringTagFast, Value.unrealised, Value.isSequential, Value.shape,
        Shape.Matches, hP.integerCompare]

/-- A value as `keyEquals` reads it: a seq object as the list of its elements. -/
def Value.read (v : Value) : Value := if v.unrealised then .protoList 0 v.elements else v

theorem Value.read_of_unrealised {v : Value} (h : v.unrealised = true) :
    v.read = .protoList 0 v.elements := if_pos h

theorem Value.read_of_realised {v : Value} (h : v.unrealised = false) : v.read = v := by
  simp [read, h]

theorem Value.read_unrealised (v : Value) : v.read.unrealised = false := by
  cases h : v.unrealised with
  | true =>
    rw [read_of_unrealised h]
    rfl
  | false => rw [read_of_realised h, h]

theorem Value.read_shape (v : Value) : v.read.shape = v.shape := by
  cases v <;> rfl

theorem Value.read_rank (v : Value) : v.read.rank ≤ v.rank := by
  cases h : v.unrealised with
  | true =>
    have := rankItems_elements v
    rw [read_of_unrealised h]
    simp only [rank]
    omega
  | false => rw [read_of_realised h]

theorem Value.read_rank_lt {v : Value} (h : v.unrealised = true) : v.read.rank < v.rank := by
  have hlt : rankItems v.elements + 1 < v.rank := by
    cases v with
    | lazy _ seq =>
      have := rankItems_elements seq
      simp only [elements, rank]
      omega
    | cons _ first more =>
      have := rankItems_elements more
      simp only [elements, rankItems, rank]
      omega
    | chunk _ items off stop _ more =>
      have hsub : ((items.drop off).take (stop - off)).Sublist items :=
        (List.take_sublist ..).trans (List.drop_sublist ..)
      have := rankItems_sublist hsub
      have := rankItems_elements more
      simp only [elements, rankItems_append, rank]
      omega
    | _ => cases h
  rw [read_of_unrealised h]
  simp only [rank]
  omega

theorem Upto.read {n : Nat} {v : Value} (h : Upto P n v) : Upto P n v.read := by
  refine ⟨?_, v.read_rank.trans h.2⟩
  cases hu : v.unrealised with
  | true =>
    rw [Value.read_of_unrealised hu]
    exact .protoList h.1.elements
  | false =>
    rw [Value.read_of_realised hu]
    exact h.1

theorem Value.seq_of_unrealised {v : Value} (h : v.unrealised = true) :
    v.shape = .seq v.elements := by
  cases v <;> first | rfl | cases h

theorem LawsTo.equalsWithin_iff {n stack : Nat} (hP : P.Lawful) (h : LawsTo P n) {a b : Value}
    (ha : Upto P (n + 1) a) (hb : Upto P (n + 1) b) (hstack : a.rank + b.rank ≤ stack) :
    keyEqualsWithin P stack a b = true ↔ a = b ∨ a.shape.Matches (KeyEq P) b.shape := by
  obtain ⟨stack, rfl⟩ : ∃ k, stack = k + 1 :=
    ⟨stack - 1, by have := a.rank_pos; omega⟩
  cases hu : a.unrealised || b.unrealised with
  | false =>
    obtain ⟨hua, hub⟩ := Bool.or_eq_false_iff.mp hu
    exact h.realised_iff hP ha hb hua hub hstack
  | true =>
    by_cases hab : a = b
    · simp [hab]
    have hstrings : (a.isStringTagFast || b.isStringTagFast) = true →
        ¬ a.shape.Matches (KeyEq P) b.shape ∧ ∀ s t : String, ∀ f g i j,
          ¬ (a = .string f i s ∧ b = .string g j t) := by
      intro hs
      cases a <;> cases b <;>
        simp [Value.isStringTagFast, Value.unrealised, Value.shape, Shape.Matches] at hs hu ⊢
    rw [keyEqualsWithin.eq_def]
    dsimp only
    rw [if_neg hab, or_iff_right hab]
    split
    · rename_i hs
      obtain ⟨hno, hno'⟩ := hstrings hs
      split
      · exact absurd ⟨rfl, rfl⟩ (hno' _ _ _ _ _ _)
      · simp [hno]
    · have hlt : a.read.rank + b.read.rank < a.rank + b.rank := by
        have h₁ := a.read_rank
        have h₂ := b.read_rank
        rcases Bool.or_eq_true_iff.mp hu with hu | hu
        · have := Value.read_rank_lt hu
          omega
        · have := Value.read_rank_lt hu
          omega
      obtain ⟨stack, rfl⟩ : ∃ k, stack = k + 1 :=
        ⟨stack - 1, by have := a.read.rank_pos; omega⟩
      have hread : keyEqualsWithin P (stack + 1) a.read b.read = true ↔
          a.read = b.read ∨ a.read.shape.Matches (KeyEq P) b.read.shape :=
        h.realised_iff hP ha.read hb.read a.read_unrealised b.read_unrealised (by omega)
      rw [a.read_shape, b.read_shape] at hread
      refine hread.trans (or_iff_right_of_imp fun he => ?_)
      have hshape : a.shape = b.shape := by
        rw [← a.read_shape, ← b.read_shape, he]
      rw [← hshape]
      refine Shape.matches_refl KeyEq.refl ?_
      rcases Bool.or_eq_true_iff.mp hu with hu | hu
      · rw [Value.seq_of_unrealised hu]
        exact nofun
      · rw [hshape, Value.seq_of_unrealised hu]
        exact nofun

theorem LawsTo.keyEq_iff {n : Nat} (hP : P.Lawful) (h : LawsTo P n) {a b : Value}
    (ha : Upto P (n + 1) a) (hb : Upto P (n + 1) b) :
    KeyEq P a b ↔ a = b ∨ a.shape.Matches (KeyEq P) b.shape :=
  h.equalsWithin_iff hP ha hb (Nat.le_refl _)

/-! ### The hash -/

theorem foldl_combine_congr {keyHash keyHash' : Value → UInt64} {xs ys : List Value}
    (h : List.Forall₂ (fun x y => keyHash x = keyHash' y) xs ys) (acc : UInt64) :
    xs.foldl (fun h x => combine h (keyHash x)) acc =
      ys.foldl (fun h y => combine h (keyHash' y)) acc := by
  induction h generalizing acc with
  | nil => rw [List.foldl_nil, List.foldl_nil]
  | cons hxy _ ih =>
    rw [List.foldl_cons, List.foldl_cons, hxy]
    exact ih _

theorem sequenceHash_congr {keyHash keyHash' : Value → UInt64} {xs ys : List Value}
    (h : List.Forall₂ (fun x y => keyHash x = keyHash' y) xs ys) :
    sequenceHash keyHash xs = sequenceHash keyHash' ys := by
  unfold sequenceHash
  rw [h.length_eq]
  exact foldl_combine_congr h _

theorem mapHash_congr {keyHash keyHash' : Value → UInt64} {m : HashedMap Value Value}
    (h : ∀ e ∈ m.entries, keyHash e.1 = keyHash' e.1 ∧ keyHash e.2 = keyHash' e.2) :
    mapHash keyHash m = mapHash keyHash' m := by
  unfold mapHash
  rw [List.map_congr_left fun e he => by rw [(h e he).1, (h e he).2]]

theorem setHash_congr {keyHash keyHash' : Value → UInt64} {m : HashedMap Value Value}
    (h : ∀ e ∈ m.entries, keyHash e.1 = keyHash' e.1) :
    setHash keyHash m = setHash keyHash' m := by
  unfold setHash
  rw [List.map_congr_left h]

/-- More stack than a value needs changes nothing. -/
theorem keyHashWithin_stable {n m : Nat} {v : Value} (hn : v.rank ≤ n) (hm : v.rank ≤ m) :
    keyHashWithin P n v = keyHashWithin P m v := by
  induction n generalizing m v with
  | zero =>
    have := v.rank_pos
    omega
  | succ n ih =>
    obtain ⟨m, rfl⟩ : ∃ k, m = k + 1 := ⟨m - 1, by have := v.rank_pos; omega⟩
    have hseq : ∀ xs, v.elements = xs →
        sequenceHash (keyHashWithin P n) xs = sequenceHash (keyHashWithin P m) xs := by
      rintro _ rfl
      refine sequenceHash_congr (List.forall₂_same.mpr fun x hx => ?_)
      have := Value.rank_of_mem_elements hx
      exact ih (by omega) (by omega)
    have hentry : ∀ a : HashedMap Value Value, v.rank = 1 + Value.rankMap a → ∀ e ∈ a.entries,
        keyHashWithin P n e.1 = keyHashWithin P m e.1 ∧
          keyHashWithin P n e.2 = keyHashWithin P m e.2 := by
      intro a ha e he
      have := Value.rank_entry he
      exact ⟨ih (by omega) (by omega), ih (by omega) (by omega)⟩
    cases v with
    | string | double | largeInteger | embedded | identity => rfl
    | list _ xs | protoList _ xs | vector _ xs => exact hseq xs rfl
    | lazy | cons | chunk => exact hseq _ rfl
    | map a => exact mapHash_congr (hentry a rfl)
    | set _ a => exact setHash_congr fun e he => (hentry a rfl e he).1

theorem keyHashWithin_eq {stack : Nat} {v : Value} (h : v.rank ≤ stack) :
    keyHashWithin P stack v = keyHash P v :=
  keyHashWithin_stable h (Nat.le_refl _)

/-- The hash of the keys of a shape. -/
def Shape.hash (P : ProtoCore) : Shape → UInt64
  | .same => 0
  | .text s => combine saltString (P.stringHash s)
  | .bits x => combine saltDouble x
  | .integer n => combine saltBigInt (P.integerHash n)
  | .seq xs => sequenceHash (keyHash P) xs
  | .map es => mapHash (keyHash P) ⟨0, es⟩
  | .set es => setHash (keyHash P) ⟨0, es⟩

theorem keyHash_eq {v : Value} (h : v.shape ≠ .same) : keyHash P v = v.shape.hash P := by
  obtain ⟨n, hn⟩ : ∃ k, v.rank = k + 1 := ⟨v.rank - 1, by have := v.rank_pos; omega⟩
  have hseq : sequenceHash (keyHashWithin P n) v.elements = sequenceHash (keyHash P) v.elements := by
    refine sequenceHash_congr (List.forall₂_same.mpr fun x hx => keyHashWithin_eq ?_)
    have := Value.rank_of_mem_elements hx
    omega
  have hentry : ∀ m : HashedMap Value Value, v.rank = 1 + Value.rankMap m → ∀ e ∈ m.entries,
      keyHashWithin P n e.1 = keyHash P e.1 ∧ keyHashWithin P n e.2 = keyHash P e.2 := by
    intro m hm e he
    have := Value.rank_entry he
    exact ⟨keyHashWithin_eq (by omega), keyHashWithin_eq (by omega)⟩
  unfold keyHash
  rw [hn]
  cases v with
  | embedded | identity => exact absurd rfl h
  | string | double | largeInteger => rfl
  | list | protoList | vector | lazy | cons | chunk => exact hseq
  | map m => exact mapHash_congr (hentry m rfl)
  | set _ m => exact setHash_congr fun e he => (hentry m rfl e he).1

/-- Entries that pair off add up to the same. -/
theorem sum_of_matching {α : Type} {es fs fs' : List α} {f : α → UInt64} (hp : fs'.Perm fs)
    (h : List.Forall₂ (fun e e' => f e = f e') es fs') : (es.map f).sum = (fs.map f).sum := by
  have hmap : es.map f = fs'.map f := by
    rw [← List.forall₂_eq_eq_eq, List.forall₂_map_left_iff, List.forall₂_map_right_iff]
    exact h
  rw [hmap]
  exact (hp.map f).sum_eq

/-! ### The laws -/

/-- The parts of a shape obey the laws, and its keys are distinct. -/
def ShapeOk (P : ProtoCore) (n : Nat) : Shape → Prop
  | .seq xs => ∀ x ∈ xs, Upto P n x
  | .map es => Distinct (clojureKeySemantics P) es ∧ ∀ e ∈ es, Upto P n e.1 ∧ Upto P n e.2
  | .set es => Distinct (clojureKeySemantics P) es ∧ ∀ e ∈ es, Upto P n e.1
  | _ => True

theorem Upto.shapeOk {n : Nat} {v : Value} (h : Upto P (n + 1) v) : ShapeOk P n v.shape := by
  cases v with
  | embedded | identity | string | double | largeInteger => trivial
  | list | protoList | vector | lazy | cons | chunk => exact fun x hx => h.element hx
  | map m => exact ⟨h.1.distinct (.inl rfl), fun e he => h.entry rfl rfl he⟩
  | set _ m => exact ⟨h.1.distinct (.inr rfl), fun e he => (h.entry rfl rfl he).1⟩

section Laws
variable {n : Nat} (hl : (clojureKeySemantics P).LawfulOn (Upto P n))
include hl

theorem pairs_keys {es fs : List (Value × Value)} (he : ∀ e ∈ es, Upto P n e.1)
    (hf : ∀ f ∈ fs, Upto P n f.1) : (clojureKeySemantics P).LawfulOn fun a =>
      a ∈ es.map Prod.fst ∨ a ∈ fs.map Prod.fst := by
  refine hl.mono ?_
  rintro a (ha | ha)
  · obtain ⟨e, hmem, rfl⟩ := List.mem_map.mp ha
    exact he e hmem
  · obtain ⟨f, hmem, rfl⟩ := List.mem_map.mp ha
    exact hf f hmem

theorem forall₂_trans {xs ys zs : List Value} (hx : ∀ x ∈ xs, Upto P n x)
    (hy : ∀ y ∈ ys, Upto P n y) (hz : ∀ z ∈ zs, Upto P n z) (h₁ : List.Forall₂ (KeyEq P) xs ys)
    (h₂ : List.Forall₂ (KeyEq P) ys zs) : List.Forall₂ (KeyEq P) xs zs := by
  induction h₁ generalizing zs with
  | nil => exact h₂
  | @cons x y xs ys hxy _ ih =>
    cases h₂ with
    | @cons _ z _ zs hyz h₂ =>
      obtain ⟨hx, hxs⟩ := List.forall_mem_cons.mp hx
      obtain ⟨hy, hys⟩ := List.forall_mem_cons.mp hy
      obtain ⟨hz, hzs⟩ := List.forall_mem_cons.mp hz
      exact .cons (hl.trans x y z hx hy hz hxy hyz) (ih hxs hys hzs h₂)

theorem Shape.Matches.symm {s t : Shape} (hs : ShapeOk P n s) (ht : ShapeOk P n t)
    (h : s.Matches (KeyEq P) t) : t.Matches (KeyEq P) s := by
  cases s <;> cases t <;> try exact h.elim
  case text.text => exact Eq.symm h
  case bits.bits => exact Eq.symm h
  case integer.integer => exact Eq.symm h
  case seq.seq xs ys =>
    have hflip : List.Forall₂ (fun y x => KeyEq P x y) ys xs := List.Forall₂.flip h
    exact (forall₂_congr_of_mem fun y hy x hx =>
      ⟨hl.symm x y (hs x hx) (ht y hy), hl.symm y x (ht y hy) (hs x hx)⟩).mp hflip
  case map.map es fs =>
    obtain ⟨fs', hperm, hall⟩ := hs.1.matching
      (pairs_keys hl (fun e he => (hs.2 e he).1) fun f hf => (ht.2 f hf).1) h.1.ge
      (fun _ _ hef => hef.1) h.2
    refine ⟨h.1.symm, fun f hf => ?_⟩
    obtain ⟨e, he, hkey, hvalue⟩ := mem_of_matching hperm hall hf
    exact ⟨e, he, hl.symm _ _ (hs.2 e he).1 (ht.2 f hf).1 hkey,
      hl.symm _ _ (hs.2 e he).2 (ht.2 f hf).2 hvalue⟩
  case set.set es fs =>
    obtain ⟨fs', hperm, hall⟩ := hs.1.matching (R := fun e f => KeyEq P e.1 f.1)
      (pairs_keys hl hs.2 ht.2) h.1.ge (fun _ _ hef => hef) h.2
    refine ⟨h.1.symm, fun f hf => ?_⟩
    obtain ⟨e, he, hkey⟩ := mem_of_matching hperm hall hf
    exact ⟨e, he, hl.symm _ _ (hs.2 e he) (ht.2 f hf) hkey⟩

theorem Shape.Matches.trans {s t u : Shape} (hs : ShapeOk P n s) (ht : ShapeOk P n t)
    (hu : ShapeOk P n u) (h₁ : s.Matches (KeyEq P) t) (h₂ : t.Matches (KeyEq P) u) :
    s.Matches (KeyEq P) u := by
  cases s <;> cases t <;> try exact h₁.elim
  all_goals cases u <;> try exact h₂.elim
  case text.text.text => exact Eq.trans h₁ h₂
  case bits.bits.bits => exact Eq.trans h₁ h₂
  case integer.integer.integer => exact Eq.trans h₁ h₂
  case seq.seq.seq xs ys zs =>
    exact forall₂_trans hl hs ht hu h₁ h₂
  case map.map.map es fs gs =>
    refine ⟨h₁.1.trans h₂.1, fun e he => ?_⟩
    obtain ⟨f, hf, hkf, hvf⟩ := h₁.2 e he
    obtain ⟨g, hg, hkg, hvg⟩ := h₂.2 f hf
    exact ⟨g, hg, hl.trans _ _ _ (hs.2 e he).1 (ht.2 f hf).1 (hu.2 g hg).1 hkf hkg,
      hl.trans _ _ _ (hs.2 e he).2 (ht.2 f hf).2 (hu.2 g hg).2 hvf hvg⟩
  case set.set.set es fs gs =>
    refine ⟨h₁.1.trans h₂.1, fun e he => ?_⟩
    obtain ⟨f, hf, hkf⟩ := h₁.2 e he
    obtain ⟨g, hg, hkg⟩ := h₂.2 f hf
    exact ⟨g, hg, hl.trans _ _ _ (hs.2 e he) (ht.2 f hf) (hu.2 g hg) hkf hkg⟩

theorem Shape.Matches.hash {s t : Shape} (hs : ShapeOk P n s) (ht : ShapeOk P n t)
    (h : s.Matches (KeyEq P) t) : s.hash P = t.hash P := by
  cases s <;> cases t <;> try exact h.elim
  case text.text => exact congrArg (fun s => combine saltString (P.stringHash s)) h
  case bits.bits => exact congrArg (combine saltDouble) h
  case integer.integer => exact congrArg (fun n => combine saltBigInt (P.integerHash n)) h
  case seq.seq xs ys =>
    exact sequenceHash_congr (forall₂_imp_of_mem
      (fun x hx y hy => hl.hash x y (hs x hx) (ht y hy)) h)
  case map.map es fs =>
    obtain ⟨fs', hperm, hall⟩ := hs.1.matching
      (pairs_keys hl (fun e he => (hs.2 e he).1) fun f hf => (ht.2 f hf).1) h.1.ge
      (fun _ _ hef => hef.1) h.2
    have hsum := sum_of_matching (f := fun e => combine (keyHash P e.1) (keyHash P e.2)) hperm
      (forall₂_imp_of_mem (fun e he f hf hef => by
        have hf := ht.2 f (hperm.mem_iff.mp hf)
        have hkey : keyHash P e.1 = keyHash P f.1 := hl.hash _ _ (hs.2 e he).1 hf.1 hef.1
        have hvalue : keyHash P e.2 = keyHash P f.2 := hl.hash _ _ (hs.2 e he).2 hf.2 hef.2
        rw [hkey, hvalue]) hall)
    simp only [Shape.hash, mapHash, h.1, hsum]
  case set.set es fs =>
    obtain ⟨fs', hperm, hall⟩ := hs.1.matching (R := fun e f => KeyEq P e.1 f.1)
      (pairs_keys hl hs.2 ht.2) h.1.ge (fun _ _ hef => hef) h.2
    have hsum := sum_of_matching (f := fun e => keyHash P e.1) hperm
      (forall₂_imp_of_mem (fun e he f hf hef => by
        have hf := ht.2 f (hperm.mem_iff.mp hf)
        have hkey : keyHash P e.1 = keyHash P f.1 := hl.hash _ _ (hs.2 e he) hf hef
        exact hkey) hall)
    simp only [Shape.hash, setHash, h.1, hsum]

end Laws

theorem shape_of_identity {v : Value} (h : keyIsIdentity v = true) : v.shape = .same := by
  cases v <;> first | rfl | cases h

theorem LawsTo.succ {n : Nat} (hP : P.Lawful) (h : LawsTo P n) : LawsTo P (n + 1) where
  stable a b ha hb stack hstack := by
    rw [Bool.eq_iff_iff, h.equalsWithin_iff hP ha hb hstack]
    exact (h.keyEq_iff hP ha hb).symm
  lawful :=
    { refl := fun a _ => keyEquals_self a
      symm := fun a b ha hb hab => by
        rcases (h.keyEq_iff hP ha hb).mp hab with rfl | hm
        · exact hab
        · exact (h.keyEq_iff hP hb ha).mpr (.inr (hm.symm h.lawful ha.shapeOk hb.shapeOk))
      trans := fun a b c ha hb hc hab hbc => by
        rcases (h.keyEq_iff hP ha hb).mp hab with rfl | hm
        · exact hbc
        rcases (h.keyEq_iff hP hb hc).mp hbc with rfl | hm'
        · exact hab
        exact (h.keyEq_iff hP ha hc).mpr
          (.inr (hm.trans h.lawful ha.shapeOk hb.shapeOk hc.shapeOk hm'))
      hash := fun a b ha hb hab => by
        rcases (h.keyEq_iff hP ha hb).mp hab with rfl | hm
        · rfl
        have hsa : a.shape ≠ .same := fun he => by
          rw [he] at hm
          exact hm.elim
        have hsb : b.shape ≠ .same := fun he => by
          have hm := hm.symm h.lawful ha.shapeOk hb.shapeOk
          rw [he] at hm
          exact hm.elim
        have hash := hm.hash h.lawful ha.shapeOk hb.shapeOk
        exact (keyHash_eq hsa).trans (hash.trans (keyHash_eq hsb).symm)
      identity := fun a b ha hb hid hab => by
        rcases (h.keyEq_iff hP ha hb).mp hab with rfl | hm
        · rfl
        rcases hid with hid | hid
        · rw [shape_of_identity hid] at hm
          exact hm.elim
        · have hm := hm.symm h.lawful ha.shapeOk hb.shapeOk
          rw [shape_of_identity hid] at hm
          exact hm.elim }

theorem lawsTo (hP : P.Lawful) (n : Nat) : LawsTo P n := by
  induction n with
  | zero =>
    have hno : ∀ v, ¬ Upto P 0 v := fun v hv => by
      have := v.rank_pos
      have := hv.2
      omega
    exact ⟨fun a _ ha => absurd ha (hno a), fun a ha => absurd ha (hno a),
      fun a _ ha => absurd ha (hno a), fun a _ _ ha => absurd ha (hno a),
      fun a _ ha => absurd ha (hno a), fun a _ ha => absurd ha (hno a)⟩
  | succ n ih => exact ih.succ hP

theorem semantics_lawful (hP : P.Lawful) : (clojureKeySemantics P).LawfulOn (WellFormed P) := by
  have hupto : ∀ {v : Value} {n : Nat}, WellFormed P v → v.rank ≤ n → Upto P n v :=
    fun hv hn => ⟨hv, hn⟩
  constructor
  · intro a ha
    exact (lawsTo hP a.rank).lawful.refl a (hupto ha (by omega))
  · intro a b ha hb
    exact (lawsTo hP (a.rank + b.rank)).lawful.symm a b (hupto ha (by omega)) (hupto hb (by omega))
  · intro a b c ha hb hc
    exact (lawsTo hP (a.rank + b.rank + c.rank)).lawful.trans a b c (hupto ha (by omega))
      (hupto hb (by omega)) (hupto hc (by omega))
  · intro a b ha hb
    exact (lawsTo hP (a.rank + b.rank)).lawful.hash a b (hupto ha (by omega)) (hupto hb (by omega))
  · intro a b ha hb
    exact (lawsTo hP (a.rank + b.rank)).lawful.identity a b (hupto ha (by omega))
      (hupto hb (by omega))

theorem WellFormed.keyEq_iff (hP : P.Lawful) {a b : Value} (ha : WellFormed P a)
    (hb : WellFormed P b) : KeyEq P a b ↔ a = b ∨ a.shape.Matches (KeyEq P) b.shape :=
  (lawsTo hP (a.rank + b.rank)).keyEq_iff hP ⟨ha, by omega⟩ ⟨hb, by omega⟩

/-- The key semantics is lawful on all values the runtime builds, however much stack there is
beyond what they need, and a key has one place in a map: under itself or in the slot of its hash. -/
theorem clojureKeySemantics_lawful (hP : P.Lawful) :
    (clojureKeySemantics P).LawfulOn (WellFormed P) ∧
      (∀ a b stack, WellFormed P a → WellFormed P b → a.rank + b.rank ≤ stack →
        keyEqualsWithin P stack a b = keyEquals P a b) ∧
      ∀ m k, WellFormed P (.map m) → WellFormed P k →
        (m.entries.find? fun e => sameSlot (clojureKeySemantics P) k e.1) =
          m.entries.find? fun e => keyEquals P k e.1 := by
  refine ⟨semantics_lawful hP, fun a b stack ha hb hstack => ?_, fun m k hm hk => ?_⟩
  · exact (lawsTo hP (a.rank + b.rank)).stable a b ⟨ha, by omega⟩ ⟨hb, by omega⟩ stack hstack
  · refine List.find?_congr fun e he => sameSlot_eq (semantics_lawful hP) hk ?_
    exact hm.parts (List.mem_append_left _ (List.mem_map_of_mem he))

/-- A core in which every handle and every text has the same hash. -/
def collidingCore : ProtoCore where
  handle _ := 0
  stringHash _ := 0
  stringCompare s t := if s = t then 0 else 1
  integerHash _ := 0
  integerCompare m n := m - n
  helper := bySlot

theorem collidingCore_lawful : collidingCore.Lawful where
  stringCompare s t := by
    simp [collidingCore]
  integerCompare m n := Int.sub_eq_zero
  helper := bySlot_lawful

end ProtoClojure.Maps
