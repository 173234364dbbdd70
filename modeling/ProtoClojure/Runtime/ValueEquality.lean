import ProtoClojure.Runtime.MapFunctions

/-! `=` on values, and that it is the equality of keys wherever no floating-point number is
inside. -/

namespace ProtoClojure.Maps
open KeyedMap

namespace Value

def isMap : Value → Bool
  | .map _ => true
  | _ => false

def isSet : Value → Bool
  | .set .. => true
  | _ => false

def isVector : Value → Bool
  | .vector .. => true
  | _ => false

/-- Lists and the objects that are walked like them. -/
def isSeqObject : Value → Bool
  | .list .. | .lazy .. | .cons .. | .chunk .. => true
  | _ => false

/-- A protoCore object cell. -/
def isObjectTag : Value → Bool
  | .identity .named _ | .identity .cell _ | .lazy .. | .cons .. | .chunk .. | .set .. => true
  | _ => false

def asInteger : Value → Option Int
  | .embedded (.smallInt n) => some n
  | .largeInteger _ n => some n
  | _ => none

def isNumber : Value → Bool
  | .embedded (.smallInt _) | .largeInteger .. | .double .. => true
  | _ => false

end Value

/-! ### The comparison -/

/-- Two walks in step, up to the first mismatch. -/
def equalInStep (equals : Value → Value → Bool) : List Value → List Value → Bool
  | [], [] => true
  | x :: xs, y :: ys => if equals x y then equalInStep equals xs ys else false
  | _, _ => false

section Core
variable (P : ProtoCore) (partialCompare : Value → Value → Option Ordering)

/-- `stack` bounds the calls that may nest. -/
def valuesEqualWithin : (stack : Nat) → Value → Value → Bool
  | 0, a, b => a = b
  | stack + 1, a, b =>
    if a = b then true
    else if a.isMap || b.isMap then
      match a, b with
      | .map m, .map m' => mapEquals P (valuesEqualWithin stack) (some m) (some m')
      | _, _ => false
    else if a.isSet || b.isSet then
      match a, b with
      | .set _ m, .set _ m' => setEquals P (clojureKeySemantics P) m m'
      | _, _ => false
    -- any other object is equal to itself only
    else if (a.isObjectTag && !a.isSeqObject) || (b.isObjectTag && !b.isSeqObject) then false
    else if a.isSeqObject || b.isSeqObject then
      if !(a.isSeqObject || a.isVector) || !(b.isSeqObject || b.isVector) then false
      else
        match a, b with
        | .list _ xs, .list _ ys =>
          xs.length == ys.length && equalInStep (valuesEqualWithin stack) xs ys
        | a, b => equalInStep (valuesEqualWithin stack) a.elements b.elements
    else if a.isVector || b.isVector then
      match a, b with
      | .vector _ xs, .vector _ ys => sequenceEquals (valuesEqualWithin stack) xs ys
      | _, _ => false
    else partialCompare a b == some .eq

/-- As much stack as the values need; what it answers where no check of the native stack raises
(`KeyStack`). -/
def valuesEqual (a b : Value) : Bool :=
  valuesEqualWithin P partialCompare (a.rank + b.rank) a b

end Core

/-- protoCore's comparison: integers by value whatever their size, strings by content, any other
pair equal only when identical. What it says of doubles is left open. -/
structure LawfulCompare (partialCompare : Value → Value → Option Ordering) : Prop where
  strings : ∀ f g i j s t,
    partialCompare (.string f i s) (.string g j t) = some .eq ↔ s = t
  integers : ∀ a b m n, a.asInteger = some m → b.asInteger = some n →
    (partialCompare a b = some .eq ↔ m = n)
  others : ∀ a b, ¬ (a.isStringTagFast ∧ b.isStringTagFast) → ¬ (a.isNumber ∧ b.isNumber) →
    a ≠ b → partialCompare a b ≠ some .eq

/-! ### Data -/

/-- The integers a tagged word holds: signed, 54 bits. -/
def InSmallRange (n : Int) : Prop := -2 ^ 53 ≤ n ∧ n < 2 ^ 53

/-- No double and no ProtoList, which is never a Clojure value; an integer is large only when no
word holds it. -/
def Value.Plain : Value → Prop
  | .double .. | .protoList .. => False
  | .embedded (.smallInt n) => InSmallRange n
  | .largeInteger _ n => ¬ InSmallRange n
  | _ => True

/-- Plain at every depth. -/
inductive Data : Value → Prop where
  | mk (v : Value) : v.Plain → (∀ w ∈ v.parts, Data w) → Data v

theorem Data.plain {v : Value} (h : Data v) : v.Plain := by
  cases h with
  | mk _ hp => exact hp

theorem Data.parts {v w : Value} (h : Data v) (hw : w ∈ v.parts) : Data w := by
  cases h with
  | mk _ _ hp => exact hp w hw

theorem Data.elements {v : Value} (h : Data v) : ∀ x ∈ v.elements, Data x := by
  induction v using Value.elements.induct with
  | case1 | case2 | case3 => exact fun x hx => h.parts hx
  | case4 _ seq ih => exact ih (h.parts (by simp [Value.parts]))
  | case5 _ first more ih =>
    intro x hx
    rcases List.mem_cons.mp hx with rfl | hx
    · exact h.parts (by simp [Value.parts])
    · exact ih (h.parts (by simp [Value.parts])) x hx
  | case6 _ items off stop _ more ih =>
    intro x hx
    rcases List.mem_append.mp hx with hx | hx
    · have hitems := List.mem_of_mem_drop (List.mem_of_mem_take hx)
      exact h.parts (List.mem_append_left _ hitems)
    · exact ih (h.parts (by simp [Value.parts])) x hx
  | case7 m =>
    intro x hx
    obtain ⟨e, he, rfl⟩ := List.mem_map.mp hx
    refine .mk _ trivial fun y hy => ?_
    have hy : y = e.1 ∨ y = e.2 := by simpa [Value.parts] using hy
    rcases hy with rfl | rfl
    · exact h.parts (List.mem_append_left _ (List.mem_map_of_mem he))
    · exact h.parts (List.mem_append_right _ (List.mem_map_of_mem he))
  | case8 _ m => exact fun x hx => h.parts (List.mem_append_left _ hx)
  | case9 | case10 | case11 | case12 | case13 => simp [Value.elements]

/-! ### The two comparisons agree -/

variable {P : ProtoCore} {partialCompare : Value → Value → Option Ordering}

theorem equalInStep_iff {equals : Value → Value → Bool} {xs ys : List Value} :
    equalInStep equals xs ys = true ↔ List.Forall₂ (fun x y => equals x y = true) xs ys := by
  induction xs generalizing ys with
  | nil => cases ys <;> simp [equalInStep]
  | cons x xs ih => cases ys <;> simp [equalInStep, ih]

theorem compareEntries_keys (valueEq : Value → Value → Bool) (hP : P.Lawful)
    {a b : HashedMap Value Value} (ha : ∀ e ∈ a.entries, WellFormed P e.1)
    (hb : ∀ e ∈ b.entries, WellFormed P e.1) (hd : Distinct (clojureKeySemantics P) b.entries) :
    compareEntries P (clojureKeySemantics P) valueEq a b = true ↔
      ∀ e ∈ a.entries, ∃ f ∈ b.entries, KeyEq P e.1 f.1 ∧ valueEq e.2 f.2 = true := by
  refine compareEntries_iff hP hd fun e he => (semantics_lawful hP).mono ?_
  rintro x (rfl | hx)
  · exact ha e he
  · obtain ⟨f, hf, rfl⟩ := List.mem_map.mp hx
    exact hb f hf

theorem mapEquals_entries (hP : P.Lawful) {valueEq : Value → Value → Bool}
    {a b : HashedMap Value Value} (hab : a ≠ b) (ha : WellFormed P (.map a))
    (hb : WellFormed P (.map b)) :
    mapEquals P valueEq (some a) (some b) = true ↔ a.entries.length = b.entries.length ∧
      ∀ e ∈ a.entries, ∃ f ∈ b.entries, KeyEq P e.1 f.1 ∧ valueEq e.2 f.2 = true := by
  have hkeys {m : HashedMap Value Value} (hm : WellFormed P (.map m)) :
      ∀ e ∈ m.entries, WellFormed P e.1 := fun e he =>
    hm.parts (List.mem_append_left _ (List.mem_map_of_mem he))
  have hentries := compareEntries_keys valueEq hP (hkeys ha) (hkeys hb)
    (hb.distinct (.inl rfl))
  unfold mapEquals
  rw [if_neg fun he => hab (Option.some.inj he), mapCount_eq, mapCount_eq, visited_some,
    visited_some]
  by_cases hlen : a.entries.length = b.entries.length
  · rw [if_neg (not_not.mpr hlen)]
    by_cases hzero : a.entries.length = 0
    · rw [if_pos hzero]
      have hnil := List.eq_nil_of_length_eq_zero hzero
      have hnil' := List.eq_nil_of_length_eq_zero (hlen ▸ hzero)
      simp [hnil, hnil']
    · rw [if_neg hzero, and_iff_right hlen]
      exact hentries
  · rw [if_pos hlen]
    simp [hlen]

theorem setEquals_entries (hP : P.Lawful) {i j : Nat} {a b : HashedMap Value Value}
    (ha : WellFormed P (.set i a)) (hb : WellFormed P (.set j b)) :
    setEquals P (clojureKeySemantics P) a b = true ↔ a.entries.length = b.entries.length ∧
      ∀ e ∈ a.entries, ∃ f ∈ b.entries, KeyEq P e.1 f.1 := by
  have hkeys {i : Nat} {m : HashedMap Value Value} (hm : WellFormed P (.set i m)) :
      ∀ e ∈ m.entries, WellFormed P e.1 := fun e he =>
    hm.parts (List.mem_append_left _ (List.mem_map_of_mem he))
  refine setEquals_of_entries ((compareEntries_keys (fun _ _ => true) hP (hkeys ha) (hkeys hb)
    (hb.distinct (.inr rfl))).trans ?_)
  simp

/-- The values whose elements are compared in order. -/
def Value.inOrder (v : Value) : Bool := v.isSeqObject || v.isVector

theorem Value.shape_inOrder {v : Value} (h : v.inOrder = true) : v.shape = .seq v.elements := by
  cases v <;> first | rfl | cases h

theorem valuesEqualWithin_inOrder {stack : Nat} {a b : Value} (hab : a ≠ b)
    (ha : a.inOrder = true) (hb : b.inOrder = true) :
    valuesEqualWithin P partialCompare (stack + 1) a b = true ↔ List.Forall₂
      (fun x y => valuesEqualWithin P partialCompare stack x y = true) a.elements b.elements := by
  rw [valuesEqualWithin.eq_def]
  dsimp only
  rw [if_neg hab]
  cases a with
  | list _ xs =>
    cases b with
    | list _ ys =>
      -- the counts are compared first
      simpa [Value.isMap, Value.isSet, Value.isObjectTag, Value.isSeqObject, Value.elements,
        equalInStep_iff] using fun h => List.Forall₂.length_eq h
    | vector | lazy | cons | chunk =>
      simp [Value.isMap, Value.isSet, Value.isObjectTag, Value.isSeqObject, Value.isVector,
        equalInStep_iff]
    | _ => cases hb
  | vector | lazy | cons | chunk =>
    cases b with
    | list | vector | lazy | cons | chunk =>
      simp [Value.isMap, Value.isSet, Value.isObjectTag, Value.isSeqObject, Value.isVector,
        equalInStep_iff, sequenceEquals_iff, Value.elements]
    | _ => cases hb
  | _ => cases ha

theorem Data.value {m : HashedMap Value Value} (h : Data (.map m)) {e : Value × Value}
    (he : e ∈ m.entries) : Data e.2 :=
  h.parts (List.mem_append_right _ (List.mem_map_of_mem he))

/-- What is left to protoCore's comparison. -/
def Value.isScalar : Value → Bool
  | .embedded _ | .string .. | .largeInteger .. | .identity .. => true
  | _ => false

/-- One integer has one representation: a word where there is one. -/
theorem Value.Plain.integer {v : Value} (h : v.Plain) (hn : v.isNumber = true) :
    ∃ n, v.asInteger = some n ∧ (InSmallRange n ∧ v = .embedded (.smallInt n) ∨
      ¬ InSmallRange n ∧ ∃ i, v = .largeInteger i n) := by
  cases v with
  | embedded w =>
    cases w with
    | smallInt n => exact ⟨n, rfl, .inl ⟨h, rfl⟩⟩
    | _ => cases hn
  | largeInteger i n => exact ⟨n, rfl, .inr ⟨h, i, rfl⟩⟩
  | double => exact h.elim
  | _ => cases hn

theorem partialCompare_scalars (hc : LawfulCompare partialCompare) {a b : Value} (hab : a ≠ b)
    (ha : a.Plain) (hb : b.Plain) (hsa : a.isScalar = true) (hsb : b.isScalar = true) :
    partialCompare a b = some .eq ↔ a.shape.Matches (KeyEq P) b.shape := by
  by_cases hstrings : a.isStringTagFast ∧ b.isStringTagFast
  · cases a with
    | string f i s =>
      cases b with
      | string g j t => exact hc.strings f g i j s t
      | _ => exact absurd hstrings.2 nofun
    | _ => exact absurd hstrings.1 nofun
  have hmatches : a.shape.Matches (KeyEq P) b.shape ↔
      ∃ i j m n, a = .largeInteger i m ∧ b = .largeInteger j n ∧ m = n := by
    cases a with
    | embedded | string | largeInteger | identity =>
      cases b with
      | embedded | string | largeInteger | identity =>
        simp_all [Value.shape, Shape.Matches, Value.isStringTagFast]
      | _ => cases hsb
    | _ => cases hsa
  rw [hmatches]
  by_cases hnumbers : a.isNumber ∧ b.isNumber
  · obtain ⟨m, hm, hwordm⟩ := ha.integer hnumbers.1
    obtain ⟨n, hn, hwordn⟩ := hb.integer hnumbers.2
    rw [hc.integers a b m n hm hn]
    rcases hwordm with ⟨hrm, rfl⟩ | ⟨hrm, i, rfl⟩
    · rcases hwordn with ⟨hrn, rfl⟩ | ⟨hrn, j, rfl⟩
      · exact iff_of_false (fun he => hab (he ▸ rfl)) (by simp)
      · exact iff_of_false (fun he => hrn (he ▸ hrm)) (by simp)
    · rcases hwordn with ⟨hrn, rfl⟩ | ⟨hrn, j, rfl⟩
      · exact iff_of_false (fun he => hrm (he ▸ hrn)) (by simp)
      · simp
  · refine iff_of_false (hc.others a b hstrings hnumbers hab) ?_
    rintro ⟨i, j, m, n, rfl, rfl, -⟩
    exact hnumbers ⟨rfl, rfl⟩

/-- A value of another kind than `a` is not equal to it. -/
theorem valuesEqualWithin_apart {stack : Nat} {a b : Value} (ha : a.Plain) (hb : b.Plain)
    (hio : (a.inOrder && b.inOrder) = false) (hmap : (a.isMap && b.isMap) = false)
    (hset : (a.isSet && b.isSet) = false) (hscalar : (a.isScalar && b.isScalar) = false) :
    valuesEqualWithin P partialCompare (stack + 1) a b = true ↔
      a.shape.Matches (KeyEq P) b.shape := by
  have hab : a ≠ b := by
    rintro rfl
    cases a <;> simp_all [Value.inOrder, Value.isSeqObject, Value.isVector, Value.isMap,
      Value.isSet, Value.isScalar, Value.Plain]
  rw [valuesEqualWithin.eq_def]
  dsimp only
  rw [if_neg hab]
  cases a with
  | double | protoList => exact ha.elim
  | list | vector | lazy | cons | chunk =>
    cases b with
    | list | vector | lazy | cons | chunk => cases hio
    | double | protoList => exact hb.elim
    | _ =>
      simp [Value.isMap, Value.isSet, Value.isObjectTag, Value.isSeqObject, Value.isVector,
        Value.shape, Shape.Matches]
  | map =>
    cases b with
    | map => cases hmap
    | _ => simp [Value.isMap, Value.shape, Shape.Matches]
  | set =>
    cases b with
    | set => cases hset
    | _ => simp [Value.isMap, Value.isSet, Value.shape, Shape.Matches]
  | embedded | string | largeInteger | identity =>
    cases b with
    | embedded | string | largeInteger | identity => cases hscalar
    | double | protoList => exact hb.elim
    | _ =>
      simp [Value.isMap, Value.isSet, Value.isObjectTag, Value.isSeqObject, Value.isVector,
        Value.shape, Shape.Matches]

theorem valuesEqualWithin_scalars (hc : LawfulCompare partialCompare) {stack : Nat} {a b : Value}
    (hab : a ≠ b) (ha : a.Plain) (hb : b.Plain) (hsa : a.isScalar = true)
    (hsb : b.isScalar = true) :
    valuesEqualWithin P partialCompare (stack + 1) a b = true ↔
      a.shape.Matches (KeyEq P) b.shape := by
  rw [← partialCompare_scalars hc hab ha hb hsa hsb]
  by_cases htag : a.isObjectTag || b.isObjectTag
  · -- an object cell, which protoCore compares by identity too
    refine iff_of_false ?_ (hc.others a b ?_ ?_ hab)
    · rw [valuesEqualWithin.eq_def]
      dsimp only
      rw [if_neg hab]
      cases a with
      | embedded | string | largeInteger | identity =>
        cases b with
        | embedded | string | largeInteger | identity =>
          simp_all [Value.isMap, Value.isSet, Value.isSeqObject]
        | _ => cases hsb
      | _ => cases hsa
    · cases a <;> cases b <;> simp_all [Value.isStringTagFast, Value.isObjectTag]
    · cases a <;> cases b <;> simp_all [Value.isNumber, Value.isObjectTag]
  · rw [valuesEqualWithin.eq_def]
    dsimp only
    rw [if_neg hab]
    cases a with
    | embedded | string | largeInteger | identity =>
      cases b with
      | embedded | string | largeInteger | identity =>
        simp_all [Value.isMap, Value.isSet, Value.isSeqObject, Value.isVector]
      | _ => cases hsb
    | _ => cases hsa

/-- With stack enough for both values `=` is the equality of keys. -/
theorem valuesEqualWithin_iff (hP : P.Lawful) (hc : LawfulCompare partialCompare) {stack : Nat}
    {a b : Value} (ha : Data a) (hb : Data b) (hwa : WellFormed P a) (hwb : WellFormed P b)
    (hstack : a.rank + b.rank ≤ stack) :
    valuesEqualWithin P partialCompare stack a b = true ↔ KeyEq P a b := by
  induction stack generalizing a b with
  | zero =>
    have := a.rank_pos
    omega
  | succ stack ih =>
    by_cases hab : a = b
    · subst hab
      have hself : valuesEqualWithin P partialCompare (stack + 1) a a = true := by
        rw [valuesEqualWithin.eq_def]
        exact if_pos rfl
      exact iff_of_true hself (KeyEq.refl a)
    rw [hwa.keyEq_iff hP hwb, or_iff_right hab]
    cases a with
    | double | protoList => exact ha.plain.elim
    | list | vector | lazy | cons | chunk =>
      by_cases hib : b.inOrder = true
      · rw [valuesEqualWithin_inOrder hab rfl hib, Value.shape_inOrder rfl, Value.shape_inOrder hib]
        refine forall₂_congr_of_mem fun x hx y hy => ?_
        have hrx := Value.rank_of_mem_elements hx
        have hry := Value.rank_of_mem_elements hy
        exact ih (ha.elements x hx) (hb.elements y hy) (hwa.elements x hx) (hwb.elements y hy)
          (by omega)
      · exact valuesEqualWithin_apart ha.plain hb.plain (by simp [hib]) rfl rfl rfl
    | map m =>
      cases b with
      | map m' =>
        rw [valuesEqualWithin.eq_def]
        dsimp only
        have hmm : m ≠ m' := fun he => hab (congrArg Value.map he)
        rw [if_neg hab, if_pos (by rfl), mapEquals_entries hP hmm hwa hwb]
        refine and_congr_right fun _ => forall_congr' fun e => forall_congr' fun he =>
          exists_congr fun f => and_congr_right fun hf => and_congr_right fun _ => ?_
        have hre := Value.rank_entry he
        have hrf := Value.rank_entry hf
        simp only [Value.rank] at hstack
        exact ih (ha.value he) (hb.value hf) (hwa.entry he).2 (hwb.entry hf).2 (by omega)
      | _ => exact valuesEqualWithin_apart ha.plain hb.plain rfl rfl rfl rfl
    | set i m =>
      cases b with
      | set j m' =>
        rw [valuesEqualWithin.eq_def]
        dsimp only
        rw [if_neg hab, if_neg (by simp [Value.isMap]), if_pos (by rfl)]
        exact setEquals_entries hP hwa hwb
      | _ => exact valuesEqualWithin_apart ha.plain hb.plain rfl rfl rfl rfl
    | embedded | string | largeInteger | identity =>
      by_cases hsb : b.isScalar = true
      · exact valuesEqualWithin_scalars hc hab ha.plain hb.plain rfl hsb
      · exact valuesEqualWithin_apart ha.plain hb.plain rfl rfl rfl (by simp [hsb])

/-- What the runtime builds from values with no floating-point number inside. -/
structure IsData (P : ProtoCore) (v : Value) : Prop where
  data : Data v
  wellFormed : WellFormed P v

/-- A map of one entry has it under every key equal to its own. -/
theorem mapGet_single (hP : P.Lawful) {i : Nat} {a b v : Value} (ha : WellFormed P a)
    (hb : WellFormed P b) : mapGet P (some ⟨i, [(a, v)]⟩) (some b) = some v ↔ KeyEq P b a := by
  have hlawful : (clojureKeySemantics P).LawfulOn (Among [(a, v)] b) := by
    refine (semantics_lawful hP).mono ?_
    rintro x (rfl | hx)
    · exact hb
    · rw [List.map_singleton, List.mem_singleton] at hx
      exact hx ▸ ha
  have hget : mapGet P (some ⟨i, [(a, v)]⟩) (some b) =
      lookup (clojureKeySemantics P) [(a, v)] b :=
    hP.helper.get _ ⟨i, [(a, v)]⟩ b hlawful (List.pairwise_singleton _ _)
  rw [hget, lookup_eq_some (List.pairwise_singleton _ _) hlawful]
  simp only [List.mem_singleton, exists_eq_left, and_true]
  rfl

theorem valuesEqual_iff (hP : P.Lawful) (hc : LawfulCompare partialCompare) {a b : Value}
    (ha : IsData P a) (hb : IsData P b) :
    valuesEqual P partialCompare a b = true ↔ KeyEq P a b :=
  valuesEqualWithin_iff hP hc ha.data hb.data ha.wellFormed hb.wellFormed (Nat.le_refl _)

/-- On data `=` is an equivalence, however much stack there is beyond what the values need, and
two values are equal exactly when they are one key: when `keyEquals` says so, and when either
finds the other's entry in a map. -/
theorem valuesEqual_keys (hP : P.Lawful) (hc : LawfulCompare partialCompare) :
    (∀ a, IsData P a → valuesEqual P partialCompare a a = true) ∧
    (∀ a b, IsData P a → IsData P b → valuesEqual P partialCompare a b = true →
      valuesEqual P partialCompare b a = true) ∧
    (∀ a b c, IsData P a → IsData P b → IsData P c → valuesEqual P partialCompare a b = true →
      valuesEqual P partialCompare b c = true → valuesEqual P partialCompare a c = true) ∧
    (∀ a b, IsData P a → IsData P b → valuesEqual P partialCompare a b = keyEquals P a b) ∧
    (∀ a b stack, IsData P a → IsData P b → a.rank + b.rank ≤ stack →
      valuesEqualWithin P partialCompare stack a b = valuesEqual P partialCompare a b) ∧
    ∀ a b i v, IsData P a → IsData P b → (valuesEqual P partialCompare a b = true ↔
      mapGet P (some ⟨i, [(a, v)]⟩) (some b) = some v) := by
  have hlaws := semantics_lawful hP
  refine ⟨fun a ha => ?_, fun a b ha hb h => ?_, fun a b c ha hb hc' h h' => ?_,
    fun a b ha hb => ?_, fun a b stack ha hb hstack => ?_, fun a b i v ha hb => ?_⟩
  · exact (valuesEqual_iff hP hc ha ha).mpr (KeyEq.refl a)
  · rw [valuesEqual_iff hP hc ha hb] at h
    exact (valuesEqual_iff hP hc hb ha).mpr (hlaws.symm a b ha.wellFormed hb.wellFormed h)
  · rw [valuesEqual_iff hP hc ha hb] at h
    rw [valuesEqual_iff hP hc hb hc'] at h'
    exact (valuesEqual_iff hP hc ha hc').mpr
      (hlaws.trans a b c ha.wellFormed hb.wellFormed hc'.wellFormed h h')
  · exact Bool.eq_iff_iff.mpr (valuesEqual_iff hP hc ha hb)
  · refine Bool.eq_iff_iff.mpr ((valuesEqualWithin_iff hP hc ha.data hb.data ha.wellFormed
      hb.wellFormed hstack).trans (valuesEqual_iff hP hc ha hb).symm)
  · rw [valuesEqual_iff hP hc ha hb, mapGet_single hP ha.wellFormed hb.wellFormed]
    exact ⟨hlaws.symm a b ha.wellFormed hb.wellFormed, hlaws.symm b a hb.wellFormed ha.wellFormed⟩

/-- Integers and strings by what they hold, anything else by being the same. -/
def plainCompare (a b : Value) : Option Ordering :=
  match a.asInteger, b.asInteger with
  | some m, some n => some (compare m n)
  | _, _ =>
    match a, b with
    | .string _ _ s, .string _ _ t => some (compare s t)
    | a, b => if a = b then some .eq else none

theorem plainCompare_lawful : LawfulCompare plainCompare where
  strings f g i j s t := by
    simp [plainCompare, Value.asInteger]
  integers a b m n hm hn := by
    simp only [plainCompare, hm, hn, Option.some.injEq]
    exact compare_eq_iff_eq
  others a b hstrings hnumbers hab := by
    unfold plainCompare
    split
    · rename_i m n hm hn
      have integer {v : Value} {k : Int} (hv : v.asInteger = some k) : v.isNumber = true := by
        cases v with
        | embedded w => cases w <;> first | rfl | cases hv
        | largeInteger => rfl
        | _ => cases hv
      exact absurd ⟨integer hm, integer hn⟩ hnumbers
    · split
      · exact absurd ⟨rfl, rfl⟩ hstrings
      · rw [if_neg hab]
        decide

end ProtoClojure.Maps
