import Mathlib.Data.List.Lex
import ProtoClojure.Collections.StableSort
import ProtoClojure.Runtime.Arithmetic

/-! `compare`: the order of values that sorting goes by. -/
namespace ProtoClojure.Maps
open Numbers StableSort

variable (K : Kernel) (spelling : Nat → String)      -- a named value's text, by its address

def notComparable (a b : Value) : Result Int :=
  .error (.classed "ClassCastException"
    ("compare: " ++ K.valueTypeName a ++ " cannot be compared with " ++ K.valueTypeName b))

/-- The sign of `a - b`: integers exactly, any float as doubles. -/
def numberCompare (a b : Value) : Result Int :=
  if !a.isNumber then K.throwNotANumber "<" a
  else if !b.isNumber then K.throwNotANumber "<" b
  else if a.asInteger.isSome && b.asInteger.isSome then .ok (K.compareIntegers a b)
  else .ok (if doubleLt (K.double a) (K.double b) then -1
    else if doubleLt (K.double b) (K.double a) then 1 else 0)

/-- What a C++ string holds. -/
def bytes (s : String) : List Nat := s.toUTF8.data.toList.map UInt8.toNat

def stringCompare (x y : String) : Int :=
  if bytes x < bytes y then -1 else if bytes y < bytes x then 1 else 0

/-- A keyword's spelling starts with a colon. -/
def isKeywordSpelling (x : String) : Bool := x.toList.head? == some ':'

mutual
def compareValues (a b : Value) : Result Int :=
  if a = b then .ok 0
  else if a = .nil then .ok (-1)
  else if b = .nil then .ok 1
  else if a.isNumber && b.isNumber then numberCompare K a b
  else
    match a, b with
    | .string _ _ x, .string _ _ y => .ok (stringCompare x y)
    | .embedded (.bool x), .embedded (.bool _) => .ok (if x = false then -1 else 1)
    | .identity .named i, .identity .named j =>
      let x := spelling i
      let y := spelling j
      if isKeywordSpelling x ≠ isKeywordSpelling y then
        notComparable K (.identity .named i) (.identity .named j)
      else .ok (stringCompare x y)
    | .vector _ xs, .vector _ ys =>
      if xs.length ≠ ys.length then .ok (if xs.length < ys.length then -1 else 1)
      else compareItems xs ys
    | a, b => notComparable K a b

/-- The first elements that differ. -/
def compareItems : List Value → List Value → Result Int
  | x :: xs, y :: ys => do
    let c ← compareValues x y
    if c ≠ 0 then .ok c else compareItems xs ys
  | _, _ => .ok 0
end

/-! ### The order it answers -/

/-- A comparison by its sign; none where it raises. -/
def signOf : Result Int → Option Ordering
  | .ok n => some (compare n 0)
  | .error _ => none

def orderVectors (xs ys : List Value) : Option Ordering :=
  if xs.length = ys.length then signOf (compareItems K spelling xs ys)
  else some (compare xs.length ys.length)

/-- Lexicographic order of the bytes. -/
def byteOrder (x y : String) : Ordering := LinearOrder.toOrd.compare (bytes x) (bytes y)

/-- Two values of one kind and their order. -/
inductive Compared : Value → Value → Ordering → Prop where
  | numbers {a b o} : a.isNumber = true → b.isNumber = true →
      signOf (numberCompare K a b) = some o → Compared a b o
  | strings (f g i j x y) :
      Compared (.string f i x) (.string g j y) (byteOrder x y)
  | bools (x y) : Compared (fromBool x) (fromBool y) (compare x y)
  | named (i j) : isKeywordSpelling (spelling i) = isKeywordSpelling (spelling j) →
      Compared (.identity .named i) (.identity .named j)
        (byteOrder (spelling i) (spelling j))
  | vectors (i j xs ys o) : orderVectors K spelling xs ys = some o →
      Compared (.vector i xs) (.vector j ys) o

/-- What `compare` has an order for. -/
inductive Sortable : Value → Prop where
  | nil : Sortable .nil
  | bool (x : Bool) : Sortable (fromBool x)
  | number {v} : v.isNumber = true → v.exact.isSome = true → Sortable v      -- no NaN
  | string (f i x) : Sortable (.string f i x)
  | named (i) : Sortable (.identity .named i)
  | vector (i xs) : (∀ x ∈ xs, Sortable x) → Sortable (.vector i xs)

mutual
/-- Two different integers and a double that both round to, in one place of three values. -/
inductive RoundingClash : Value → Value → Value → Prop where
  | numbers {a b c x y d m n} : [a, b, c].Perm [x, y, d] → x.asInteger = some m →
      y.asInteger = some n → m ≠ n → d.isFloat = true →
      (K.double x).value = (K.double d).value → (K.double y).value = (K.double d).value →
      RoundingClash a b c
  | vectors (i j k xs ys zs) : xs.length = ys.length → ys.length = zs.length →
      ClashItems xs ys zs → RoundingClash (.vector i xs) (.vector j ys) (.vector k zs)

/-- The place is behind elements that compare equal. -/
inductive ClashItems : List Value → List Value → List Value → Prop where
  | head {x y z xs ys zs} : RoundingClash x y z → ClashItems (x :: xs) (y :: ys) (z :: zs)
  | tail {x y z xs ys zs} : compareValues K spelling x y = .ok 0 →
      compareValues K spelling y z = .ok 0 → compareValues K spelling x z = .ok 0 →
      ClashItems xs ys zs → ClashItems (x :: xs) (y :: ys) (z :: zs)
end

variable {K spelling}
variable {a b c x y z : Value} {xs ys zs : List Value} {o : Ordering}

theorem signOf_eq {r : Result Int} : signOf r = some .eq ↔ r = .ok 0 := by
  cases r with
  | error => simp [signOf]
  | ok n => simp [signOf]

theorem signOf_stringCompare (x y : String) :
    signOf (.ok (stringCompare x y)) = some (byteOrder x y) := by
  unfold stringCompare byteOrder
  rcases lt_trichotomy (bytes x) (bytes y) with h | h | h
  · rw [if_pos h, compare_lt_iff_lt.mpr h]
    rfl
  · rw [h, if_neg (lt_irrefl _), if_neg (lt_irrefl _), compare_eq_iff_eq.mpr rfl]
    rfl
  · rw [if_neg h.not_gt, if_pos h, compare_gt_iff_gt.mpr h]
    rfl

theorem signOf_lengths (h : xs.length ≠ ys.length) :
    signOf (.ok (if xs.length < ys.length then -1 else 1)) =
      some (compare xs.length ys.length) := by
  rcases Nat.lt_or_gt_of_ne h with hlt | hgt
  · rw [if_pos hlt, compare_lt_iff_lt.mpr hlt]
    rfl
  · rw [if_neg hgt.not_gt, compare_gt_iff_gt.mpr hgt]
    rfl

theorem compareValues_self : compareValues K spelling a a = .ok 0 := by
  rw [compareValues.eq_def, if_pos rfl]

theorem compareValues_nil_left (h : b ≠ .nil) : compareValues K spelling .nil b = .ok (-1) := by
  rw [compareValues.eq_def, if_neg h.symm, if_pos rfl]

theorem compareValues_nil_right (h : a ≠ .nil) : compareValues K spelling a .nil = .ok 1 := by
  rw [compareValues.eq_def, if_neg h, if_neg h, if_pos rfl]

theorem compareValues_kinds (hab : a ≠ b) (ha : a ≠ .nil) (hb : b ≠ .nil) :
    signOf (compareValues K spelling a b) = some o ↔ Compared K spelling a b o := by
  rw [compareValues.eq_def, if_neg hab, if_neg ha, if_neg hb]
  by_cases hnumbers : (a.isNumber && b.isNumber) = true
  · obtain ⟨hna, hnb⟩ := Bool.and_eq_true_iff.mp hnumbers
    rw [if_pos hnumbers]
    constructor
    · exact .numbers hna hnb
    · intro h
      cases h with
      | numbers _ _ h => exact h
      | _ => cases hna
  rw [if_neg hnumbers]
  constructor
  · intro h
    split at h
    · rw [signOf_stringCompare] at h
      obtain rfl := Option.some.inj h
      exact .strings ..
    · rename_i x y
      obtain rfl : compare x y = o := by
        cases x <;> cases y <;> first | exact absurd rfl hab | exact Option.some.inj h
      exact .bools x y
    · rename_i i j
      dsimp only at h
      split at h
      · cases h
      · rename_i hkinds
        rw [signOf_stringCompare] at h
        obtain rfl := Option.some.inj h
        exact .named i j (not_not.mp hkinds)
    · refine .vectors _ _ _ _ _ ?_
      unfold orderVectors
      split at h
      · rename_i hlength
        rw [if_neg hlength, ← signOf_lengths hlength]
        exact h
      · rename_i hlength
        rw [if_pos (not_not.mp hlength)]
        exact h
    · cases h
  · intro h
    cases h with
    | numbers hna hnb => exact absurd (by rw [hna, hnb]; rfl) hnumbers
    | strings => exact signOf_stringCompare ..
    | bools x y => cases x <;> cases y <;> first | exact absurd rfl hab | rfl
    | named i j hkinds =>
      dsimp only
      rw [if_neg (not_not.mpr hkinds)]
      exact signOf_stringCompare ..
    | vectors i j xs ys _ h =>
      dsimp only
      unfold orderVectors at h
      split at h
      · rename_i hlength
        rw [if_neg (not_not.mpr hlength)]
        exact h
      · rename_i hlength
        rw [if_pos hlength, signOf_lengths hlength]
        exact h

/-- The later elements count when the first ones compare equal. -/
theorem compareItems_cons :
    signOf (compareItems K spelling (x :: xs) (y :: ys)) =
      (signOf (compareValues K spelling x y)).bind fun o =>
        if o = .eq then signOf (compareItems K spelling xs ys) else some o := by
  rw [compareItems]
  cases compareValues K spelling x y with
  | error => rfl
  | ok c =>
    show signOf (if c ≠ 0 then .ok c else compareItems K spelling xs ys) =
      if compare c 0 = .eq then _ else some (compare c 0)
    by_cases hc : c = 0
    · rw [if_neg (not_not.mpr hc), if_pos (compare_eq_iff_eq.mpr hc)]
    · rw [if_pos hc, if_neg (compare_eq_iff_eq.not.mpr hc)]
      rfl

/-! ### Antisymmetry -/

theorem signOf_numberCompare (hK : K.Lawful) (ha : a.isNumber = true) (hb : b.isNumber = true) :
    signOf (numberCompare K a b) = some ((primitiveOrder K a b).getD .eq) := by
  simp only [numberCompare, ha, hb, Bool.not_true, Bool.false_eq_true, if_false]
  unfold primitiveOrder
  by_cases hints : (a.asInteger.isSome && b.asInteger.isSome) = true
  · obtain ⟨hsa, hsb⟩ := Bool.and_eq_true_iff.mp hints
    obtain ⟨m, hm⟩ := Option.isSome_iff_exists.mp hsa
    obtain ⟨n, hn⟩ := Option.isSome_iff_exists.mp hsb
    have hsign := compareIntegers_sign hK hm hn
    rw [if_pos hints, if_pos hints, order_of_integers hm hn]
    rcases lt_trichotomy m n with h | h | h
    · rw [Int.sign_eq_neg_one_of_neg (a := m - n) (by omega), Int.sign_eq_neg_one_iff_neg] at hsign
      rw [compare_lt_iff_lt.mpr h]
      exact congrArg some (compare_lt_iff_lt.mpr hsign)
    · rw [h, Int.sub_self, Int.sign_zero, Int.sign_eq_zero_iff_zero] at hsign
      rw [compare_eq_iff_eq.mpr h]
      exact congrArg some (compare_eq_iff_eq.mpr hsign)
    · rw [Int.sign_eq_one_of_pos (a := m - n) (by omega), Int.sign_eq_one_iff_pos] at hsign
      rw [compare_gt_iff_gt.mpr h]
      exact congrArg some (compare_gt_iff_gt.mpr hsign)
  · rw [if_neg hints, if_neg hints]
    unfold doubleLt
    rw [order_swap (K.double a).value (K.double b).value]
    cases order (K.double a).value (K.double b).value with
    | none => rfl
    | some o => cases o <;> rfl

theorem primitiveOrder_swap :
    primitiveOrder K b a = (primitiveOrder K a b).map Ordering.swap := by
  unfold primitiveOrder
  rw [Bool.and_comm]
  split
  · exact order_swap ..
  · exact order_swap ..

theorem compareItems_swap
    (h : ∀ x ∈ xs, ∀ y, signOf (compareValues K spelling y x) =
      (signOf (compareValues K spelling x y)).map Ordering.swap) (ys : List Value) :
    signOf (compareItems K spelling ys xs) =
      (signOf (compareItems K spelling xs ys)).map Ordering.swap := by
  induction xs generalizing ys with
  | nil => cases ys <;> rfl
  | cons x xs ih =>
    cases ys with
    | nil => rfl
    | cons y ys =>
      rw [compareItems_cons, compareItems_cons, h x (by simp) y]
      cases signOf (compareValues K spelling x y) with
      | none => rfl
      | some o =>
        cases o with
        | eq => exact ih (fun z hz => h z (List.mem_cons_of_mem x hz)) ys
        | lt | gt => rfl

theorem byteOrder_swap (x y : String) : byteOrder y x = (byteOrder x y).swap :=
  (swap_compare (bytes x) (bytes y)).symm

theorem Compared.swap (hK : K.Lawful)
    (hitems : ∀ i xs j ys, a = .vector i xs → b = .vector j ys →
      signOf (compareItems K spelling ys xs) =
        (signOf (compareItems K spelling xs ys)).map Ordering.swap)
    (h : Compared K spelling a b o) : Compared K spelling b a o.swap := by
  cases h with
  | numbers hna hnb h =>
    refine .numbers hnb hna ?_
    rw [signOf_numberCompare hK hna hnb] at h
    rw [signOf_numberCompare hK hnb hna, primitiveOrder_swap, ← Option.some.inj h]
    cases primitiveOrder K a b <;> rfl
  | strings => exact byteOrder_swap .. ▸ .strings ..
  | bools x y => cases x <;> cases y <;> exact .bools _ _
  | named i j hkinds => exact byteOrder_swap .. ▸ .named j i hkinds.symm
  | vectors i j xs ys _ h =>
    refine .vectors j i ys xs _ ?_
    unfold orderVectors at h ⊢
    split at h
    · rename_i hlength
      rw [if_pos hlength.symm, hitems i xs j ys rfl rfl, h]
      rfl
    · rename_i hlength
      rw [if_neg (Ne.symm hlength), ← Option.some.inj h, Nat.compare_swap]

/-- Exchanging the operands changes the sign, and raises where it raised. -/
theorem compareValues_swap (hK : K.Lawful) (a b : Value) :
    signOf (compareValues K spelling b a) =
      (signOf (compareValues K spelling a b)).map Ordering.swap := by
  induction hrank : a.rank using Nat.strong_induction_on generalizing a b with
  | _ n ih =>
  by_cases hab : a = b
  · rw [hab, compareValues_self]
    rfl
  by_cases ha : a = .nil
  · subst ha
    rw [compareValues_nil_left (Ne.symm hab), compareValues_nil_right (Ne.symm hab)]
    rfl
  by_cases hb : b = .nil
  · subst hb
    rw [compareValues_nil_left ha, compareValues_nil_right ha]
    rfl
  have hitems (i xs j ys) (hxs : a = .vector i xs) (_ : b = .vector j ys) :
      signOf (compareItems K spelling ys xs) =
        (signOf (compareItems K spelling xs ys)).map Ordering.swap := by
    subst hxs
    refine compareItems_swap (fun x hx y => ih x.rank ?_ x y rfl) ys
    rw [← hrank, Value.rank]
    have hlt := Value.rank_lt_of_mem_items hx
    omega
  cases hcompared : signOf (compareValues K spelling a b) with
  | some o =>
    exact (compareValues_kinds (Ne.symm hab) hb ha).mpr
      (((compareValues_kinds hab ha hb).mp hcompared).swap hK hitems)
  | none =>
    by_contra hsome
    obtain ⟨o, ho⟩ := Option.ne_none_iff_exists'.mp hsome
    have hback := ((compareValues_kinds (Ne.symm hab) hb ha).mp ho).swap hK
      fun j ys i xs hys hxs => by
        rw [hitems i xs j ys hxs hys, Option.map_map]
        cases signOf (compareItems K spelling xs ys) <;> simp
    rw [(compareValues_kinds hab ha hb).mpr hback] at hcompared
    cases hcompared

/-! ### Transitivity -/

/-- Two integers and a double. -/
theorem coherent_rounded {m n : Int} {u v w : Extended} (hle : m ≤ n → u ≤ v)
    (hge : n ≤ m → v ≤ u) (hno : m ≠ n → u = w → v ≠ w) :
    coherent (compare m n) (compare v w) (compare u w) = true := by
  rcases lt_trichotomy m n with h | rfl | h
  · rw [compare_lt_iff_lt.mpr h]
    have huv := hle h.le
    rcases lt_trichotomy v w with h₁ | h₁ | h₁
    · rw [compare_lt_iff_lt.mpr h₁, compare_lt_iff_lt.mpr (huv.trans_lt h₁)]
      rfl
    · have hu : u < w := lt_of_le_of_ne (h₁ ▸ huv) fun heq => hno h.ne heq h₁
      rw [compare_eq_iff_eq.mpr h₁, compare_lt_iff_lt.mpr hu]
      rfl
    · rw [compare_gt_iff_gt.mpr h₁]
      rfl
  · rw [compare_eq_iff_eq.mpr rfl, le_antisymm (hle le_rfl) (hge le_rfl)]
    exact beq_self_eq_true _
  · rw [compare_gt_iff_gt.mpr h]
    have huv := hge h.le
    rcases lt_trichotomy v w with h₁ | h₁ | h₁
    · rw [compare_lt_iff_lt.mpr h₁]
      rfl
    · have hu : w < u := lt_of_le_of_ne (h₁ ▸ huv) fun heq => hno h.ne' heq.symm h₁
      rw [compare_eq_iff_eq.mpr h₁, compare_gt_iff_gt.mpr hu]
      rfl
    · rw [compare_gt_iff_gt.mpr h₁, compare_gt_iff_gt.mpr (h₁.trans_le huv)]
      rfl

/-- The order of two numbers by their integers, when they have them, or their doubles. -/
def placeOrder (p q : Option Int) (u v : Extended) : Ordering :=
  match p, q with
  | some m, some n => compare m n
  | _, _ => compare u v

theorem primitiveOrder_eq {u v : Extended} (hu : (K.double a).value = some u)
    (hv : (K.double b).value = some v) :
    primitiveOrder K a b = some (placeOrder a.asInteger b.asInteger u v) := by
  unfold primitiveOrder
  cases hm : a.asInteger with
  | none =>
    rw [hu, hv]
    rfl
  | some m =>
    cases hn : b.asInteger with
    | none =>
      rw [hu, hv]
      rfl
    | some n => exact order_of_integers hm hn

theorem double_number (hK : K.Lawful) (ha : a.isNumber = true) (hsome : a.exact.isSome = true) :
    ∃ u, (K.double a).value = some u ∧ (a.asInteger = none → a.isFloat = true) := by
  rcases Value.number_cases ha with ⟨m, hm⟩ | ⟨i, bits, rfl⟩
  · obtain ⟨u, hu⟩ := hK.asDouble.number m
    rw [← double_of_integer hm] at hu
    exact ⟨u, hu, fun h => by rw [hm] at h; cases h⟩
  · obtain ⟨u, hu⟩ := Option.isSome_iff_exists.mp hsome
    exact ⟨u, hu, fun _ => rfl⟩

/-- Two different integers and a double that both round to clash, whatever their places. -/
theorem coherent_two {x y d : Value} {m n : Int} {u v w : Extended}
    (hmono : RoundsInOrder K.asDouble) (hperm : [a, b, c].Perm [x, y, d])
    (hm : x.asInteger = some m) (hn : y.asInteger = some n) (hd : d.isFloat = true)
    (hu : (K.double x).value = some u) (hv : (K.double y).value = some v)
    (hw : (K.double d).value = some w) (hno : ¬ RoundingClash K spelling a b c) :
    coherent (compare m n) (compare v w) (compare u w) = true := by
  have hu' := hu
  have hv' := hv
  rw [double_of_integer hm] at hu'
  rw [double_of_integer hn] at hv'
  refine coherent_rounded (fun h => hmono m n u v h hu' hv') (fun h => hmono n m v u h hv' hu') ?_
  rintro hne rfl rfl
  exact hno (.numbers hperm hm hn hne hd (hu.trans hw.symm) (hv.trans hw.symm))

theorem coherent_numbers (hK : K.Lawful) (hmono : RoundsInOrder K.asDouble)
    (ha : a.isNumber = true) (hb : b.isNumber = true) (hc : c.isNumber = true)
    (hsa : a.exact.isSome = true) (hsb : b.exact.isSome = true) (hsc : c.exact.isSome = true)
    (hno : ¬ RoundingClash K spelling a b c) :
    coherent ((primitiveOrder K a b).getD .eq) ((primitiveOrder K b c).getD .eq)
      ((primitiveOrder K a c).getD .eq) = true := by
  obtain ⟨u, hu, hfa⟩ := double_number hK ha hsa
  obtain ⟨v, hv, hfb⟩ := double_number hK hb hsb
  obtain ⟨w, hw, hfc⟩ := double_number hK hc hsc
  rw [primitiveOrder_eq hu hv, primitiveOrder_eq hv hw, primitiveOrder_eq hu hw]
  cases hl : a.asInteger with
  | none =>
    cases hm : b.asInteger with
    | none => exact coherent_compare u v w
    | some m =>
      cases hn : c.asInteger with
      | none => exact coherent_compare u v w
      | some n =>
        have hperm : ([a] ++ [b, c]).Perm ([b, c] ++ [a]) := List.perm_append_comm
        have h := coherent_two hmono hperm hm hn (hfa hl) hv hw hu hno
        have hswap := coherent_swap_left (coherent_swap_right h)
        rwa [swap_compare, swap_compare] at hswap
  | some l =>
    cases hm : b.asInteger with
    | none =>
      cases hn : c.asInteger with
      | none => exact coherent_compare u v w
      | some n =>
        have hperm : [a, b, c].Perm [a, c, b] := (List.Perm.swap c b []).cons a
        have h := coherent_two hmono hperm hl hn (hfb hm) hu hw hv hno
        have hswap := coherent_swap_right h
        rwa [swap_compare] at hswap
    | some m =>
      cases hn : c.asInteger with
      | none => exact coherent_two hmono (.refl _) hl hm (hfc hn) hu hv hw hno
      | some n => exact coherent_compare l m n

theorem coherent_items (h : ∀ x ∈ xs, ∀ y ∈ ys, ∀ z ∈ zs, ∀ oxy oyz oxz,
      signOf (compareValues K spelling x y) = some oxy →
      signOf (compareValues K spelling y z) = some oyz →
      signOf (compareValues K spelling x z) = some oxz →
      ¬ RoundingClash K spelling x y z → coherent oxy oyz oxz = true)
    (hxy : xs.length = ys.length) (hyz : ys.length = zs.length)
    (hno : ¬ ClashItems K spelling xs ys zs) {oab obc oac : Ordering}
    (hab : signOf (compareItems K spelling xs ys) = some oab)
    (hbc : signOf (compareItems K spelling ys zs) = some obc)
    (hac : signOf (compareItems K spelling xs zs) = some oac) : coherent oab obc oac = true := by
  induction xs generalizing ys zs oab obc oac with
  | nil =>
    obtain rfl := List.length_eq_zero_iff.mp hxy.symm
    obtain rfl := List.length_eq_zero_iff.mp hyz.symm
    obtain rfl := Option.some.inj hab
    obtain rfl := Option.some.inj hbc
    obtain rfl := Option.some.inj hac
    rfl
  | cons x xs ih =>
    cases ys with
    | nil => cases hxy
    | cons y ys =>
      cases zs with
      | nil => cases hyz
      | cons z zs =>
        rw [compareItems_cons] at hab hbc hac
        obtain ⟨oxy, hoxy, hab⟩ := Option.bind_eq_some_iff.mp hab
        obtain ⟨oyz, hoyz, hbc⟩ := Option.bind_eq_some_iff.mp hbc
        obtain ⟨oxz, hoxz, hac⟩ := Option.bind_eq_some_iff.mp hac
        have hhead := h x (by simp) y (by simp) z (by simp) oxy oyz oxz hoxy hoyz hoxz
          fun hclash => hno (.head hclash)
        -- the tails count only where the heads are equal
        have hthen {o o' : Ordering} {tail : Option Ordering}
            (h : (if o = .eq then tail else some o) = some o') :
            o' = o.then o' ∧ (o = .eq → tail = some o') := by
          cases o with
          | eq => exact ⟨rfl, fun _ => h⟩
          | lt | gt => exact ⟨(Option.some.inj h).symm, nofun⟩
        rw [(hthen hab).1, (hthen hbc).1, (hthen hac).1]
        refine coherent_then hhead fun hxy' hyz' hxz' => ?_
        refine ih ?_ (Nat.succ.inj hxy) (Nat.succ.inj hyz) ?_ ((hthen hab).2 hxy')
          ((hthen hbc).2 hyz') ((hthen hac).2 hxz')
        · intro x' hx' y' hy' z' hz'
          exact h x' (by simp [hx']) y' (by simp [hy']) z' (by simp [hz'])
        · intro htail
          refine hno (.tail ?_ ?_ ?_ htail)
          · exact signOf_eq.mp (hxy' ▸ hoxy)
          · exact signOf_eq.mp (hyz' ▸ hoyz)
          · exact signOf_eq.mp (hxz' ▸ hoxz)

/-- A value twice, or `nil`. -/
theorem coherent_of_same (hK : K.Lawful) {oab obc oac : Ordering}
    (hab : signOf (compareValues K spelling a b) = some oab)
    (hbc : signOf (compareValues K spelling b c) = some obc)
    (hac : signOf (compareValues K spelling a c) = some oac)
    (h : a = b ∨ b = c ∨ a = c ∨ a = .nil ∨ b = .nil ∨ c = .nil) :
    coherent oab obc oac = true := by
  by_cases hne : a = b
  · subst hne
    rw [compareValues_self] at hab
    obtain rfl := Option.some.inj hab
    obtain rfl := Option.some.inj (hbc.symm.trans hac)
    exact beq_self_eq_true _
  by_cases hne' : b = c
  · subst hne'
    rw [compareValues_self] at hbc
    obtain rfl := Option.some.inj hbc
    obtain rfl := Option.some.inj (hab.symm.trans hac)
    cases oab <;> rfl
  by_cases hne'' : a = c
  · subst hne''
    rw [compareValues_self] at hac
    obtain rfl := Option.some.inj hac
    rw [compareValues_swap hK a b, hab] at hbc
    obtain rfl := Option.some.inj hbc
    cases oab <;> rfl
  rcases h with h | h | h | rfl | rfl | rfl
  · exact absurd h hne
  · exact absurd h hne'
  · exact absurd h hne''
  · rw [compareValues_nil_left (Ne.symm hne)] at hab
    rw [compareValues_nil_left (Ne.symm hne'')] at hac
    obtain rfl := Option.some.inj hab
    obtain rfl := Option.some.inj hac
    cases obc <;> rfl
  · rw [compareValues_nil_right hne] at hab
    rw [compareValues_nil_left (Ne.symm hne')] at hbc
    obtain rfl := Option.some.inj hab
    obtain rfl := Option.some.inj hbc
    rfl
  · rw [compareValues_nil_right hne'] at hbc
    rw [compareValues_nil_right hne''] at hac
    obtain rfl := Option.some.inj hbc
    obtain rfl := Option.some.inj hac
    cases oab <;> rfl

theorem Sortable.number_some (h : Sortable a) (ha : a.isNumber = true) :
    a.exact.isSome = true := by
  cases h with
  | number _ hsome => exact hsome
  | _ => cases ha

theorem Sortable.items {i : Nat} (h : Sortable (.vector i xs)) : ∀ x ∈ xs, Sortable x := by
  cases h with
  | number hn => cases hn
  | vector _ _ hxs => exact hxs

/-- Lengths first. -/
theorem orderVectors_then (h : orderVectors K spelling xs ys = some o) :
    o = (compare xs.length ys.length).then o ∧
      (xs.length = ys.length → signOf (compareItems K spelling xs ys) = some o) := by
  unfold orderVectors at h
  split at h
  · rename_i hlength
    exact ⟨by rw [compare_eq_iff_eq.mpr hlength]; rfl, fun _ => h⟩
  · rename_i hlength
    obtain rfl := Option.some.inj h
    refine ⟨?_, fun heq => absurd heq hlength⟩
    cases compare xs.length ys.length <;> rfl

/-- Three sortable values are in one order. -/
theorem coherent_values (hK : K.Lawful) (hmono : RoundsInOrder K.asDouble) (ha : Sortable a)
    (hb : Sortable b) (hc : Sortable c) {oab obc oac : Ordering}
    (hab : signOf (compareValues K spelling a b) = some oab)
    (hbc : signOf (compareValues K spelling b c) = some obc)
    (hac : signOf (compareValues K spelling a c) = some oac)
    (hno : ¬ RoundingClash K spelling a b c) : coherent oab obc oac = true := by
  induction hrank : a.rank using Nat.strong_induction_on generalizing a b c oab obc oac with
  | _ n ih =>
  by_cases hsame : a = b ∨ b = c ∨ a = c ∨ a = .nil ∨ b = .nil ∨ c = .nil
  · exact coherent_of_same hK hab hbc hac hsame
  simp only [not_or] at hsame
  obtain ⟨hneab, hnebc, hneac, hnil, hnil', hnil''⟩ := hsame
  have hkab := (compareValues_kinds hneab hnil hnil').mp hab
  have hkbc := (compareValues_kinds hnebc hnil' hnil'').mp hbc
  have hkac := (compareValues_kinds hneac hnil hnil'').mp hac
  cases hkab with
  | numbers hna hnb h =>
    cases hkbc with
    | numbers _ hnc h' =>
      cases hkac with
      | numbers _ _ h'' =>
        rw [signOf_numberCompare hK hna hnb] at h
        rw [signOf_numberCompare hK hnb hnc] at h'
        rw [signOf_numberCompare hK hna hnc] at h''
        rw [← Option.some.inj h, ← Option.some.inj h', ← Option.some.inj h'']
        exact coherent_numbers hK hmono hna hnb hnc (ha.number_some hna) (hb.number_some hnb)
          (hc.number_some hnc) hno
      | _ => cases hna
    | _ => cases hnb
  | strings =>
    cases hkbc with
    | numbers hn => cases hn
    | strings =>
      cases hkac with
      | numbers hn => cases hn
      | strings => exact @coherent_compare (List Nat) ..
  | bools x y =>
    cases hkbc with
    | numbers hn => cases hn
    | bools _ z =>
      cases hkac with
      | numbers hn => cases hn
      | bools => cases x <;> cases y <;> cases z <;> rfl
  | named i j =>
    cases hkbc with
    | numbers hn => cases hn
    | named =>
      cases hkac with
      | numbers hn => cases hn
      | named => exact @coherent_compare (List Nat) ..
  | vectors i j xs ys _ h =>
    cases hkbc with
    | numbers hn => cases hn
    | vectors _ k _ zs _ h' =>
      cases hkac with
      | numbers hn => cases hn
      | vectors _ _ _ _ _ h'' =>
        rw [(orderVectors_then h).1, (orderVectors_then h').1, (orderVectors_then h'').1]
        refine coherent_then (coherent_compare ..) fun hxy hyz hxz => ?_
        have hlxy : xs.length = ys.length := compare_eq_iff_eq.mp hxy
        have hlyz : ys.length = zs.length := compare_eq_iff_eq.mp hyz
        refine coherent_items ?_ hlxy hlyz (fun hclash => hno (.vectors i j k xs ys zs hlxy hlyz hclash))
          ((orderVectors_then h).2 hlxy) ((orderVectors_then h').2 hlyz)
          ((orderVectors_then h'').2 (hlxy.trans hlyz))
        intro x hx y hy z hz oxy oyz oxz hoxy hoyz hoxz hclash
        refine ih x.rank ?_ (ha.items x hx) (hb.items y hy) (hc.items z hz) hoxy hoyz hoxz hclash rfl
        rw [← hrank, Value.rank]
        have hlt := Value.rank_lt_of_mem_items hx
        omega

/-! ### A total preorder -/

variable (K spelling) in
/-- `compare` answers for any two of them. -/
def MutuallyComparable (S : List Value) : Prop :=
  ∀ a ∈ S, ∀ b ∈ S, ∃ n, compareValues K spelling a b = .ok n

variable (K spelling) in
def NoClash (S : List Value) : Prop :=
  ∀ a ∈ S, ∀ b ∈ S, ∀ c ∈ S, ¬ RoundingClash K spelling a b c

variable (K spelling) in
def isBefore (a b : Value) : Bool := signOf (compareValues K spelling a b) == some .lt

theorem signOf_ok {r : Result Int} {n : Int} (h : r = .ok n) : signOf r = some (compare n 0) := by
  rw [h]
  rfl

theorem compareValues_antisymm {m n : Int} (hK : K.Lawful)
    (hm : compareValues K spelling a b = .ok m) (hn : compareValues K spelling b a = .ok n) :
    n.sign = -m.sign := by
  have hswap := @compareValues_swap K spelling hK a b
  rw [signOf_ok hm, signOf_ok hn] at hswap
  have h : compare n 0 = (compare m 0).swap := Option.some.inj hswap
  rcases lt_trichotomy m 0 with hm | hm | hm
  · rw [compare_lt_iff_lt.mpr hm] at h
    rw [Int.sign_eq_neg_one_of_neg hm, Int.sign_eq_one_of_pos (compare_gt_iff_gt.mp h)]
    rfl
  · rw [compare_eq_iff_eq.mpr hm] at h
    rw [hm, compare_eq_iff_eq.mp h]
    rfl
  · rw [compare_gt_iff_gt.mpr hm] at h
    rw [Int.sign_eq_one_of_pos hm, Int.sign_eq_neg_one_of_neg (compare_lt_iff_lt.mp h)]

theorem compareValues_trans {m n k : Int} (hK : K.Lawful) (hmono : RoundsInOrder K.asDouble)
    (ha : Sortable a) (hb : Sortable b) (hc : Sortable c) (hno : ¬ RoundingClash K spelling a b c)
    (hm : compareValues K spelling a b = .ok m) (hn : compareValues K spelling b c = .ok n)
    (hk : compareValues K spelling a c = .ok k) (hm0 : m ≤ 0) (hn0 : n ≤ 0) : k ≤ 0 := by
  have h := coherent_isLE (coherent_values hK hmono ha hb hc (signOf_ok hm) (signOf_ok hn)
    (signOf_ok hk) hno) (Int.isLE_compare.mpr hm0) (Int.isLE_compare.mpr hn0)
  exact Int.isLE_compare.mp h

theorem isBefore_iff {n : Int} (h : compareValues K spelling a b = .ok n) :
    isBefore K spelling a b = decide (n < 0) := by
  unfold isBefore
  rw [signOf_ok h, Bool.eq_iff_iff, beq_iff_eq, Option.some.injEq, decide_eq_true_eq]
  exact compare_lt_iff_lt

theorem not_isBefore_iff {m n : Int} (hK : K.Lawful) (hm : compareValues K spelling a b = .ok m)
    (hn : compareValues K spelling b a = .ok n) :
    isBefore K spelling b a = false ↔ m ≤ 0 := by
  have hsign := compareValues_antisymm hK hm hn
  rw [isBefore_iff hn, decide_eq_false_iff_not, not_lt]
  rcases lt_trichotomy m 0 with h | h | h
  · rw [Int.sign_eq_neg_one_of_neg h] at hsign
    exact iff_of_true (Int.sign_eq_one_iff_pos.mp hsign).le h.le
  · rw [h, Int.sign_zero, neg_zero, Int.sign_eq_zero_iff_zero] at hsign
    exact iff_of_true hsign.ge h.le
  · rw [Int.sign_eq_one_of_pos h, Int.sign_eq_neg_one_iff_neg] at hsign
    exact iff_of_false (not_le.mpr hsign) (not_le.mpr h)

/-- Where no rounding clashes, sorting has a strict weak order to go by. -/
theorem isBefore_strictWeak {S : List Value} (hK : K.Lawful) (hmono : RoundsInOrder K.asDouble)
    (hS : ∀ a ∈ S, Sortable a) (hcomp : MutuallyComparable K spelling S)
    (hno : NoClash K spelling S) : StrictWeak (isBefore K spelling) (· ∈ S) where
  asymm a b ha hb hab := by
    obtain ⟨m, hm⟩ := hcomp a ha b hb
    obtain ⟨n, hn⟩ := hcomp b hb a ha
    rw [isBefore_iff hm, decide_eq_true_eq] at hab
    exact (not_isBefore_iff hK hm hn).mpr hab.le
  trans a b c ha hb hc hba hcb := by
    obtain ⟨m, hm⟩ := hcomp a ha b hb
    obtain ⟨m', hm'⟩ := hcomp b hb a ha
    obtain ⟨n, hn⟩ := hcomp b hb c hc
    obtain ⟨n', hn'⟩ := hcomp c hc b hb
    obtain ⟨k, hk⟩ := hcomp a ha c hc
    obtain ⟨k', hk'⟩ := hcomp c hc a ha
    refine (not_isBefore_iff hK hk hk').mpr ?_
    exact compareValues_trans hK hmono (hS a ha) (hS b hb) (hS c hc) (hno a ha b hb c hc) hm hn hk
      ((not_isBefore_iff hK hm hm').mp hba) ((not_isBefore_iff hK hn hn').mp hcb)

end ProtoClojure.Maps
