import Mathlib.Data.Int.ModEq
import ProtoClojure.Runtime.Sorting

/-! `quot`, `rem` and `mod`. -/
namespace ProtoClojure.Maps
open Numbers

/-- protoCore's division and conversion, and the C++ library's functions of doubles. -/
structure DivisionKernel extends Kernel where
  divide : Value → Value → Value
  fromLong : Int → Value
  quotient : Double → Double → Double
  trunc : Double → Double
  fmod : Double → Double → Double
  sum : Double → Double → Double

/-- Division truncates towards zero, and a `long long` becomes the integer it is. -/
structure DivisionKernel.Lawful (K : DivisionKernel) : Prop extends K.toKernel.Lawful where
  divide : ∀ a b m n, a.asInteger = some m → b.asInteger = some n → n ≠ 0 →
    (K.divide a b).IsInteger (m.tdiv n)
  fromLong : ∀ n, -2 ^ 63 ≤ n → n < 2 ^ 63 → (K.fromLong n).IsInteger n

inductive DivKind where
  | quot
  | rem
  | mod
deriving DecidableEq

section Model
variable (K : DivisionKernel)

def divideByZero {α : Type} : Result α :=
  .error (.classed "ArithmeticException" "Divide by zero")

def Double.isZero (d : Double) : Bool := order d.value (some (.ofInt 0)) == some .eq

def Double.isNegative (d : Double) : Bool := order d.value (some (.ofInt 0)) == some .lt

def floatDivision (kind : DivKind) (x y : Double) : Result Value :=
  if Double.isZero y then divideByZero
  else
    let q := K.trunc (K.quotient x y)
    if kind = .quot then .ok (K.fromDouble q)
    else
      let r := K.fmod x y
      if kind = .mod ∧ !(Double.isZero r) ∧ Double.isNegative r ≠ Double.isNegative y then
        .ok (K.fromDouble (K.sum r y))
      else .ok (K.fromDouble r)

/-- In `long long`. -/
def smallDivision (kind : DivKind) (x y : Int) : Result Value :=
  if y = 0 then divideByZero
  else if kind = .quot then .ok (K.fromLong (wrap64 (x.tdiv y)))
  else
    let r := wrap64 (x.tmod y)
    if kind = .mod ∧ r ≠ 0 ∧ (r < 0) ≠ (y < 0) then .ok (K.fromLong (wrap64 (r + y)))
    else .ok (K.fromLong r)

def largeDivision (kind : DivKind) (a b : Value) : Result Value := do
  let q := K.divide a b
  if kind = .quot then .ok q
  else
    let r := K.subtract a (K.multiply q b)
    let zero := K.fromLong 0
    if kind ≠ .mod then .ok r
    else if (← numberCompare K.toKernel r zero) = 0 then .ok r
    else
      let negative := (← numberCompare K.toKernel r zero) < 0
      let divisorNegative := (← numberCompare K.toKernel b zero) < 0
      .ok (if negative ≠ divisorNegative then K.add r b else r)

def intDivision (args : List Value) (kind : DivKind) (name : String) : Result Value :=
  match args with
  | [a, b] =>
    if !a.isNumber then K.throwNotANumber name a
    else if !b.isNumber then K.throwNotANumber name b
    else if a.isFloat || b.isFloat then floatDivision K kind (K.double a) (K.double b)
    else
      match a, b with
      | .embedded (.smallInt x), .embedded (.smallInt y) => smallDivision K kind x y
      | a, b => largeDivision K kind a b
  | args => arity args.length name

def prim_quot (args : List Value) : Result Value := intDivision K args .quot "quot"

def prim_rem (args : List Value) : Result Value := intDivision K args .rem "rem"

def prim_mod (args : List Value) : Result Value := intDivision K args .mod "mod"

end Model

/-! ### The results -/

/-- The result stands for an integer. -/
def Answers (r : Result Value) (n : Int) : Prop := ∃ v, r = .ok v ∧ v.IsInteger n

/-- The integer a division of two integers gives. -/
def DivKind.of (kind : DivKind) (m n : Int) : Int :=
  match kind with
  | .quot => m.tdiv n
  | .rem => m.tmod n
  | .mod => m.fmod n

section Integers
variable {K : DivisionKernel} {kind : DivKind} {a b : Value} {m n : Int}

theorem tmod_natAbs_lt (m : Int) (hn : n ≠ 0) : (m.tmod n).natAbs < n.natAbs := by
  rw [Int.natAbs_tmod]
  exact Nat.mod_lt _ (Int.natAbs_pos.mpr hn)

theorem tmod_sign (m n : Int) : m.tmod n = 0 ∨ (m.tmod n).sign = m.sign := by
  rw [← Int.dvd_iff_tmod_eq_zero]
  by_cases h : n ∣ m
  · exact .inl h
  · exact .inr ((Int.sign_tmod m n).trans (if_neg h))

/-- `mod` is the remainder, moved by the divisor when their signs differ. -/
theorem fmod_of_tmod (m n : Int) :
    m.fmod n = if m.tmod n ≠ 0 ∧ (m.tmod n < 0) ≠ (n < 0) then m.tmod n + n else m.tmod n := by
  rw [Int.fmod_eq_tmod]
  by_cases hdvd : n ∣ m
  · rw [if_pos hdvd, if_neg fun h => h.1 (Int.tmod_eq_zero_of_dvd hdvd), Int.add_zero]
  · have hne : m.tmod n ≠ 0 := fun h => hdvd (Int.dvd_of_tmod_eq_zero h)
    have hsign : m.tmod n < 0 ↔ m < 0 := by
      rw [← Int.sign_eq_neg_one_iff_neg, ← Int.sign_eq_neg_one_iff_neg,
        (tmod_sign m n).resolve_left hne]
    rw [if_neg hdvd]
    simp only [hne, hsign, ne_eq, eq_iff_iff, not_false_eq_true, true_and]
    split_ifs <;> omega

theorem fmod_sign (m : Int) (hn : n ≠ 0) : m.fmod n = 0 ∨ (m.fmod n).sign = n.sign := by
  have hlt := tmod_natAbs_lt m hn
  rw [fmod_of_tmod]
  simp only [ne_eq, eq_iff_iff]
  rcases Int.lt_or_gt_of_ne hn with hneg | hpos
  · rw [Int.sign_eq_neg_one_of_neg hneg, Int.sign_eq_neg_one_iff_neg]
    split_ifs <;> omega
  · rw [Int.sign_eq_one_of_pos hpos, Int.sign_eq_one_iff_pos]
    split_ifs <;> omega

theorem fmod_natAbs_lt (m : Int) (hn : n ≠ 0) : (m.fmod n).natAbs < n.natAbs := by
  have hlt := tmod_natAbs_lt m hn
  rw [fmod_of_tmod]
  simp only [ne_eq, eq_iff_iff]
  split_ifs <;> omega

theorem fmod_modEq (m n : Int) : m.fmod n ≡ m [ZMOD n] :=
  Int.modEq_iff_dvd.mpr Int.dvd_self_sub_fmod

theorem numberCompare_integers (ha : a.asInteger = some m) (hb : b.asInteger = some n) :
    numberCompare K.toKernel a b = .ok (K.compareIntegers a b) := by
  simp [numberCompare, Value.isNumber_of_integer ha, Value.isNumber_of_integer hb, ha,
    hb]

theorem compareIntegers_zero (hK : K.Lawful) (ha : a.asInteger = some m)
    (hb : b.asInteger = some 0) :
    (K.compareIntegers a b = 0 ↔ m = 0) ∧ (K.compareIntegers a b < 0 ↔ m < 0) := by
  have hsign := compareIntegers_sign hK.toLawful ha hb
  rw [Int.sub_zero] at hsign
  constructor
  · rw [← Int.sign_eq_zero_iff_zero, hsign, Int.sign_eq_zero_iff_zero]
  · rw [← Int.sign_eq_neg_one_iff_neg, hsign, Int.sign_eq_neg_one_iff_neg]

/-- No result of the small path leaves a `long long`. -/
theorem smallDivision_answers (hK : K.Lawful) (hm : InSmallRange m) (hn : InSmallRange n)
    (h0 : n ≠ 0) : Answers (smallDivision K kind m n) (kind.of m n) := by
  have hfrom {k : Int} (hk : k.natAbs ≤ 2 ^ 53) : (K.fromLong (wrap64 k)).IsInteger k := by
    rw [wrap64_eq (by omega)]
    exact hK.fromLong k (by omega) (by omega)
  have hr := tmod_natAbs_lt m h0
  unfold InSmallRange at hm hn
  unfold smallDivision
  rw [if_neg h0, wrap64_eq (n := m.tmod n) (by omega)]
  cases kind with
  | quot =>
    refine ⟨_, if_pos rfl, hfrom ?_⟩
    calc (m.tdiv n).natAbs = m.natAbs / n.natAbs := Int.natAbs_tdiv m n
      _ ≤ m.natAbs := Nat.div_le_self _ _
      _ ≤ 2 ^ 53 := by omega
  | rem => exact ⟨_, rfl, hK.fromLong _ (by omega) (by omega)⟩
  | mod =>
    have hlt := fmod_natAbs_lt m h0
    rw [if_neg DivKind.noConfusion]
    unfold DivKind.of
    dsimp only
    rw [fmod_of_tmod] at hlt ⊢
    split
    · rename_i h
      rw [if_pos h.2] at hlt ⊢
      exact ⟨_, rfl, hfrom (by omega)⟩
    · rename_i h
      rw [if_neg fun h' => h ⟨rfl, h'⟩]
      exact ⟨_, rfl, hK.fromLong _ (by omega) (by omega)⟩

theorem largeDivision_answers (hK : K.Lawful) (ha : a.asInteger = some m)
    (hb : b.asInteger = some n) (h0 : n ≠ 0) :
    Answers (largeDivision K kind a b) (kind.of m n) := by
  have hq := hK.divide a b m n ha hb h0
  have hr : (K.subtract a (K.multiply (K.divide a b) b)).IsInteger (m.tmod n) := by
    have hp := hK.multiply _ b _ n hq.1 hb
    have hsub := hK.subtract a _ m _ ha hp.1
    rwa [Int.tdiv_mul_self, Int.sub_sub_self] at hsub
  have hzero := (hK.fromLong 0 (by norm_num) (by norm_num)).1
  obtain ⟨hr0, hrneg⟩ := compareIntegers_zero hK hr.1 hzero
  obtain ⟨-, hbneg⟩ := compareIntegers_zero hK hb hzero
  unfold largeDivision
  cases kind with
  | quot => exact ⟨_, rfl, hq⟩
  | rem => exact ⟨_, rfl, hr⟩
  | mod =>
    simp only [numberCompare_integers hr.1 hzero, numberCompare_integers hb hzero, bind,
      Except.bind, hr0, hrneg, hbneg]
    rw [if_neg DivKind.noConfusion, if_neg fun h => h rfl]
    unfold DivKind.of
    dsimp only
    rw [fmod_of_tmod]
    by_cases h : m.tmod n = 0
    · rw [if_pos h, if_neg fun h' => h'.1 h]
      exact ⟨_, rfl, hr⟩
    · rw [if_neg h]
      refine ⟨_, rfl, ?_⟩
      by_cases hsigns : (m.tmod n < 0) ≠ (n < 0)
      · rw [if_pos hsigns, if_pos ⟨h, hsigns⟩]
        exact hK.add _ b _ n hr.1 hb
      · rw [if_neg hsigns, if_neg fun h' => hsigns h'.2]
        exact hr

theorem intDivision_integers (ha : a.asInteger = some m) (hb : b.asInteger = some n)
    (name : String) :
    intDivision K [a, b] kind name = largeDivision K kind a b ∨
      a = .embedded (.smallInt m) ∧ b = .embedded (.smallInt n) ∧
        intDivision K [a, b] kind name = smallDivision K kind m n := by
  unfold intDivision
  dsimp only
  rw [if_neg (by simp [Value.isNumber_of_integer ha]),
    if_neg (by simp [Value.isNumber_of_integer hb]),
    if_neg (by simp [isFloat_of_integer ha, isFloat_of_integer hb])]
  split
  · obtain rfl := Option.some.inj ha
    obtain rfl := Option.some.inj hb
    exact .inr ⟨rfl, rfl, rfl⟩
  · exact .inl rfl

theorem intDivision_answers (hK : K.Lawful) (hta : a.Tagged) (htb : b.Tagged)
    (ha : a.asInteger = some m) (hb : b.asInteger = some n) (h0 : n ≠ 0) (name : String) :
    Answers (intDivision K [a, b] kind name) (kind.of m n) := by
  rcases intDivision_integers ha hb name with h | ⟨hword, hword', h⟩
  · rw [h]
    exact largeDivision_answers hK ha hb h0
  · rw [h]
    exact smallDivision_answers hK (hta m hword) (htb n hword') h0

end Integers

/-- The three divisions of two integers: the quotient and the remainder make up the dividend, `mod`
is congruent to it, and each has its sign and its bound; the small path and the large one answer
the same integer. -/
theorem division_law {K : DivisionKernel} (hK : K.Lawful) {a b : Value} (hta : a.Tagged)
    (htb : b.Tagged) {m n : Int} (ha : a.asInteger = some m) (hb : b.asInteger = some n)
    (h0 : n ≠ 0) :
    (∃ q r d : Int, Answers (prim_quot K [a, b]) q ∧ Answers (prim_rem K [a, b]) r ∧
      Answers (prim_mod K [a, b]) d ∧ m = q * n + r ∧ |r| < |n| ∧ (r = 0 ∨ r.sign = m.sign) ∧
      d ≡ m [ZMOD n] ∧ |d| < |n| ∧ (d = 0 ∨ d.sign = n.sign)) ∧
    ∀ kind x y, a = .embedded (.smallInt x) → b = .embedded (.smallInt y) →
      ∃ k, Answers (smallDivision K kind x y) k ∧ Answers (largeDivision K kind a b) k := by
  constructor
  · refine ⟨m.tdiv n, m.tmod n, m.fmod n, intDivision_answers hK hta htb ha hb h0 "quot",
      intDivision_answers hK hta htb ha hb h0 "rem",
      intDivision_answers hK hta htb ha hb h0 "mod", (Int.tdiv_mul_add_tmod m n).symm, ?_,
      tmod_sign m n, fmod_modEq m n, ?_, fmod_sign m h0⟩
    · rw [Int.abs_eq_natAbs, Int.abs_eq_natAbs]
      exact Int.ofNat_lt.mpr (tmod_natAbs_lt m h0)
    · rw [Int.abs_eq_natAbs, Int.abs_eq_natAbs]
      exact Int.ofNat_lt.mpr (fmod_natAbs_lt m h0)
  · rintro kind x y rfl rfl
    obtain rfl := Option.some.inj ha
    obtain rfl := Option.some.inj hb
    exact ⟨kind.of x y, smallDivision_answers hK (hta x rfl) (htb y rfl) h0,
      largeDivision_answers hK ha hb h0⟩

/-! ### A kernel -/

/-- The integers alone. -/
def integerDivisionKernel : DivisionKernel where
  toKernel := integerKernel
  divide a b := ofInteger ((a.asInteger.getD 0).tdiv (b.asInteger.getD 0))
  fromLong := ofInteger
  quotient x _ := x
  trunc x := x
  fmod x _ := x
  sum x _ := x

theorem integerDivisionKernel_lawful : integerDivisionKernel.Lawful where
  toLawful := integerKernel_lawful
  divide a b m n hm hn _ := by
    simpa [integerDivisionKernel, hm, hn] using ofInteger_isInteger (m.tdiv n)
  fromLong n _ _ := ofInteger_isInteger n

/-- The quotient of the least word and `-1` is no word. -/
theorem division_law_least :
    let a : Value := .embedded (.smallInt (-2 ^ 53))
    let b : Value := .embedded (.smallInt (-1))
    ∃ q r d : Int, Answers (prim_quot integerDivisionKernel [a, b]) q ∧
      Answers (prim_rem integerDivisionKernel [a, b]) r ∧
      Answers (prim_mod integerDivisionKernel [a, b]) d ∧ -2 ^ 53 = q * (-1) + r ∧ |r| < |-1| ∧
      (r = 0 ∨ r.sign = (-2 ^ 53 : Int).sign) ∧ d ≡ -2 ^ 53 [ZMOD -1] ∧ |d| < |-1| ∧
      (d = 0 ∨ d.sign = (-1 : Int).sign) := by
  refine (division_law integerDivisionKernel_lawful ?_ ?_ rfl rfl (by decide)).1
  · rintro n ⟨⟩
    exact ⟨le_refl _, by norm_num⟩
  · rintro n ⟨⟩
    exact ⟨by norm_num, by norm_num⟩

end ProtoClojure.Maps
