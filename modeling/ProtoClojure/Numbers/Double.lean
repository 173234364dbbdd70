import Mathlib.Algebra.Order.Field.Rat
import Mathlib.Algebra.Order.Field.Power
import Mathlib.Data.Nat.Size
import Mathlib.Order.WithBot
import Mathlib.Tactic.Linarith
import Mathlib.Tactic.Positivity
import Mathlib.Tactic.Ring

/-! IEEE doubles as the numbers they stand for, and what rounding an integer to one keeps. -/
namespace ProtoClojure.Numbers

/-- The rationals and the two infinities. -/
abbrev Extended := WithBot (WithTop ℚ)

def Extended.ofRat (q : ℚ) : Extended := ((q : WithTop ℚ) : WithBot (WithTop ℚ))

def Extended.ofInt (n : Int) : Extended := .ofRat n

inductive Double where
  | nan
  | infinite (negative : Bool)
  | finite (negative : Bool) (mantissa : Nat) (exponent : Int)
      (h : mantissa < 2 ^ 53 ∧ -1074 ≤ exponent ∧ exponent ≤ 971)

namespace Double

def signed (negative : Bool) (q : ℚ) : ℚ := if negative then -q else q

/-- NaN is no number; the two zeros are one. -/
def value : Double → Option Extended
  | .nan => none
  | .infinite negative => some (if negative then ⊥ else ((⊤ : WithTop ℚ) : Extended))
  | .finite negative m e _ => some (.ofRat (signed negative (m * 2 ^ e)))

def neg : Double → Double
  | .nan => .nan
  | .infinite negative => .infinite !negative
  | .finite negative m e h => .finite (!negative) m e h

/-- The fields of the word: sign, exponent and fraction. -/
def ofBits (bits : UInt64) : Double :=
  let negative : Bool := bits.toNat / 2 ^ 63 = 1
  let exponent : Nat := bits.toNat / 2 ^ 52 % 2 ^ 11
  let fraction : Nat := bits.toNat % 2 ^ 52
  if h : exponent = 0x7FF then
    if fraction = 0 then .infinite negative else .nan
  else if h₀ : exponent = 0 then
    .finite negative fraction (-1074) ⟨by omega, by omega, by omega⟩
  else
    .finite negative (2 ^ 52 + fraction) (exponent - 1075) ⟨by omega, by omega, by omega⟩

end Double

/-! ### The order -/

/-- IEEE ordering: no order with what is not a number. -/
def order : Option Extended → Option Extended → Option Ordering
  | some x, some y => some (compare x y)
  | _, _ => none

theorem order_eq_lt {x y : Extended} : order (some x) (some y) = some .lt ↔ x < y := by
  rw [order, Option.some.injEq]
  exact compare_lt_iff_lt

theorem order_eq_gt {x y : Extended} : order (some x) (some y) = some .gt ↔ y < x := by
  rw [order, Option.some.injEq]
  exact compare_gt_iff_gt

theorem order_eq_eq {x y : Extended} : order (some x) (some y) = some .eq ↔ x = y := by
  rw [order, Option.some.injEq]
  exact compare_eq_iff_eq

@[simp] theorem Extended.ofInt_lt {m n : Int} : Extended.ofInt m < .ofInt n ↔ m < n := by
  simp [Extended.ofInt, Extended.ofRat]

theorem Extended.ofInt_inj {m n : Int} : Extended.ofInt m = .ofInt n ↔ m = n := by
  simp [Extended.ofInt, Extended.ofRat]

theorem order_ofInt (m n : Int) : order (some (.ofInt m)) (some (.ofInt n)) = some (compare m n) := by
  rcases lt_trichotomy m n with h | h | h
  · rw [compare_lt_iff_lt.mpr h]
    exact order_eq_lt.mpr (Extended.ofInt_lt.mpr h)
  · rw [compare_eq_iff_eq.mpr h]
    exact order_eq_eq.mpr (Extended.ofInt_inj.mpr h)
  · rw [compare_gt_iff_gt.mpr h]
    exact order_eq_gt.mpr (Extended.ofInt_lt.mpr h)

theorem order_swap (x y : Option Extended) : order y x = (order x y).map Ordering.swap := by
  cases x with
  | none => cases y <;> rfl
  | some x =>
    cases y with
    | none => rfl
    | some y =>
      rcases lt_trichotomy x y with h | h | h
      · rw [order_eq_lt.mpr h, order_eq_gt.mpr h]
        rfl
      · rw [order_eq_eq.mpr h, order_eq_eq.mpr h.symm]
        rfl
      · rw [order_eq_gt.mpr h, order_eq_lt.mpr h]
        rfl

/-! ### Rounding -/

/-- A conversion of integers that never goes past a double on its way. -/
structure Rounding (f : Int → Double) : Prop where
  number : ∀ n, ∃ x, (f n).value = some x
  le : ∀ n d x v, (f n).value = some x → Double.value d = some v → .ofInt n ≤ v → x ≤ v
  ge : ∀ n d x v, (f n).value = some x → Double.value d = some v → v ≤ .ofInt n → v ≤ x

/-- A larger integer is not rounded lower. -/
def RoundsInOrder (f : Int → Double) : Prop :=
  ∀ m n x y, m ≤ n → (f m).value = some x → (f n).value = some y → x ≤ y

variable {f : Int → Double} {n : Int} {d : Double} {x v : Extended}

/-- Rounding only ever makes a strict order an equality. -/
theorem Rounding.lt_of_lt (hf : Rounding f) (hx : (f n).value = some x) (hd : d.value = some v)
    (h : x < v) : .ofInt n < v := by
  by_contra hle
  exact absurd h (not_lt.mpr (hf.ge n d x v hx hd (not_lt.mp hle)))

theorem Rounding.gt_of_gt (hf : Rounding f) (hx : (f n).value = some x) (hd : d.value = some v)
    (h : v < x) : v < .ofInt n := by
  by_contra hle
  exact absurd h (not_lt.mpr (hf.le n d x v hx hd (not_lt.mp hle)))

theorem Rounding.eq_of_eq (hf : Rounding f) (hx : (f n).value = some x) (hd : d.value = some v)
    (h : .ofInt n = v) : x = v :=
  le_antisymm (hf.le n d x v hx hd h.le) (hf.ge n d x v hx hd h.ge)

/-! ### Towards zero -/

/-- The bits of `n` beyond 53 are dropped. -/
def excess (n : Nat) : Nat := n.size - 53

theorem div_excess_lt (n : Nat) : n / 2 ^ excess n < 2 ^ 53 := by
  rw [Nat.div_lt_iff_lt_mul (by positivity), ← Nat.pow_add]
  exact Nat.size_le.mp (by unfold excess; omega)

def truncate (n : Int) : Double :=
  if h : excess n.natAbs ≤ 971 then
    .finite (n < 0) (n.natAbs / 2 ^ excess n.natAbs) (excess n.natAbs)
      ⟨div_excess_lt _, by omega, by omega⟩
  else .infinite (n < 0)

/-- The magnitude that is left. -/
def kept (a : Nat) : ℚ := (a / 2 ^ excess a : Nat) * 2 ^ excess a

theorem kept_le (a : Nat) : kept a ≤ a := by
  have h := Nat.div_mul_le_self a (2 ^ excess a)
  unfold kept
  exact_mod_cast h

theorem kept_nonneg (a : Nat) : 0 ≤ kept a := by
  unfold kept
  positivity

/-- With bits to drop, 53 are left. -/
theorem pow_le_of_excess {a : Nat} (h : 0 < excess a) : 2 ^ (52 + excess a) ≤ a := by
  refine Nat.lt_size.mp ?_
  unfold excess at h ⊢
  omega

/-- The magnitudes of doubles below `a` are below what is left of it. -/
theorem le_kept {a k : Nat} {j : Int} (hk : k < 2 ^ 53) (h : (k : ℚ) * 2 ^ j ≤ a) :
    (k : ℚ) * 2 ^ j ≤ kept a := by
  rcases le_or_gt (excess a : Int) j with hj | hj
  · -- a multiple of the last place that is left
    obtain ⟨t, rfl⟩ := Int.le.dest hj
    have hsplit : (k : ℚ) * 2 ^ ((excess a : Int) + t) = (k * 2 ^ t : Nat) * 2 ^ excess a := by
      rw [zpow_add₀ (by norm_num), zpow_natCast, zpow_natCast]
      push_cast
      ring
    rw [hsplit] at h ⊢
    have hle : k * 2 ^ t * 2 ^ excess a ≤ a := by exact_mod_cast h
    have hq : k * 2 ^ t ≤ a / 2 ^ excess a := (Nat.le_div_iff_mul_le (by positivity)).mpr hle
    exact mul_le_mul_of_nonneg_right (by exact_mod_cast hq) (by positivity)
  · rcases Nat.eq_zero_or_pos (excess a) with he | he
    · have hkept : kept a = a := by simp [kept, he]
      rwa [hkept]
    · have hq : 2 ^ 52 ≤ a / 2 ^ excess a := by
        rw [Nat.le_div_iff_mul_le (by positivity), ← Nat.pow_add]
        exact pow_le_of_excess he
      have hpow : (2 : ℚ) ^ j ≤ 2 ^ ((excess a : Int) - 1) :=
        zpow_le_zpow_right₀ (by norm_num) (by omega)
      have hhalf : (2 : ℚ) ^ ((excess a : Int) - 1) = 2 ^ excess a / 2 := by
        rw [zpow_sub₀ (by norm_num), zpow_natCast, zpow_one]
      have hk' : (k : ℚ) ≤ 2 ^ 53 := by exact_mod_cast hk.le
      calc (k : ℚ) * 2 ^ j ≤ 2 ^ 53 * (2 ^ excess a / 2) := by
            rw [← hhalf]
            exact mul_le_mul hk' hpow (by positivity) (by positivity)
        _ = (2 ^ 52 : Nat) * 2 ^ excess a := by push_cast; ring
        _ ≤ kept a := by
            unfold kept
            exact mul_le_mul_of_nonneg_right (by exact_mod_cast hq) (by positivity)

/-- Doubles with exponents up to `m` are below what needs more. -/
theorem lt_of_excess {a k m : Nat} {j : Int} (ha : m < excess a) (hk : k < 2 ^ 53) (hj : j ≤ m) :
    (k : ℚ) * 2 ^ j < a := by
  have hpow : (2 : ℚ) ^ j ≤ 2 ^ (m : Int) := zpow_le_zpow_right₀ (by norm_num) hj
  have hk' : (k : ℚ) < 2 ^ 53 := by exact_mod_cast hk
  have hnat : 2 ^ (53 + m) ≤ a :=
    (Nat.pow_le_pow_right (by omega) (by omega)).trans (pow_le_of_excess (by omega))
  calc (k : ℚ) * 2 ^ j ≤ k * 2 ^ (m : Int) := mul_le_mul_of_nonneg_left hpow (by positivity)
    _ < 2 ^ 53 * 2 ^ (m : Int) := mul_lt_mul_of_pos_right hk' (by positivity)
    _ = (2 ^ (53 + m) : Nat) := by
        rw [zpow_natCast]
        push_cast
        ring
    _ ≤ a := by exact_mod_cast hnat

namespace Extended

@[simp] theorem ofRat_le {p q : ℚ} : ofRat p ≤ ofRat q ↔ p ≤ q := by
  simp [ofRat]

theorem ofInt_le {n : Int} {q : ℚ} : ofInt n ≤ ofRat q ↔ (n : ℚ) ≤ q := ofRat_le

theorem le_ofInt {n : Int} {q : ℚ} : ofRat q ≤ ofInt n ↔ q ≤ (n : ℚ) := ofRat_le

end Extended

/-- Between an integer and what truncation leaves of it there is no double. -/
theorem truncate_between {n : Int} {k : Nat} {j : Int} (hk : k < 2 ^ 53) (negative : Bool) :
    ((n : ℚ) ≤ Double.signed negative (k * 2 ^ j) →
      Double.signed (n < 0) (kept n.natAbs) ≤ Double.signed negative (k * 2 ^ j)) ∧
    (Double.signed negative (k * 2 ^ j) ≤ (n : ℚ) →
      Double.signed negative (k * 2 ^ j) ≤ Double.signed (n < 0) (kept n.natAbs)) := by
  have hpos : (0 : ℚ) ≤ k * 2 ^ j := by positivity
  have hbelow := le_kept (a := n.natAbs) (j := j) hk
  have hkept := kept_le n.natAbs
  have hnonneg := kept_nonneg n.natAbs
  rcases lt_or_ge n 0 with hn | hn
  · have hcast : (n : ℚ) = -(n.natAbs : ℚ) := by
      rw [Nat.cast_natAbs, abs_of_neg hn, Int.cast_neg, neg_neg]
    simp only [Double.signed, hn, decide_true, if_true, hcast]
    constructor
    · intro h
      cases negative with
      | false => exact (neg_nonpos.mpr hnonneg).trans hpos
      | true => exact neg_le_neg (hbelow (neg_le_neg_iff.mp h))
    · exact fun h => h.trans (neg_le_neg hkept)
  · have hcast : (n : ℚ) = (n.natAbs : ℚ) := by rw [Nat.cast_natAbs, abs_of_nonneg hn]
    simp only [Double.signed, not_lt.mpr hn, decide_false, Bool.false_eq_true, if_false, hcast]
    constructor
    · exact fun h => hkept.trans h
    · intro h
      cases negative with
      | false => exact hbelow h
      | true => exact (neg_nonpos.mpr hpos).trans hnonneg

/-- An integer that needs more than 1024 bits is past every finite double, on its own side. -/
theorem signed_lt_of_excess {n : Int} {k : Nat} {j : Int} (ha : 971 < excess n.natAbs)
    (hk : k < 2 ^ 53) (hj : j ≤ 971) (negative : Bool) :
    if n < 0 then (n : ℚ) < Double.signed negative (k * 2 ^ j)
    else Double.signed negative (k * 2 ^ j) < n := by
  have hpos : (0 : ℚ) ≤ k * 2 ^ j := by positivity
  have hlt := lt_of_excess (m := 971) ha hk hj
  split
  · rename_i hn
    have hcast : (n : ℚ) = -(n.natAbs : ℚ) := by
      rw [Nat.cast_natAbs, abs_of_neg hn, Int.cast_neg, neg_neg]
    rw [hcast]
    cases negative with
    | false => exact lt_of_lt_of_le (neg_neg_of_pos (lt_of_le_of_lt hpos hlt)) hpos
    | true => exact neg_lt_neg hlt
  · rename_i hn
    have hcast : (n : ℚ) = (n.natAbs : ℚ) := by
      rw [Nat.cast_natAbs, abs_of_nonneg (not_lt.mp hn)]
    rw [hcast]
    cases negative with
    | false => exact hlt
    | true => exact lt_of_le_of_lt (neg_nonpos.mpr hpos) (lt_of_le_of_lt hpos hlt)

theorem truncate_value (n : Int) : (truncate n).value = some (
    if excess n.natAbs ≤ 971 then Extended.ofRat (Double.signed (n < 0) (kept n.natAbs))
    else if n < 0 then ⊥ else ((⊤ : WithTop ℚ) : Extended)) := by
  unfold truncate
  split
  · rename_i h
    rw [Double.value, zpow_natCast]
    rfl
  · simp [Double.value]

theorem truncate_between_double {n : Int} {d : Double} {v : Extended} (hd : d.value = some v) :
    ∃ x, (truncate n).value = some x ∧ (.ofInt n ≤ v → x ≤ v) ∧ (v ≤ .ofInt n → v ≤ x) := by
  refine ⟨_, truncate_value n, ?_⟩
  cases d with
  | nan => cases hd
  | infinite negative =>
    cases negative with
    | false =>
      obtain rfl := Option.some.inj hd
      exact ⟨fun _ => le_top, fun h => absurd h (by simp [Extended.ofInt, Extended.ofRat])⟩
    | true =>
      obtain rfl := Option.some.inj hd
      exact ⟨fun h => absurd h (by simp [Extended.ofInt, Extended.ofRat]), fun _ => bot_le⟩
  | finite negative k j hfin =>
    obtain rfl := Option.some.inj hd
    rw [Extended.ofInt_le, Extended.le_ofInt]
    split
    · rw [Extended.ofRat_le, Extended.ofRat_le]
      exact truncate_between hfin.1 negative
    · rename_i hlarge
      have hpast := signed_lt_of_excess (n := n) (by omega) hfin.1 hfin.2.2 negative
      split at hpast
      · rename_i hn
        rw [if_pos hn]
        exact ⟨fun _ => bot_le, fun h => absurd hpast (not_lt.mpr h)⟩
      · rename_i hn
        rw [if_neg hn]
        exact ⟨fun h => absurd hpast (not_lt.mpr h), fun _ => le_top⟩

/-- Dropping the bits past 53 is a rounding. -/
theorem truncate_rounding : Rounding truncate where
  number n := ⟨_, truncate_value n⟩
  le n d x v hx hd := by
    obtain ⟨x', hx', h, -⟩ := truncate_between_double (n := n) hd
    obtain rfl := Option.some.inj (hx.symm.trans hx')
    exact h
  ge n d x v hx hd := by
    obtain ⟨x', hx', -, h⟩ := truncate_between_double (n := n) hd
    obtain rfl := Option.some.inj (hx.symm.trans hx')
    exact h

theorem kept_mono {a b : Nat} (h : a ≤ b) : kept a ≤ kept b := by
  have hab : kept a ≤ b := (kept_le a).trans (by exact_mod_cast h)
  unfold kept at hab
  rw [← zpow_natCast] at hab
  have hkept := le_kept (div_excess_lt a) hab
  rwa [zpow_natCast] at hkept

theorem excess_mono {a b : Nat} (h : a ≤ b) : excess a ≤ excess b :=
  Nat.sub_le_sub_right (Nat.size_le_size h) 53

theorem truncate_inOrder : RoundsInOrder truncate := by
  intro m n x y hmn hx hy
  rw [truncate_value, Option.some.injEq] at hx hy
  subst hx hy
  rcases lt_or_ge m 0 with hm | hm
  · rw [if_pos hm, decide_eq_true hm]
    rcases lt_or_ge n 0 with hn | hn
    · have habs : n.natAbs ≤ m.natAbs := by omega
      have hexcess := excess_mono habs
      by_cases h : excess m.natAbs ≤ 971
      · rw [if_pos h, if_pos (hexcess.trans h), decide_eq_true hn, Extended.ofRat_le]
        exact neg_le_neg (kept_mono habs)
      · rw [if_neg h]
        exact bot_le
    · rw [if_neg hn.not_gt, decide_eq_false hn.not_gt]
      split
      · split
        · rw [Extended.ofRat_le]
          exact (neg_nonpos.mpr (kept_nonneg _)).trans (kept_nonneg _)
        · exact le_top
      · exact bot_le
  · have hn : 0 ≤ n := hm.trans hmn
    rw [if_neg hm.not_gt, if_neg hn.not_gt, decide_eq_false hm.not_gt, decide_eq_false hn.not_gt]
    have habs : m.natAbs ≤ n.natAbs := by omega
    by_cases h : excess n.natAbs ≤ 971
    · rw [if_pos h, if_pos ((excess_mono habs).trans h), Extended.ofRat_le]
      exact kept_mono habs
    · rw [if_neg h]
      exact le_top

end ProtoClojure.Numbers
