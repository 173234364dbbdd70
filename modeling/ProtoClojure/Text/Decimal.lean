import Mathlib.Data.Nat.Digits.Lemmas
import Mathlib.Algebra.Field.Rat
import Mathlib.Algebra.Order.Ring.Rat
import Mathlib.Tactic.FieldSimp
import Mathlib.Tactic.Ring

/-! Decimal numerals in ASCII: integers, and decimals with a fraction and an exponent. -/

namespace ProtoClojure.Decimal

def isDigit (c : UInt8) : Bool := 0x30 ≤ c && c ≤ 0x39

def digitsValue (t : List UInt8) : Nat := t.foldl (fun v c => 10 * v + (c.toNat - 0x30)) 0

/-- The number a decimal integer spells. -/
def integerValue : List UInt8 → Int
  | 0x2D :: t => -(digitsValue t : Int)
  | t => digitsValue t

def digit (d : Nat) : UInt8 := UInt8.ofNat (0x30 + d)

def natText (n : Nat) : List UInt8 :=
  if n = 0 then [digit 0] else (Nat.digits 10 n).reverse.map digit

def intText (n : Int) : List UInt8 :=
  if n < 0 then 0x2D :: natText n.natAbs else natText n.natAbs

/-! ### Digits -/

theorem toNat_digit {d : Nat} (h : d < 10) : (digit d).toNat = 0x30 + d := by
  rw [digit, UInt8.toNat_ofNat']
  omega

theorem isDigit_iff {c : UInt8} : isDigit c = true ↔ 0x30 ≤ c.toNat ∧ c.toNat ≤ 0x39 := by
  simp [isDigit, UInt8.le_iff_toNat_le]

theorem isDigit_digit {d : Nat} (h : d < 10) : isDigit (digit d) = true := by
  rw [isDigit_iff, toNat_digit h]
  omega

@[simp] theorem digitsValue_nil : digitsValue [] = 0 := rfl

theorem foldl_digits (t : List UInt8) (v : Nat) :
    t.foldl (fun v c => 10 * v + (c.toNat - 0x30)) v = v * 10 ^ t.length + digitsValue t := by
  induction t generalizing v with
  | nil => simp
  | cons c t ih =>
    rw [digitsValue, List.foldl_cons, List.foldl_cons, ih, ih (10 * 0 + _), List.length_cons]
    ring

theorem digitsValue_append (s t : List UInt8) :
    digitsValue (s ++ t) = digitsValue s * 10 ^ t.length + digitsValue t := by
  rw [digitsValue, List.foldl_append, foldl_digits]
  rfl

theorem digitsValue_cons (c : UInt8) (t : List UInt8) :
    digitsValue (c :: t) = (c.toNat - 0x30) * 10 ^ t.length + digitsValue t := by
  rw [digitsValue, List.foldl_cons, foldl_digits]
  simp

/-- Leading zeros do not count. -/
theorem digitsValue_zeros (n : Nat) (t : List UInt8) :
    digitsValue (List.replicate n (digit 0) ++ t) = digitsValue t := by
  induction n with
  | zero => rfl
  | succ n ih =>
    rw [List.replicate_succ, List.cons_append, digitsValue_cons, ih, toNat_digit (by decide)]
    simp

theorem digitsValue_append_zeros (n : Nat) (t : List UInt8) :
    digitsValue (t ++ List.replicate n (digit 0)) = digitsValue t * 10 ^ n := by
  have h := digitsValue_zeros n []
  rw [List.append_nil] at h
  rw [digitsValue_append, h, List.length_replicate, digitsValue_nil, Nat.add_zero]

theorem digitsValue_digits (ds : List Nat) (h : ∀ d ∈ ds, d < 10) :
    digitsValue (ds.reverse.map digit) = Nat.ofDigits 10 ds := by
  induction ds with
  | nil => rfl
  | cons d ds ih =>
    have hd := h d List.mem_cons_self
    rw [List.reverse_cons, List.map_append, digitsValue_append,
      ih fun x hx => h x (List.mem_cons_of_mem d hx), Nat.ofDigits_cons]
    have h1 : digitsValue ([d].map digit) = d := by
      rw [List.map_singleton, digitsValue_cons, toNat_digit hd]
      simp
    rw [h1]
    simp
    ring

/-! ### Integers -/

theorem digitsValue_natText (n : Nat) : digitsValue (natText n) = n := by
  unfold natText
  split
  · rename_i h
    subst h
    rfl
  · rw [digitsValue_digits _ fun d hd => Nat.digits_lt_base (by decide) hd, Nat.ofDigits_digits]

theorem natText_digits (n : Nat) : ∀ c ∈ natText n, isDigit c = true := by
  unfold natText
  split
  · intro c hc
    rw [List.mem_singleton.mp hc]
    rfl
  · intro c hc
    obtain ⟨d, hd, rfl⟩ := List.mem_map.mp hc
    exact isDigit_digit (Nat.digits_lt_base (by decide) (List.mem_reverse.mp hd))

theorem natText_ne_nil (n : Nat) : natText n ≠ [] := by
  unfold natText
  split
  · exact List.cons_ne_nil _ _
  · rename_i h
    simpa using Nat.digits_ne_nil_iff_ne_zero.mpr h

/-- Only zero is spelled with a leading zero. -/
theorem natText_head (n : Nat) : natText n = [digit 0] ∨ (natText n).head? ≠ some (digit 0) := by
  unfold natText
  split
  · exact .inl rfl
  · rename_i h
    right
    have hne : Nat.digits 10 n ≠ [] := Nat.digits_ne_nil_iff_ne_zero.mpr h
    rw [List.head?_map, List.head?_reverse, List.getLast?_eq_some_getLast hne]
    intro heq
    have hd : digit ((Nat.digits 10 n).getLast hne) = digit 0 := Option.some.inj heq
    have hlt := Nat.digits_lt_base (by decide : 1 < 10) (List.getLast_mem hne)
    have hnat := congrArg UInt8.toNat hd
    rw [toNat_digit hlt, toNat_digit (by decide)] at hnat
    exact Nat.getLast_digit_ne_zero 10 h (by omega)

theorem integerValue_of_digits {t : List UInt8} (h : ∀ c ∈ t, isDigit c = true) :
    integerValue t = digitsValue t := by
  unfold integerValue
  split
  · rename_i t
    have hm := h 0x2D List.mem_cons_self
    cases hm
  · rfl

theorem integerValue_intText (n : Int) : integerValue (intText n) = n := by
  unfold intText
  split
  · show -(digitsValue (natText n.natAbs) : Int) = n
    rw [digitsValue_natText]
    omega
  · rw [integerValue_of_digits (natText_digits _), digitsValue_natText]
    omega

/-! ### Decimals -/

/-- `int.frac × 10^exp`, the digits as text. -/
structure Numeral where
  int : List UInt8
  frac : List UInt8 := []
  exp : Int := 0
  int_ne : int ≠ []
  int_digits : ∀ c ∈ int, isDigit c = true
  frac_digits : ∀ c ∈ frac, isDigit c = true

namespace Numeral

def value (x : Numeral) : ℚ :=
  digitsValue (x.int ++ x.frac) * 10 ^ (x.exp - x.frac.length)

def fractionText (x : Numeral) : List UInt8 := if x.frac = [] then [] else 0x2E :: x.frac

/-- A letter, a sign that may be left out when it is a plus, and at least one digit. -/
def ExponentText (e : Int) (t : List UInt8) : Prop :=
  ∃ letter sign digits, t = letter :: (sign ++ digits) ∧ (letter = 0x65 ∨ letter = 0x45) ∧
    digits ≠ [] ∧ (∀ c ∈ digits, isDigit c = true) ∧
    ((sign = [] ∨ sign = [0x2B]) ∧ e = digitsValue digits ∨
      sign = [0x2D] ∧ e = -(digitsValue digits : Int))

/-- `t` spells `x`; the exponent may be left out when it is 0. -/
def Spells (t : List UInt8) (x : Numeral) : Prop :=
  ∃ e, t = x.int ++ x.fractionText ++ e ∧ (e = [] ∧ x.exp = 0 ∨ ExponentText x.exp e)

theorem exponentText_intText (e : Int) : ExponentText e (0x45 :: intText e) := by
  unfold intText
  split
  · rename_i h
    refine ⟨0x45, [0x2D], natText e.natAbs, rfl, .inr rfl, natText_ne_nil _, natText_digits _, ?_⟩
    rw [digitsValue_natText]
    exact .inr ⟨rfl, by omega⟩
  · rename_i h
    refine ⟨0x45, [], natText e.natAbs, rfl, .inr rfl, natText_ne_nil _, natText_digits _, ?_⟩
    rw [digitsValue_natText]
    exact .inl ⟨.inl rfl, by omega⟩

/-- Zeros moved from the digits into the exponent. -/
theorem shift_zeros (v : ℚ) (k : Nat) (e : Int) :
    v * (10 : ℚ) ^ k * (10 : ℚ) ^ (e - k) = v * (10 : ℚ) ^ e := by
  rw [mul_assoc, ← zpow_natCast, ← zpow_add₀ (by norm_num)]
  congr 2
  omega

end Numeral

end ProtoClojure.Decimal
