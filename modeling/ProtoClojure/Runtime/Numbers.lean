import ProtoClojure.Numbers.Double
import ProtoClojure.Runtime.ValueEquality

/-! Numbers among the runtime's values, and what protoCore computes with them. -/
namespace ProtoClojure.Maps
open Numbers

inductive Raised where
  | error (message : String)
  | classed (className message : String)
deriving DecidableEq

abbrev Result (α : Type) := Except Raised α

/-- protoCore's arithmetic, and what a value's type is called. -/
structure Kernel where
  add : Value → Value → Value
  subtract : Value → Value → Value
  multiply : Value → Value → Value
  partialCompare : Value → Value → Option Ordering
  compare : Value → Value → Int                -- of two integers
  asDouble : Int → Double
  fromDouble : Double → Value
  valueTypeName : Value → String
  core : ProtoCore

namespace Value

/-- The number a value stands for; NaN and what is no number stand for none. -/
def exact : Value → Option Extended
  | .embedded (.smallInt n) => some (.ofInt n)
  | .largeInteger _ n => some (.ofInt n)
  | .double _ bits => (Double.ofBits bits).value
  | _ => none

def isFloat : Value → Bool
  | .double .. => true
  | _ => false

/-- An integer in its one representation. -/
def IsInteger (v : Value) (n : Int) : Prop := v.asInteger = some n ∧ v.Plain

/-- A word holds an integer of its range. -/
def Tagged (v : Value) : Prop := ∀ n, v = .embedded (.smallInt n) → InSmallRange n

theorem exact_of_integer {v : Value} {n : Int} (h : v.asInteger = some n) :
    v.exact = some (.ofInt n) := by
  cases v with
  | embedded w =>
    cases w with
    | smallInt m =>
      obtain rfl := Option.some.inj h
      rfl
    | _ => cases h
  | largeInteger i m =>
    obtain rfl := Option.some.inj h
    rfl
  | _ => cases h

theorem isNumber_of_integer {v : Value} {n : Int} (h : v.asInteger = some n) :
    v.isNumber = true := by
  cases v with
  | embedded w => cases w <;> first | rfl | cases h
  | largeInteger => rfl
  | _ => cases h

theorem number_cases {v : Value} (h : v.isNumber = true) :
    (∃ n, v.asInteger = some n) ∨ ∃ i bits, v = .double i bits := by
  cases v with
  | embedded w =>
    cases w with
    | smallInt n => exact .inl ⟨n, rfl⟩
    | _ => cases h
  | largeInteger i n => exact .inl ⟨n, rfl⟩
  | double i bits => exact .inr ⟨i, bits, rfl⟩
  | _ => cases h

theorem IsInteger.word {v : Value} {n : Int} (h : v.IsInteger n) (hn : InSmallRange n) :
    v = .embedded (.smallInt n) := by
  obtain ⟨hint, hplain⟩ := h
  obtain ⟨m, hm, hword⟩ := hplain.integer (isNumber_of_integer hint)
  obtain rfl := Option.some.inj (hint.symm.trans hm)
  rcases hword with ⟨-, rfl⟩ | ⟨hno, -⟩
  · rfl
  · exact absurd hn hno

end Value

namespace Kernel
variable (K : Kernel)

/-- `asDouble` of a number. -/
def double (v : Value) : Double :=
  match v with
  | .double _ bits => .ofBits bits
  | v =>
    match v.asInteger with
    | some n => K.asDouble n
    | none => .nan

/-- Arithmetic on integers is exact, comparison exact between any two numbers and without order
for NaN, and an integer is rounded to a double. -/
structure Lawful : Prop where
  add : ∀ a b m n, a.asInteger = some m → b.asInteger = some n → (K.add a b).IsInteger (m + n)
  subtract : ∀ a b m n, a.asInteger = some m → b.asInteger = some n →
    (K.subtract a b).IsInteger (m - n)
  multiply : ∀ a b m n, a.asInteger = some m → b.asInteger = some n →
    (K.multiply a b).IsInteger (m * n)
  partialCompare : ∀ a b, a.isNumber = true → b.isNumber = true →
    K.partialCompare a b = order a.exact b.exact
  compare : ∀ a b m n, a.asInteger = some m → b.asInteger = some n →
    (K.compare a b).sign = (m - n).sign
  asDouble : Rounding K.asDouble

def throwNotANumber {α : Type} (operation : String) (v : Value) : Result α :=
  .error (.classed "ClassCastException" (operation ++ " expects a number, got " ++ K.valueTypeName v))

/-- The sign of `a - b` for two integers. -/
def compareIntegers (a b : Value) : Int :=
  match a, b with
  | .embedded (.smallInt x), .embedded (.smallInt y) =>
    (if x > y then 1 else 0) - if x < y then 1 else 0
  | a, b => K.compare a b

end Kernel

/-- C++'s comparisons: every one with NaN is false. -/
def doubleLt (x y : Double) : Bool := order x.value y.value == some .lt

def doubleLe (x y : Double) : Bool :=
  order x.value y.value == some .lt || order x.value y.value == some .eq

def fromBool (b : Bool) : Value := .embedded (.bool b)

section Compare
variable {K : Kernel} {a b : Value} {m n : Int}

theorem compareIntegers_sign (hK : K.Lawful) (hm : a.asInteger = some m)
    (hn : b.asInteger = some n) : (K.compareIntegers a b).sign = (m - n).sign := by
  unfold Kernel.compareIntegers
  split
  · obtain rfl := Option.some.inj hm
    obtain rfl := Option.some.inj hn
    rename_i x y
    rcases lt_trichotomy x y with h | rfl | h
    · rw [if_neg (by omega), if_pos h, Int.sign_eq_neg_one_of_neg (a := x - y) (by omega)]
      rfl
    · simp
    · rw [if_pos h, if_neg (by omega), Int.sign_eq_one_of_pos (a := x - y) (by omega)]
      rfl
  · exact hK.compare a b m n hm hn

end Compare
end ProtoClojure.Maps
