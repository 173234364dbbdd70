import Mathlib.Data.Rat.Floor
import ProtoClojure.Json.Grammar
import ProtoClojure.Json.Tokens
import ProtoClojure.Reader.FloatToken
import ProtoClojure.Runtime.Division
import ProtoClojure.Runtime.FormatDouble

/-! `bigint`, and the text of a float as its readers take it. -/
namespace ProtoClojure.Maps
open Numbers Decimal

abbrev Text := List UInt8

/-- protoCore reads an integer from its digits. -/
structure BigintKernel extends DivisionKernel where
  fromString : Text → Value

structure BigintKernel.Lawful (K : BigintKernel) : Prop where
  fromLong : ∀ n, -2 ^ 63 ≤ n → n < 2 ^ 63 → (K.fromLong n).IsInteger n
  fromString : ∀ (negative : Bool) (t : Text), t ≠ [] → (∀ c ∈ t, isDigit c = true) →
    (K.fromString (Json.signText negative ++ t)).IsInteger (integerValue (Json.signText negative ++ t))

/-- Of a text that starts with a number; out of range it throws. -/
def stoll (s : Text) : Option Int :=
  if -2 ^ 63 ≤ atoi s ∧ atoi s < 2 ^ 63 then some (atoi s) else none

/-- The digits up to an exponent, how many stand before the point, and what follows them. -/
def splitPoint (digits : Text) (point : Int) : Text → Text × Int × Text
  | [] => (digits, point, [])
  | c :: text =>
    if c = 0x45 then (digits, point, c :: text)
    else if c = 0x2E then splitPoint digits digits.length text
    else splitPoint (digits ++ [c]) point text

def wholeDigits (digits : Text) (point : Int) : Text :=
  if point > 0 then
    digits.take (min point digits.length).toNat ++
      if point > digits.length then List.replicate (point.toNat - digits.length) 0x30 else []
  else []

/-- The integer part of what `formatDouble` writes. -/
def bigintOfText (K : BigintKernel) (text : Text) : Result Value :=
  let neg : Bool := text.head? = some 0x2D
  let (digits, point, rest) := splitPoint [] 0 (if neg then text.drop 1 else text)
  let exponent := if rest = [] then some 0 else stoll (rest.drop 1)
  match exponent with
  | none => .error (.error "stoll")
  | some exponent =>
    let whole := (wholeDigits digits (point + exponent)).dropWhile (· == 0x30)
    if whole = [] then .ok (K.fromLong 0)
    else .ok (K.fromString ((if neg then [0x2D] else []) ++ whole))

/-- Digits, with a sign or without. -/
def bigintOfString (K : BigintKernel) (text : String) : Result Value :=
  let s := text.toUTF8.data.toList
  let signed : Bool := s.head? = some 0x2B || s.head? = some 0x2D
  let digits := if signed then s.drop 1 else s
  if digits ≠ [] ∧ digits.all isDigit then
    .ok (K.fromString (if s.head? = some 0x2B then s.drop 1 else s))
  else .error (.classed "NumberFormatException" ("For input string: \"" ++ text ++ "\""))

def prim_bigint (K : BigintKernel) (F : Floats Double) (args : List Value) : Result Value :=
  match args with
  | [v] =>
    if v.asInteger.isSome then .ok v
    else
      match v with
      | .double _ bits =>
        let d := Double.ofBits bits
        if F.isNaN d || F.isInf d then
          .error (.classed "NumberFormatException" "Infinite or NaN")
        else bigintOfText K (formatDouble F d)
      | .string _ _ text => bigintOfString K text
      | v => .error (.classed "ClassCastException"
          ("bigint expects a number or a string, got " ++ K.valueTypeName v))
  | args => arity args.length "bigint"

/-! ### The integer part of a decimal -/

section Whole
variable {digits s : Text} {point : Int}

theorem digitsValue_lt (h : ∀ c ∈ digits, isDigit c = true) :
    digitsValue digits < 10 ^ digits.length := by
  induction digits with
  | nil => exact Nat.one_pos
  | cons c digits ih =>
    obtain ⟨hc, hdigits⟩ := List.forall_mem_cons.mp h
    have hlt := ih hdigits
    have hle : c.toNat - 0x30 ≤ 9 := by
      have := isDigit_iff.mp hc
      omega
    rw [digitsValue_cons, List.length_cons, Nat.pow_succ]
    have := Nat.mul_le_mul_right (10 ^ digits.length) hle
    omega

theorem splitPoint_digits (hs : ∀ c ∈ s, isDigit c = true) (rest : Text) :
    splitPoint digits point (s ++ rest) = splitPoint (digits ++ s) point rest := by
  induction s generalizing digits with
  | nil => rw [List.nil_append, List.append_nil]
  | cons c s ih =>
    obtain ⟨hc, hs⟩ := List.forall_mem_cons.mp hs
    rw [List.cons_append, splitPoint, if_neg, if_neg, ih hs, List.append_assoc,
      List.singleton_append]
    · rintro rfl
      cases hc
    · rintro rfl
      cases hc

/-- The digits before the point are the integer part. -/
theorem wholeDigits_floor (h : ∀ c ∈ digits, isDigit c = true) (point : Int) :
    (digitsValue (wholeDigits digits point) : Int) =
      ⌊(digitsValue digits : ℚ) * 10 ^ (point - digits.length)⌋ := by
  have hlt : (digitsValue digits : ℚ) < 10 ^ (digits.length : Int) := by
    exact_mod_cast digitsValue_lt h
  unfold wholeDigits
  split
  · rename_i hpos
    obtain ⟨n, rfl⟩ := Int.eq_ofNat_of_zero_le hpos.le
    split
    · rename_i hmore
      obtain ⟨k, rfl⟩ := Nat.exists_eq_add_of_le (Int.ofNat_le.mp hmore.le)
      have hexp : ((digits.length + k : Nat) : Int) - digits.length = (k : Int) := by omega
      have htake : (min ((digits.length + k : Nat) : Int) digits.length).toNat = digits.length := by
        omega
      rw [htake, List.take_length, Int.toNat_natCast, Nat.add_sub_cancel_left, hexp,
        show List.replicate k (0x30 : UInt8) = List.replicate k (digit 0) from rfl,
        digitsValue_append_zeros]
      symm
      rw [Int.floor_eq_iff]
      push_cast
      rw [zpow_natCast]
      constructor <;> linarith
    · rename_i hless
      have hn : (min (n : Int) digits.length).toNat = n := by omega
      obtain ⟨k, hk⟩ := Nat.exists_eq_add_of_le (show n ≤ digits.length by omega)
      have hexp : (n : Int) - digits.length = -(k : Int) := by omega
      have hsplit : digitsValue digits =
          digitsValue (digits.take n) * 10 ^ k + digitsValue (digits.drop n) := by
        conv_lhs => rw [← List.take_append_drop n digits, digitsValue_append]
        rw [List.length_drop, hk, Nat.add_sub_cancel_left]
      have hdrop : digitsValue (digits.drop n) < 10 ^ k := by
        have hlt : digitsValue (digits.drop n) < 10 ^ (digits.drop n).length :=
          digitsValue_lt fun c hc => h c (List.mem_of_mem_drop hc)
        rwa [List.length_drop, hk, Nat.add_sub_cancel_left] at hlt
      rw [List.append_nil, hn, hexp, zpow_neg, zpow_natCast, ← div_eq_mul_inv]
      symm
      rw [Int.floor_eq_iff, le_div_iff₀ (by positivity), div_lt_iff₀ (by positivity)]
      constructor
      · exact_mod_cast (by omega : digitsValue (digits.take n) * 10 ^ k ≤ digitsValue digits)
      · exact_mod_cast (by rw [Nat.add_mul]; omega :
          digitsValue digits < (digitsValue (digits.take n) + 1) * 10 ^ k)
  · rename_i hpos
    have hle : (digitsValue digits : ℚ) * 10 ^ (point - digits.length) < 1 := by
      calc (digitsValue digits : ℚ) * 10 ^ (point - digits.length)
          < 10 ^ (digits.length : Int) * 10 ^ (point - digits.length) :=
            mul_lt_mul_of_pos_right hlt (by positivity)
        _ = 10 ^ point := by rw [← zpow_add₀ (by norm_num), add_sub_cancel]
        _ ≤ 1 := zpow_le_one_of_nonpos₀ (by norm_num) (not_lt.mp hpos)
    rw [digitsValue_nil]
    exact (Int.floor_eq_zero_iff.mpr ⟨by positivity, hle⟩).symm

theorem wholeDigits_digits (h : ∀ c ∈ digits, isDigit c = true) (point : Int) :
    ∀ c ∈ wholeDigits digits point, isDigit c = true := by
  unfold wholeDigits
  split
  · refine List.forall_mem_append.mpr ⟨fun c hc => h c (List.mem_of_mem_take hc), ?_⟩
    split
    · intro c hc
      rw [List.eq_of_mem_replicate hc]
      rfl
    · exact List.forall_mem_nil _
  · exact List.forall_mem_nil _

theorem digitsValue_dropZeros (t : Text) :
    digitsValue (t.dropWhile (· == 0x30)) = digitsValue t := by
  induction t with
  | nil => rfl
  | cons c t ih =>
    by_cases hc : c = 0x30
    · subst hc
      rw [List.dropWhile_cons_of_pos rfl, ih]
      exact (digitsValue_zeros 1 t).symm
    · rw [List.dropWhile_cons_of_neg (by simpa using hc)]

/-- The integer a magnitude is truncated to, with its sign. -/
def truncated (negative : Bool) (q : ℚ) : Int := if negative then -⌊q⌋ else ⌊q⌋

theorem integerValue_signed (negative : Bool) {t : Text} (h : ∀ c ∈ t, isDigit c = true) :
    integerValue (Json.signText negative ++ t) =
      if negative then -(digitsValue t : Int) else digitsValue t := by
  cases negative with
  | true => rfl
  | false => exact integerValue_of_digits h

end Whole

section Texts
variable {K : BigintKernel} {t : Text} {x : Numeral}

/-- Where an exponent is written with `E`, as `formatDouble` does. -/
theorem bigintOfText_spells (hK : K.Lawful) (negative : Bool) (ht : x.Spells t) (hfrac : x.frac ≠ [])
    (hletter : 0x65 ∉ t) (hexp : -2 ^ 63 ≤ x.exp ∧ x.exp < 2 ^ 63) :
    Answers (bigintOfText K (Json.signText negative ++ t)) (truncated negative x.value) := by
  obtain ⟨e, rfl, he⟩ := ht
  have hdigits : ∀ c ∈ x.int ++ x.frac, isDigit c = true :=
    List.forall_mem_append.mpr ⟨x.int_digits, x.frac_digits⟩
  have he : e = [] ∧ x.exp = 0 ∨ ∃ e', e = 0x45 :: e' ∧ atoi e' = x.exp := by
    refine he.imp id fun he => ?_
    obtain ⟨letter, sign, ds, rfl, hl, hds⟩ := he
    have hl : letter = 0x45 := by
      refine hl.resolve_left ?_
      rintro rfl
      exact hletter (by simp)
    exact ⟨_, congrArg (· :: (sign ++ ds)) hl, atoi_exponent ⟨0x65, sign, ds, rfl, .inl rfl, hds⟩⟩
  have hsplit : splitPoint [] 0 (x.int ++ x.fractionText ++ e) =
      (x.int ++ x.frac, (x.int.length : Int), e) := by
    rw [Numeral.fractionText, if_neg hfrac, List.append_assoc, List.cons_append,
      splitPoint_digits x.int_digits, List.nil_append, splitPoint, if_neg (by decide), if_pos rfl,
      splitPoint_digits x.frac_digits]
    rcases he with ⟨rfl, -⟩ | ⟨e', rfl, -⟩
    · rfl
    · rw [splitPoint, if_pos rfl]
  have hexponent : (if e = [] then some 0 else stoll (e.drop 1)) = some x.exp := by
    rcases he with ⟨rfl, h0⟩ | ⟨e', rfl, hatoi⟩
    · rw [if_pos rfl, h0]
    · rw [if_neg (List.cons_ne_nil _ _), List.drop_one, List.tail_cons, stoll, hatoi, if_pos hexp]
  have hneg : (decide ((Json.signText negative ++ (x.int ++ x.fractionText ++ e)).head? =
      some 0x2D)) = negative := by
    cases negative with
    | true => rfl
    | false =>
      obtain ⟨c, int, hint⟩ := List.exists_cons_of_ne_nil x.int_ne
      have hc := x.int_digits c (hint ▸ List.mem_cons_self)
      rw [hint]
      refine decide_eq_false fun h => ?_
      obtain rfl := Option.some.inj h
      cases hc
  have hrest : (if negative then (Json.signText negative ++ (x.int ++ x.fractionText ++ e)).drop 1
      else Json.signText negative ++ (x.int ++ x.fractionText ++ e)) =
      x.int ++ x.fractionText ++ e := by
    cases negative <;> rfl
  unfold bigintOfText
  rw [hneg]
  dsimp only
  rw [hrest, hsplit]
  dsimp only
  rw [hexponent]
  dsimp only
  have hwhole := wholeDigits_digits hdigits (x.int.length + x.exp)
  have hfloor := wholeDigits_floor hdigits (x.int.length + x.exp)
  have hvalue : x.value = (digitsValue (x.int ++ x.frac) : ℚ) *
      10 ^ ((x.int.length : Int) + x.exp - (x.int ++ x.frac).length) := by
    rw [Numeral.value, List.length_append]
    congr 2
    push_cast
    omega
  rw [← hvalue, ← digitsValue_dropZeros] at hfloor
  generalize hw : (wholeDigits (x.int ++ x.frac) (x.int.length + x.exp)).dropWhile (· == 0x30) = w
    at hfloor
  unfold truncated
  rw [← hfloor]
  split
  · rename_i hnil
    subst hnil
    refine ⟨_, rfl, ?_⟩
    rw [digitsValue_nil]
    cases negative <;> exact hK.fromLong 0 (by norm_num) (by norm_num)
  · rename_i hne
    have hwd : ∀ c ∈ w, isDigit c = true := fun c hc =>
      hwhole c ((List.dropWhile_suffix _).subset (hw ▸ hc))
    refine ⟨_, rfl, ?_⟩
    rw [← integerValue_signed negative hwd]
    exact hK.fromString negative w hne hwd

end Texts

/-! ### The text of a float -/

/-- What a finite double is written as. -/
theorem formatDouble_numeral {D : Type} {F : Floats D} {d : D} (hd : F.finite d)
    (hchars : F.isZero (F.fabs d) = false → F.WritesScientific (F.fabs d)) :
    ∃ (t : Text) (y : Numeral), formatDouble F d = Json.signText (F.signbit d) ++ t ∧ y.Spells t ∧
      (F.isZero (F.fabs d) = true ∧ y.value = 0 ∨
        ∃ p x, Chosen F (F.fabs d) p ∧ Scientific (F.toCharsScientific (F.fabs d) p) x ∧
          y.value = x.value) ∧
      y.frac ≠ [] ∧ Json.NoLeadingZero y.int ∧ 0x65 ∉ t ∧ -2 ^ 63 ≤ y.exp ∧ y.exp < 2 ^ 63 := by
  unfold formatDouble
  rw [hd.1, hd.2, if_neg Bool.false_ne_true, if_neg Bool.false_ne_true]
  dsimp only
  cases hz : F.isZero (F.fabs d) with
  | true =>
    let y : Numeral := ⟨[0x30], [0x30], 0, List.cons_ne_nil _ _, by simp [isDigit],
      by simp [isDigit]⟩
    refine ⟨[0x30, 0x2E, 0x30], y, if_pos rfl, ⟨[], rfl, .inl ⟨rfl, rfl⟩⟩, .inl ⟨rfl, ?_⟩,
      List.cons_ne_nil _ _, .inl rfl, by decide, by norm_num [y], by norm_num [y]⟩
    rw [Numeral.value, show digitsValue (y.int ++ y.frac) = 0 from rfl]
    simp
  | false =>
    obtain ⟨hsig, p, x, hp, hx, hrange, hexp, hval⟩ := significant_value (hchars hz)
    obtain ⟨y, hy, hyval, hfrac, hint, hyexp⟩ := layOut_spells hsig (significant F (F.fabs d)).2
    refine ⟨_, y, if_neg Bool.false_ne_true, hy, .inr ⟨p, x, hp, hx, hyval.trans hval⟩, hfrac, hint,
      layOut_letter hsig.all _, ?_⟩
    rcases hyexp with h | h <;> rw [h] <;> omega

/-- The text of a finite float denotes what `std::to_chars` wrote; it is one float token, a JSON
number, and what `bigint` truncates. -/
theorem floatText_faithful {K : BigintKernel} (hK : K.Lawful) {F : Floats Double} {bits : UInt64}
    (hd : F.finite (Double.ofBits bits))
    (hchars : F.isZero (F.fabs (Double.ofBits bits)) = false →
      F.WritesScientific (F.fabs (Double.ofBits bits)))
    (letters : Nat → Bool) (address : Nat) :
    let d := Double.ofBits bits
    ∃ (t : Text) (y : Numeral), formatDouble F d = Json.signText (F.signbit d) ++ t ∧ y.Spells t ∧
      (F.isZero (F.fabs d) = true ∧ y.value = 0 ∨
        ∃ p x, Chosen F (F.fabs d) p ∧ Scientific (F.toCharsScientific (F.fabs d) p) x ∧
          y.value = x.value) ∧
      Reader.lexNumber letters (F.signbit d) t = (.float (.decimal (formatDouble F d)), []) ∧
      Reader.tokens letters (formatDouble F d) =
        [.float (.decimal (formatDouble F d)), .endOfFile] ∧
      Json.IsValue (formatDouble F d) (.decimal (F.signbit d) y) ∧
      (∀ (V E W : Type) (H : Json.Host V E W), ∃ t', y.Spells t' ∧
        Json.Takes (Json.number H) (formatDouble F d)
          (Json.numberValue H true (Json.signText (F.signbit d) ++ t')) []) ∧
      Answers (prim_bigint K F [.double address bits]) (truncated (F.signbit d) y.value) := by
  intro d
  obtain ⟨t, y, htext, hy, hvalue, hfrac, hzero, hletter, hexp⟩ := formatDouble_numeral hd hchars
  have hsigned : Json.signText (F.signbit d) ++ t =
      if F.signbit d then Reader.dash :: t else t := by
    cases F.signbit d <;> rfl
  refine ⟨t, y, htext, hy, hvalue, ?_, ?_, ?_, ?_, ?_⟩
  · have hlex := Reader.lexNumber_decimal letters (F.signbit d) hy hfrac
      (show Reader.trailLength letters [] = 0 from rfl)
    rwa [List.append_nil, ← hsigned, ← htext] at hlex
  · rw [htext, hsigned]
    exact Reader.tokens_decimal letters (F.signbit d) hy hfrac
  · rw [htext]
    refine .decimal _ hy ?_ hzero
    obtain ⟨e, rfl, -⟩ := hy
    rw [Numeral.fractionText, if_neg hfrac]
    simp
  · intro V E W H
    rw [htext]
    refine Json.takes_decimal H ?_ hy hfrac hzero Json.Stops.nil
    cases F.signbit d
    · exact .inl rfl
    · exact .inr rfl
  · have hfinite : (F.isNaN d || F.isInf d) = false := by rw [hd.1, hd.2]; rfl
    have hbigint : prim_bigint K F [.double address bits] = bigintOfText K (formatDouble F d) := by
      show (if (F.isNaN d || F.isInf d) = true then _ else _) = _
      rw [if_neg (by rw [hfinite]; exact Bool.false_ne_true)]
    rw [hbigint, htext]
    exact bigintOfText_spells hK _ hy hfrac hletter hexp

/-! ### The float `1.0` -/

/-- The digits of `1.0`, at any precision. -/
def oneText : Option Nat → Text
  | none | some 0 => [0x31, 0x65, 0x2B, 0x30, 0x30]
  | some (p + 1) => 0x31 :: 0x2E :: (List.replicate (p + 1) (digit 0) ++ [0x65, 0x2B, 0x30, 0x30])

def one : Double := Double.ofBits 0x3FF0000000000000

/-- What the library answers about `1.0`. -/
def oneFloats : Floats Double where
  isNaN _ := false
  isInf _ := false
  positive _ := true
  signbit _ := false
  fabs d := d
  isZero _ := false
  same _ _ := true
  toCharsScientific _ := oneText
  strtod _ := one

def digitsKernel : BigintKernel where
  toDivisionKernel := integerDivisionKernel
  fromString t := ofInteger (integerValue t)

theorem digitsKernel_lawful : digitsKernel.Lawful where
  fromLong n _ _ := ofInteger_isInteger n
  fromString _ _ _ _ := ofInteger_isInteger _

theorem oneText_scientific (p : Option Nat) :
    ∃ x, Scientific (oneText p) x ∧ -2 ^ 31 ≤ x.exp ∧ x.exp < 2 ^ 31 := by
  have hexp : Numeral.ExponentText 0 [0x65, 0x2B, 0x30, 0x30] :=
    ⟨0x65, [0x2B], [0x30, 0x30], rfl, .inl rfl, List.cons_ne_nil _ _, by decide, .inl ⟨.inr rfl, rfl⟩⟩
  have hone : ∀ c ∈ ([0x31] : Text), isDigit c = true := by decide
  have hshort : ∃ x, Scientific [0x31, 0x65, 0x2B, 0x30, 0x30] x ∧ -2 ^ 31 ≤ x.exp ∧
      x.exp < 2 ^ 31 :=
    ⟨⟨[0x31], [], 0, List.cons_ne_nil _ _, hone, List.forall_mem_nil _⟩,
      ⟨⟨0x31, rfl, by decide⟩, _, rfl, hexp⟩, by norm_num, by norm_num⟩
  cases p with
  | none => exact hshort
  | some p =>
    cases p with
    | zero => exact hshort
    | succ p =>
      let x : Numeral := ⟨[0x31], List.replicate (p + 1) (digit 0), 0, List.cons_ne_nil _ _, hone,
        fun c hc => by rw [List.eq_of_mem_replicate hc]; rfl⟩
      refine ⟨x, ⟨⟨0x31, rfl, by decide⟩, [0x2B, 0x30, 0x30], ?_, hexp⟩, by norm_num [x],
        by norm_num [x]⟩
      rw [Numeral.fractionText, if_neg (show x.frac ≠ [] from List.cons_ne_nil _ _)]
      rfl

theorem floatText_faithful_one :
    formatDouble oneFloats one = [0x31, 0x2E, 0x30] ∧
    ∃ (t : Text) (y : Numeral), formatDouble oneFloats one = t ∧ y.Spells t ∧
      Answers (prim_bigint digitsKernel oneFloats [.double 0 0x3FF0000000000000])
        (truncated false y.value) := by
  refine ⟨by decide, ?_⟩
  obtain ⟨t, y, htext, hy, -, -, -, -, -, hbigint⟩ :=
    @floatText_faithful digitsKernel digitsKernel_lawful oneFloats 0x3FF0000000000000 ⟨rfl, rfl⟩
      (fun _ => oneText_scientific) (fun _ => false) 0
  exact ⟨t, y, htext, hy, hbigint⟩

end ProtoClojure.Maps
