import ProtoClojure.Reader.Lexer

/-! Decimals read as float tokens. -/
namespace ProtoClojure.Reader
open Decimal

section Digits
variable {ds s rest : Bytes} {c : UInt8}

theorem takeDigits_run (hds : ∀ c ∈ ds, isDigit c = true) (hs : digitLength s = 0) :
    takeDigits (ds ++ s) = (ds, s) := by
  unfold takeDigits
  induction ds with
  | nil =>
    cases s with
    | nil => rfl
    | cons c s =>
      rw [List.nil_append, takeChars, hs]
  | cons c ds ih =>
    obtain ⟨hc, hds⟩ := List.forall_mem_cons.mp hds
    have hlen : digitLength (c :: (ds ++ s)) = 1 := if_pos hc
    rw [List.cons_append, takeChars, hlen]
    dsimp only
    rw [ih hds]
    rfl

theorem digitLength_digits (hds : ∀ c ∈ ds, isDigit c = true) (hne : ds ≠ []) :
    digitLength (ds ++ s) = 1 := by
  obtain ⟨c, ds, rfl⟩ := List.exists_cons_of_ne_nil hne
  exact if_pos (hds c List.mem_cons_self)

theorem takeFraction_run (hds : ∀ c ∈ ds, isDigit c = true) (hne : ds ≠ [])
    (hs : digitLength s = 0) : takeFraction (0x2E :: (ds ++ s)) = (0x2E :: ds, s) := by
  rw [takeFraction, if_pos ⟨rfl, digitLength_digits hds hne⟩, takeDigits_run hds hs]
  rfl

theorem takeSign_run {sign : Bytes} (hsign : sign = [] ∨ sign = [0x2B] ∨ sign = [0x2D])
    (hds : ∀ c ∈ ds, isDigit c = true) (hne : ds ≠ []) :
    takeSign (sign ++ (ds ++ s)) = (sign, ds ++ s) := by
  rcases hsign with rfl | rfl | rfl
  · obtain ⟨c, ds, rfl⟩ := List.exists_cons_of_ne_nil hne
    have hc := hds c List.mem_cons_self
    refine if_neg ?_
    rintro (rfl | rfl) <;> cases hc
  · rfl
  · rfl

theorem takeExponent_run {exp : Int} {e : Bytes} (he : Numeral.ExponentText exp e)
    (hs : digitLength s = 0) : takeExponent (e ++ s) = .ok (e, s) := by
  obtain ⟨letter, sign, digits, rfl, hletter, hne, hdigits, hsign⟩ := he
  have hsign' : sign = [] ∨ sign = [0x2B] ∨ sign = [0x2D] := by
    rcases hsign with ⟨h, -⟩ | ⟨h, -⟩
    · exact h.imp id .inl
    · exact .inr (.inr h)
  rw [List.cons_append, List.append_assoc, takeExponent, if_pos hletter,
    takeSign_run hsign' hdigits hne]
  dsimp only
  rw [if_pos (digitLength_digits hdigits hne), takeDigits_run hdigits hs]
  rfl

end Digits

section Numbers
variable (letters : Nat → Bool) {t rest : Bytes} {x : Numeral}

/-- What may stand after a number is no digit and no exponent. -/
theorem trailLength_zero (hrest : trailLength letters rest = 0) :
    digitLength rest = 0 ∧ takeExponent rest = .ok ([], rest) := by
  cases rest with
  | nil => exact ⟨rfl, rfl⟩
  | cons c s =>
    constructor
    · refine if_neg fun hc => ?_
      have hlow : ¬ 0x80 ≤ c := by
        rw [UInt8.le_iff_toNat_le]
        have := (isDigit_iff.mp hc).2
        exact Nat.not_le.mpr (Nat.lt_of_le_of_lt this (by decide))
      rw [trailLength, if_neg hlow] at hrest
      simp [isAlnum, hc] at hrest
    · refine if_neg ?_
      rintro (rfl | rfl) <;> cases hrest

/-- A decimal with a fraction is one float token, its text unchanged. -/
theorem lexNumber_decimal (negative : Bool) (ht : x.Spells t) (hfrac : x.frac ≠ [])
    (hrest : trailLength letters rest = 0) :
    lexNumber letters negative (t ++ rest) =
      (.float (.decimal (if negative then dash :: t else t)), rest) := by
  obtain ⟨e, rfl, he⟩ := ht
  obtain ⟨hdigit, hexponent⟩ := trailLength_zero letters hrest
  have hexp : digitLength (e ++ rest) = 0 ∧ takeExponent (e ++ rest) = .ok (e, rest) := by
    rcases he with ⟨rfl, -⟩ | he
    · exact ⟨hdigit, hexponent⟩
    · refine ⟨?_, takeExponent_run he hdigit⟩
      obtain ⟨letter, sign, digits, rfl, rfl | rfl, -⟩ := he <;> rfl
  have hint : takeDigits (x.int ++ 0x2E :: (x.frac ++ (e ++ rest))) =
      (x.int, 0x2E :: (x.frac ++ (e ++ rest))) := takeDigits_run x.int_digits rfl
  have hsuffix : takeSuffix true rest = ([], rest) := by
    cases rest with
    | nil => rfl
    | cons c s =>
      rw [takeSuffix, if_neg]
      rintro ⟨h, -⟩
      cases h
  rw [Numeral.fractionText, if_neg hfrac]
  simp only [List.append_assoc, List.cons_append]
  unfold lexNumber
  rw [hint]
  dsimp only
  rw [takeFraction_run x.frac_digits hfrac hexp.1]
  dsimp only
  rw [hexp.2]
  simp only [List.cons_ne_nil, ne_eq, not_false_eq_true, decide_true, Bool.true_or, hsuffix, hrest,
    gt_iff_lt, Nat.lt_irrefl, if_false, numberToken, if_true]
  cases negative with
  | false => simp
  | true => simp

/-- The bytes a number starts with. -/
theorem startsNumber : ∀ k < 10, isBlank (digit k) = false ∧ punctuation (digit k) = none ∧
    digit k ≠ doubleQuote ∧ digit k ≠ 0x3B ∧ digit k ≠ hash ∧ isDigit (digit k) = true := by
  decide

theorem exists_digit {c : UInt8} (hc : isDigit c = true) : ∃ k < 10, c = digit k := by
  have h := isDigit_iff.mp hc
  refine ⟨c.toNat - 0x30, by omega, ?_⟩
  rw [digit, show 0x30 + (c.toNat - 0x30) = c.toNat by omega, UInt8.ofNat_toNat]

theorem next_decimal (prev : Token) (hprev : prev.endsOperand = false) (negative : Bool)
    (ht : x.Spells t) (hfrac : x.frac ≠ []) (hrest : trailLength letters rest = 0) :
    next letters prev ((if negative then dash :: t else t) ++ rest) =
      (.float (.decimal (if negative then dash :: t else t)), rest) := by
  have hlex := lexNumber_decimal letters negative ht hfrac hrest
  obtain ⟨c, int, hint⟩ := List.exists_cons_of_ne_nil x.int_ne
  obtain ⟨k, hk, hc⟩ := exists_digit (x.int_digits c (hint ▸ List.mem_cons_self))
  obtain ⟨hblank, hpunct, hquote, hsemi, hhash, hdigit⟩ := startsNumber k hk
  rw [← hc] at hblank hpunct hquote hsemi hhash hdigit
  obtain ⟨e, rfl, -⟩ := ht
  rw [hint] at hlex ⊢
  unfold next skipWhitespaceAndComments
  cases negative with
  | false =>
    simp only [Bool.false_eq_true, if_false, List.cons_append] at hlex ⊢
    rw [skipBlank, if_neg (by simp [hblank]), if_neg (by simp [hsemi, hhash])]
    unfold lexToken
    dsimp only
    rw [hpunct]
    dsimp only
    rw [if_neg hquote, if_pos hdigit]
    exact hlex
  | true =>
    simp only [if_true, List.cons_append] at hlex ⊢
    rw [skipBlank, if_neg (by decide), if_neg fun h => h.elim (by decide) fun h => by cases h.1]
    have hstart (s : Bytes) : startsNegative (dash :: c :: s) = true := hdigit
    unfold lexToken
    dsimp only
    rw [show punctuation dash = none from rfl]
    dsimp only
    rw [if_neg (by decide), if_neg (by decide), if_pos (by rw [hstart, hprev]; rfl)]
    exact hlex

/-- The text of a decimal, signed or not, is one float token. -/
theorem tokens_decimal (negative : Bool) (ht : x.Spells t) (hfrac : x.frac ≠ []) :
    tokens letters (if negative then dash :: t else t) =
      [.float (.decimal (if negative then dash :: t else t)), .endOfFile] := by
  have hnext := next_decimal letters .endOfFile rfl negative ht hfrac
    (show trailLength letters [] = 0 from rfl)
  rw [List.append_nil] at hnext
  have hpos : 0 < (if negative then dash :: t else t).length := by
    obtain ⟨e, rfl, -⟩ := ht
    have := List.length_pos_of_ne_nil x.int_ne
    split
    · simp
    · simp
      omega
  obtain ⟨n, hn⟩ := Nat.exists_eq_add_of_lt hpos
  rw [tokens, tokensLoop, hnext]
  dsimp only
  rw [if_neg (by simp [Token.isLast]), hn, Nat.zero_add, tokensLoop]
  rfl

end Numbers
end ProtoClojure.Reader
