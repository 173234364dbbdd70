import Mathlib.Data.List.DropRight
import Mathlib.Tactic.SplitIfs
import ProtoClojure.Text.Decimal

/-! The text of a double: Java's choice of digits, laid out plainly or with an exponent. -/

namespace ProtoClojure
open Decimal

/-- What the C++ library answers about doubles. The precision of `toCharsScientific` is the
number of digits after the point, none for the shortest that reads back. -/
structure Floats (D : Type) where
  isNaN : D → Bool
  isInf : D → Bool
  positive : D → Bool
  signbit : D → Bool
  fabs : D → D
  isZero : D → Bool
  same : D → D → Bool
  toCharsScientific : D → Option Nat → List UInt8
  strtod : List UInt8 → D

variable {D : Type}

def atoi : List UInt8 → Int
  | 0x2D :: t => -(digitsValue (t.takeWhile isDigit) : Int)
  | 0x2B :: t => digitsValue (t.takeWhile isDigit)
  | t => digitsValue (t.takeWhile isDigit)

/-- The digits and the exponent of `d.ddde±x`. -/
def splitScientific (s : List UInt8) : List UInt8 × Int :=
  ((s.takeWhile (· ≠ 0x65)).filter (· ≠ 0x2E), atoi ((s.dropWhile (· ≠ 0x65)).drop 1))

/-- Trailing zeros are not significant digits. -/
def trimZeros : List UInt8 → List UInt8
  | [] => []
  | c :: digits => c :: digits.rdropWhile (· == 0x30)

def significant (F : Floats D) (m : D) : List UInt8 × Int :=
  let short := splitScientific (F.toCharsScientific m none)
  let chosen :=
    if short.1.length = 1 then
      let two := F.toCharsScientific m (some 1)
      if F.same (F.strtod two) m then splitScientific two else short
    else short
  (trimZeros chosen.1, chosen.2)

/-- Plain for magnitudes in [1e-3, 1e7). -/
def layOut (digits : List UInt8) (exponent : Int) : List UInt8 :=
  if -3 ≤ exponent ∧ exponent ≤ 6 then
    if exponent < 0 then
      0x30 :: 0x2E :: (List.replicate (-exponent - 1).toNat 0x30 ++ digits)
    else if digits.length > (exponent + 1).toNat then
      digits.take (exponent + 1).toNat ++ 0x2E :: digits.drop (exponent + 1).toNat
    else
      digits ++ List.replicate ((exponent + 1).toNat - digits.length) 0x30 ++ [0x2E, 0x30]
  else
    digits.take 1 ++ 0x2E :: ((if digits.length > 1 then digits.drop 1 else [0x30]) ++
      0x45 :: intText exponent)

def formatDouble (F : Floats D) (d : D) : List UInt8 :=
  if F.isNaN d then [0x23, 0x23, 0x4E, 0x61, 0x4E]
  else if F.isInf d then
    if F.positive d then [0x23, 0x23, 0x49, 0x6E, 0x66] else [0x23, 0x23, 0x2D, 0x49, 0x6E, 0x66]
  else
    let out := if F.signbit d then [0x2D] else []
    let m := F.fabs d
    if F.isZero m then out ++ [0x30, 0x2E, 0x30]
    else out ++ layOut (significant F m).1 (significant F m).2

/-! ### What the library promises -/

def Floats.finite (F : Floats D) (d : D) : Prop := F.isNaN d = false ∧ F.isInf d = false

/-- `d.ddde±x` with a first digit that is not 0. -/
structure Scientific (t : List UInt8) (x : Numeral) : Prop where
  first : ∃ c, x.int = [c] ∧ c ≠ 0x30
  text : ∃ e, t = x.int ++ x.fractionText ++ 0x65 :: e ∧ Numeral.ExponentText x.exp (0x65 :: e)

/-- Reading rounds the number spelled, whatever its spelling, and negates after a minus sign;
the shortest digits read back. -/
structure Floats.Lawful (F : Floats D) : Prop where
  strtod_value : ∀ {t t' x x'}, Numeral.Spells t x → Numeral.Spells t' x' → x.value = x'.value →
    F.strtod t = F.strtod t'
  strtod_minus : ∀ {d t x}, F.finite d → Numeral.Spells t x → F.strtod t = F.fabs d →
    F.signbit d = true → F.strtod (0x2D :: t) = d
  fabs : ∀ {d}, F.finite d → F.signbit d = false → F.fabs d = d
  same : ∀ {a m}, F.isZero m = false → F.same a m = true → a = m
  zero : ∀ {d}, F.finite d → F.isZero (F.fabs d) = true → F.strtod [0x30, 0x2E, 0x30] = F.fabs d
  shortest : ∀ {d}, F.finite d → F.isZero (F.fabs d) = false →
    ∃ x, Scientific (F.toCharsScientific (F.fabs d) none) x ∧
      F.strtod (F.toCharsScientific (F.fabs d) none) = F.fabs d
  precise : ∀ {d} (p : Nat), F.finite d → F.isZero (F.fabs d) = false →
    ∃ x, Scientific (F.toCharsScientific (F.fabs d) (some p)) x

/-! ### The digits -/

theorem atoi_exponent {e : Int} {t : List UInt8} (h : Numeral.ExponentText e (0x65 :: t)) :
    atoi t = e := by
  obtain ⟨letter, sign, digits, ht, -, hne, hdig, hs⟩ := h
  obtain ⟨-, rfl⟩ := List.cons.inj ht
  have hall : digits.takeWhile isDigit = digits := List.takeWhile_eq_self_iff.mpr hdig
  rcases hs with ⟨rfl | rfl, rfl⟩ | ⟨rfl, rfl⟩
  · obtain ⟨c, ds, rfl⟩ := List.exists_cons_of_ne_nil hne
    have hc := hdig c List.mem_cons_self
    rw [List.nil_append]
    unfold atoi
    split
    · rename_i heq
      rw [(List.cons.inj heq).1] at hc
      cases hc
    · rename_i heq
      rw [(List.cons.inj heq).1] at hc
      cases hc
    · rw [hall]
  · show (digitsValue (digits.takeWhile isDigit) : Int) = _
    rw [hall]
  · show -(digitsValue (digits.takeWhile isDigit) : Int) = _
    rw [hall]

theorem splitScientific_eq {t : List UInt8} {x : Numeral} (h : Scientific t x) :
    splitScientific t = (x.int ++ x.frac, x.exp) := by
  obtain ⟨e, rfl, he⟩ := h.text
  have hpoint : ∀ {ds : List UInt8}, (∀ c ∈ ds, isDigit c = true) →
      (∀ c ∈ ds, decide (c ≠ 0x65) = true) ∧ ds.filter (· ≠ 0x2E) = ds := by
    intro ds hds
    refine ⟨fun c hc => ?_, List.filter_eq_self.mpr fun c hc => ?_⟩ <;>
    · have hd := hds c hc
      simp only [decide_eq_true_eq]
      rintro rfl
      cases hd
  obtain ⟨hint, hint'⟩ := hpoint x.int_digits
  obtain ⟨hfrac, hfrac'⟩ := hpoint x.frac_digits
  have hmant : ∀ c ∈ x.int ++ x.fractionText, decide (c ≠ 0x65) = true := by
    intro c hc
    unfold Numeral.fractionText at hc
    split at hc
    · rw [List.append_nil] at hc
      exact hint c hc
    · rcases List.mem_append.mp hc with hc | hc
      · exact hint c hc
      · rcases List.mem_cons.mp hc with rfl | hc
        · rfl
        · exact hfrac c hc
  have hfilter : x.fractionText.filter (· ≠ 0x2E) = x.frac := by
    unfold Numeral.fractionText
    split
    · rename_i h
      rw [h]
      rfl
    · rw [List.filter_cons_of_neg (by decide), hfrac']
  unfold splitScientific
  rw [List.takeWhile_append_of_pos hmant, List.dropWhile_append_of_pos hmant,
    List.takeWhile_cons_of_neg (by decide), List.dropWhile_cons_of_neg (by decide), List.append_nil,
    List.filter_append, hint', hfilter, List.drop_one, List.tail_cons, atoi_exponent he]

theorem trimZeros_spec (ds : List UInt8) :
    ∃ k, ds = trimZeros ds ++ List.replicate k (digit 0) := by
  cases ds with
  | nil => exact ⟨0, rfl⟩
  | cons c ds =>
    refine ⟨(ds.rtakeWhile (· == 0x30)).length, ?_⟩
    have hz : ds.rtakeWhile (· == 0x30) =
        List.replicate (ds.rtakeWhile (· == 0x30)).length (digit 0) := by
      apply List.eq_replicate_of_mem
      intro c hc
      have h := @List.mem_rtakeWhile_imp _ (· == 0x30) ds c hc
      exact eq_of_beq h
    rw [← hz]
    show c :: ds = c :: (ds.rdropWhile (· == 0x30) ++ ds.rtakeWhile (· == 0x30))
    rw [List.rdropWhile_append_rtakeWhile]

/-- Digits of a number `d.ddd × 10^e` that is not zero. -/
structure Significant (digits : List UInt8) : Prop where
  ne : digits ≠ []
  all : ∀ c ∈ digits, isDigit c = true
  first : digits.head? ≠ some 0x30

def significance (digits : List UInt8) (e : Int) : ℚ :=
  digitsValue digits * 10 ^ (e + 1 - digits.length)

theorem Scientific.significant {t : List UInt8} {x : Numeral} (h : Scientific t x) :
    Significant (x.int ++ x.frac) ∧ x.value = significance (x.int ++ x.frac) x.exp := by
  obtain ⟨c, hint, hc⟩ := h.first
  refine ⟨⟨by simp [hint], ?_, by simpa [hint] using hc⟩, ?_⟩
  · intro d hd
    rcases List.mem_append.mp hd with hd | hd
    · exact x.int_digits d hd
    · exact x.frac_digits d hd
  · rw [Numeral.value, significance, hint]
    congr 2
    rw [List.length_append, List.length_singleton]
    omega

theorem trimZeros_significant {digits : List UInt8} (h : Significant digits) (e : Int) :
    Significant (trimZeros digits) ∧ significance (trimZeros digits) e = significance digits e := by
  obtain ⟨k, hk⟩ := trimZeros_spec digits
  have hne : trimZeros digits ≠ [] := by
    intro hnil
    obtain ⟨c, ds, rfl⟩ := List.exists_cons_of_ne_nil h.ne
    cases hnil
  refine ⟨⟨hne, ?_, ?_⟩, ?_⟩
  · intro c hc
    apply h.all c
    rw [hk]
    exact List.mem_append_left _ hc
  · have hh := h.first
    rw [hk] at hh
    obtain ⟨c, ds, hcs⟩ := List.exists_cons_of_ne_nil hne
    rw [hcs] at hh ⊢
    exact hh
  · have hv : significance digits e =
        significance (trimZeros digits ++ List.replicate k (digit 0)) e := by rw [← hk]
    rw [hv, significance, significance, digitsValue_append_zeros, List.length_append,
      List.length_replicate]
    push_cast
    rw [← Numeral.shift_zeros (digitsValue (trimZeros digits)) k
      (e + 1 - (trimZeros digits).length)]
    congr 2
    omega

theorem significant_spec {F : Floats D} (hF : F.Lawful) {d : D} (hd : F.finite d)
    (hz : F.isZero (F.fabs d) = false) :
    Significant (significant F (F.fabs d)).1 ∧
      ∃ t x, Numeral.Spells t x ∧ F.strtod t = F.fabs d ∧
        x.value = significance (significant F (F.fabs d)).1 (significant F (F.fabs d)).2 := by
  have hspells : ∀ {t x}, Scientific t x → Numeral.Spells t x := fun h => by
    obtain ⟨e, ht, he⟩ := h.text
    exact ⟨_, ht, .inr he⟩
  have hchosen : ∀ {t : List UInt8} {x : Numeral}, Scientific t x → F.strtod t = F.fabs d →
      Significant (trimZeros (splitScientific t).1) ∧
      ∃ t' x, Numeral.Spells t' x ∧ F.strtod t' = F.fabs d ∧
        x.value = significance (trimZeros (splitScientific t).1) (splitScientific t).2 := by
    intro t x h ht
    obtain ⟨hsig, hval⟩ := h.significant
    obtain ⟨hsig', hval'⟩ := trimZeros_significant hsig x.exp
    rw [splitScientific_eq h]
    exact ⟨hsig', t, x, hspells h, ht, by rw [hval, hval']⟩
  obtain ⟨x, hx, hread⟩ := hF.shortest hd hz
  obtain ⟨y, hy⟩ := hF.precise 1 hd hz
  unfold significant
  dsimp only
  split
  · split
    · rename_i hsame
      exact hchosen hy (hF.same hz hsame)
    · exact hchosen hx hread
  · exact hchosen hx hread

/-- `std::to_chars` writes a positive double as `d.ddde±x`, the exponent an `int`. -/
def Floats.WritesScientific (F : Floats D) (m : D) : Prop :=
  ∀ p, ∃ x, Scientific (F.toCharsScientific m p) x ∧ -2 ^ 31 ≤ x.exp ∧ x.exp < 2 ^ 31

/-- The precision whose text `formatDouble` takes: two digits only where they read back. -/
def Chosen (F : Floats D) (m : D) (p : Option Nat) : Prop :=
  p = none ∨ p = some 1 ∧ F.same (F.strtod (F.toCharsScientific m p)) m = true

/-- The digits and the exponent are those of a text `std::to_chars` writes. -/
theorem significant_value {F : Floats D} {m : D} (h : F.WritesScientific m) :
    Significant (significant F m).1 ∧ ∃ p x, Chosen F m p ∧
      Scientific (F.toCharsScientific m p) x ∧ (-2 ^ 31 ≤ x.exp ∧ x.exp < 2 ^ 31) ∧
      (significant F m).2 = x.exp ∧
      significance (significant F m).1 (significant F m).2 = x.value := by
  have hchosen : ∀ p, Chosen F m p →
      Significant (trimZeros (splitScientific (F.toCharsScientific m p)).1) ∧
      ∃ p' x, Chosen F m p' ∧ Scientific (F.toCharsScientific m p') x ∧
        (-2 ^ 31 ≤ x.exp ∧ x.exp < 2 ^ 31) ∧
        (splitScientific (F.toCharsScientific m p)).2 = x.exp ∧
        significance (trimZeros (splitScientific (F.toCharsScientific m p)).1)
          (splitScientific (F.toCharsScientific m p)).2 = x.value := by
    intro p hp
    obtain ⟨x, hx, hrange⟩ := h p
    obtain ⟨hsig, hval⟩ := hx.significant
    obtain ⟨hsig', hval'⟩ := trimZeros_significant hsig x.exp
    rw [splitScientific_eq hx]
    exact ⟨hsig', p, x, hp, hx, hrange, rfl, hval'.trans hval.symm⟩
  unfold significant
  dsimp only
  split
  · split
    · rename_i hsame
      exact hchosen (some 1) (.inr ⟨rfl, hsame⟩)
    · exact hchosen none (.inl rfl)
  · exact hchosen none (.inl rfl)

/-! ### The layout -/

theorem layOut_spells {digits : List UInt8} (h : Significant digits) (e : Int) :
    ∃ x, Numeral.Spells (layOut digits e) x ∧ x.value = significance digits e ∧ x.frac ≠ [] ∧
      (x.int = [0x30] ∨ x.int.head? ≠ some 0x30) ∧ (x.exp = 0 ∨ x.exp = e) := by
  have hzeros : ∀ k, ∀ c ∈ List.replicate k (digit 0), isDigit c = true := by
    intro k c hc
    rw [List.eq_of_mem_replicate hc]
    rfl
  have happend : ∀ {s t : List UInt8}, (∀ c ∈ s, isDigit c = true) → (∀ c ∈ t, isDigit c = true) →
      ∀ c ∈ s ++ t, isDigit c = true := by
    intro s t hs ht c hc
    rcases List.mem_append.mp hc with hc | hc
    · exact hs c hc
    · exact ht c hc
  have hpos := List.length_pos_of_ne_nil h.ne
  unfold layOut
  split
  · rename_i hplain
    split
    · rename_i hneg
      let x : Numeral := ⟨[0x30], List.replicate (-e - 1).toNat (digit 0) ++ digits, 0,
        List.cons_ne_nil _ _, by simp [isDigit], happend (hzeros _) h.all⟩
      have hfrac : x.frac ≠ [] := fun hnil => h.ne (List.append_eq_nil_iff.mp hnil).2
      refine ⟨x, ⟨[], ?_, .inl ⟨rfl, rfl⟩⟩, ?_, hfrac, .inl rfl, .inl rfl⟩
      · rw [Numeral.fractionText, if_neg hfrac, List.append_nil]
        rfl
      · have hdv : digitsValue (x.int ++ x.frac) = digitsValue digits := by
          show digitsValue (List.replicate 1 (digit 0) ++
            (List.replicate (-e - 1).toNat (digit 0) ++ digits)) = _
          rw [digitsValue_zeros, digitsValue_zeros]
        have hlen : x.frac.length = (-e - 1).toNat + digits.length := by
          simp [x]
        rw [Numeral.value, hdv, hlen, significance]
        congr 2
        show (0 : Int) - _ = _
        omega
    · rename_i hneg
      split
      · rename_i hlen
        let x : Numeral := ⟨digits.take (e + 1).toNat, digits.drop (e + 1).toNat, 0, by
            rw [Ne, List.take_eq_nil_iff]
            rintro (h0 | h0)
            · omega
            · exact h.ne h0,
          fun c hc => h.all c (List.mem_of_mem_take hc),
          fun c hc => h.all c (List.mem_of_mem_drop hc)⟩
        have hfrac : x.frac ≠ [] := by
          show digits.drop _ ≠ []
          rw [Ne, List.drop_eq_nil_iff]
          omega
        refine ⟨x, ⟨[], ?_, .inl ⟨rfl, rfl⟩⟩, ?_, hfrac, .inr ?_, .inl rfl⟩
        · rw [Numeral.fractionText, if_neg hfrac, List.append_nil]
        · have hdv : x.int ++ x.frac = digits := List.take_append_drop _ _
          have hl : x.frac.length = digits.length - (e + 1).toNat := List.length_drop
          rw [Numeral.value, hdv, hl, significance]
          congr 2
          show (0 : Int) - _ = _
          omega
        · show (digits.take (e + 1).toNat).head? ≠ _
          rw [List.head?_take, if_neg (by omega)]
          exact h.first
      · rename_i hlen
        let x : Numeral := ⟨digits ++ List.replicate ((e + 1).toNat - digits.length) (digit 0),
          [digit 0], 0, by simp [h.ne], happend h.all (hzeros _), hzeros 1⟩
        refine ⟨x, ⟨[], ?_, .inl ⟨rfl, rfl⟩⟩, ?_, List.cons_ne_nil _ _, .inr ?_, .inl rfl⟩
        · rw [Numeral.fractionText, if_neg (List.cons_ne_nil _ _), List.append_nil]
          rfl
        · have hdv : digitsValue (x.int ++ x.frac) =
              digitsValue digits * 10 ^ ((e + 1).toNat - digits.length + 1) := by
            show digitsValue (digits ++ List.replicate _ (digit 0) ++ List.replicate 1 (digit 0)) = _
            rw [List.append_assoc, ← List.replicate_add, digitsValue_append_zeros]
          rw [Numeral.value, hdv, significance]
          push_cast
          rw [← Numeral.shift_zeros (digitsValue digits) ((e + 1).toNat - digits.length + 1)
            (e + 1 - digits.length)]
          congr 2
          show (0 : Int) - (1 : Nat) = _
          push_cast
          omega
        · show (digits ++ _).head? ≠ _
          obtain ⟨c, ds, hcs⟩ := List.exists_cons_of_ne_nil h.ne
          have hf := h.first
          rw [hcs] at hf ⊢
          exact hf
  · obtain ⟨c, ds, hcs⟩ := List.exists_cons_of_ne_nil h.ne
    have hc : isDigit c = true := h.all c (by rw [hcs]; exact List.mem_cons_self)
    have hds : ∀ d ∈ ds, isDigit d = true := fun d hd =>
      h.all d (by rw [hcs]; exact List.mem_cons_of_mem c hd)
    have hfirst : c ≠ 0x30 := by
      have hf := h.first
      rw [hcs] at hf
      simpa using hf
    have hone : ∀ d ∈ [c], isDigit d = true := fun d hd => by rw [List.mem_singleton.mp hd, hc]
    by_cases hnil : ds = []
    · let x : Numeral := ⟨[c], [digit 0], e, List.cons_ne_nil _ _, hone, hzeros 1⟩
      refine ⟨x, ⟨_, ?_, .inr (Numeral.exponentText_intText e)⟩, ?_, List.cons_ne_nil _ _, .inr ?_,
        .inr rfl⟩
      · rw [Numeral.fractionText, if_neg (List.cons_ne_nil _ _), hcs, hnil]
        rfl
      · have hdv : digitsValue (x.int ++ x.frac) = digitsValue digits * 10 ^ 1 := by
          show digitsValue ([c] ++ List.replicate 1 (digit 0)) = _
          rw [digitsValue_append_zeros, hcs, hnil]
        rw [Numeral.value, hdv, significance, hcs, hnil]
        push_cast
        rw [← Numeral.shift_zeros (digitsValue [c]) 1 (e + 1 - [c].length)]
        congr 2
        show e - (1 : Nat) = e + 1 - (1 : Nat) - (1 : Nat)
        omega
      · simpa [x] using hfirst
    · let x : Numeral := ⟨[c], ds, e, List.cons_ne_nil _ _, hone, hds⟩
      have hlen : digits.length > 1 := by
        rw [hcs, List.length_cons]
        exact Nat.succ_lt_succ (List.length_pos_of_ne_nil hnil)
      refine ⟨x, ⟨_, ?_, .inr (Numeral.exponentText_intText e)⟩, ?_, hnil, .inr ?_, .inr rfl⟩
      · rw [Numeral.fractionText, if_neg hnil, if_pos hlen, hcs]
        simp [x]
      · rw [Numeral.value, significance, hcs]
        congr 2
        simp [x]
      · simpa [x] using hfirst

theorem intText_chars (n : Int) : ∀ c ∈ intText n, c = 0x2D ∨ isDigit c = true := by
  unfold intText
  split
  · exact List.forall_mem_cons.mpr ⟨.inl rfl, fun c hc => .inr (natText_digits _ c hc)⟩
  · exact fun c hc => .inr (natText_digits _ c hc)

/-- An exponent is written with `E`. -/
theorem layOut_letter {digits : List UInt8} (h : ∀ c ∈ digits, isDigit c = true) (e : Int) :
    0x65 ∉ layOut digits e := by
  have hdigits : ∀ {ds : List UInt8}, (∀ c ∈ ds, c ∈ digits) → 0x65 ∉ ds := fun hsub hmem =>
    absurd (h _ (hsub _ hmem)) (by decide)
  have hexp : 0x65 ∉ intText e := fun hmem => by
    rcases intText_chars e _ hmem with heq | hc
    · cases heq
    · cases hc
  have htake (n : Nat) : 0x65 ∉ digits.take n := hdigits fun c => List.mem_of_mem_take
  have hdrop (n : Nat) : 0x65 ∉ digits.drop n := hdigits fun c => List.mem_of_mem_drop
  have hall : 0x65 ∉ digits := hdigits fun c => id
  have htail : 0x65 ∉ digits.tail := hdigits fun c => List.mem_of_mem_tail
  unfold layOut
  split_ifs <;> simp [htake, htail, hdrop, hexp, hall, List.mem_replicate]

/-- A finite double is written as a sign and a decimal that reads as its magnitude. -/
theorem formatDouble_finite {F : Floats D} (hF : F.Lawful) {d : D} (hd : F.finite d) :
    ∃ t x, formatDouble F d = (if F.signbit d then [0x2D] else []) ++ t ∧ Numeral.Spells t x ∧
      F.strtod t = F.fabs d ∧ x.frac ≠ [] ∧ (x.int = [0x30] ∨ x.int.head? ≠ some 0x30) := by
  unfold formatDouble
  rw [hd.1, hd.2]
  dsimp only [Bool.false_eq_true, if_false]
  by_cases hz : F.isZero (F.fabs d) = true
  · rw [if_neg Bool.false_ne_true, if_neg Bool.false_ne_true, if_pos hz]
    let x : Numeral := ⟨[0x30], [0x30], 0, List.cons_ne_nil _ _, by simp [isDigit],
      by simp [isDigit]⟩
    exact ⟨_, x, rfl, ⟨[], rfl, .inl ⟨rfl, rfl⟩⟩, hF.zero hd hz, List.cons_ne_nil _ _, .inl rfl⟩
  · rw [if_neg Bool.false_ne_true, if_neg Bool.false_ne_true, if_neg hz]
    obtain ⟨hsig, t, x, ht, hread, hval⟩ := significant_spec hF hd (by simpa using hz)
    obtain ⟨y, hy, hyval, hfrac, hint, -⟩ := layOut_spells hsig (significant F (F.fabs d)).2
    refine ⟨_, y, rfl, hy, ?_, hfrac, hint⟩
    exact (hF.strtod_value hy ht (by rw [hyval, hval])).trans hread

end ProtoClojure
