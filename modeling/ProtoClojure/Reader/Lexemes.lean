import ProtoClojure.Reader.Lexer
import Mathlib.Tactic.SplitIfs

/-! Tokens in a longer text: what stands after a token does not change it. -/
namespace ProtoClojure.Reader
open Decimal

/-! ### More text after a token -/

/-- What follows `s` does not go on a character of more bytes that `s` may end in. -/
def Shut (s y : Bytes) : Prop := (∃ b ∈ s, b < 0x80) ∨ ∀ d ∈ y.head?, d < 0x80

theorem not_continuation {b : UInt8} (h : b < 0x80) : ¬ b &&& 0xC0 = 0x80 := by
  intro hb
  have hle : b.toNat &&& 0xC0 = 0x80 := congrArg UInt8.toNat hb
  have hlt : b.toNat < 0x80 := h
  have hand : b.toNat &&& 0xC0 ≤ b.toNat := Nat.and_le_left
  omega

section Decode
variable {s y : Bytes} {n v w : Nat}

theorem continuationBytes_append (h : continuationBytes n v s = some w) :
    continuationBytes n v (s ++ y) = some w := by
  induction n generalizing v s with
  | zero => exact h
  | succ n ih =>
    cases s with
    | nil => cases h
    | cons b s =>
      rw [List.cons_append, continuationBytes]
      rw [continuationBytes] at h
      split at h
      · rw [if_pos ‹_›]
        exact ih h
      · cases h

theorem continuationBytes_none (h : continuationBytes n v s = none) (hs : Shut s y) :
    continuationBytes n v (s ++ y) = none := by
  induction n generalizing v s with
  | zero => cases h
  | succ n ih =>
    cases s with
    | nil =>
      cases y with
      | nil => rfl
      | cons d y =>
        have hd : d < 0x80 := by
          rcases hs with ⟨b, hb, -⟩ | hd
          · cases hb
          · exact hd d rfl
        rw [List.nil_append, continuationBytes, if_neg (not_continuation hd)]
    | cons b s =>
      rw [List.cons_append, continuationBytes]
      rw [continuationBytes] at h
      split at h
      · rename_i hb
        rw [if_pos hb]
        refine ih h ?_
        rcases hs with ⟨c, hc, hlt⟩ | hd
        · rcases List.mem_cons.mp hc with rfl | hc
          · exact absurd hb (not_continuation hlt)
          · exact .inl ⟨c, hc, hlt⟩
        · exact .inr hd
      · rw [if_neg ‹_›]

theorem wide_append {len minimum : Nat} {bits : UInt8} {r : Nat × Nat}
    (h : decodeUtf8.wide len bits minimum s = some r) :
    decodeUtf8.wide len bits minimum (s ++ y) = some r := by
  unfold decodeUtf8.wide at h ⊢
  cases hc : continuationBytes (len - 1) bits.toNat s with
  | none =>
    rw [hc] at h
    cases h
  | some value =>
    rw [hc] at h
    rw [continuationBytes_append hc]
    exact h

theorem wide_none {len minimum : Nat} {bits : UInt8}
    (h : decodeUtf8.wide len bits minimum s = none) (hs : Shut s y) :
    decodeUtf8.wide len bits minimum (s ++ y) = none := by
  unfold decodeUtf8.wide at h ⊢
  cases hc : continuationBytes (len - 1) bits.toNat s with
  | none => rw [continuationBytes_none hc hs]
  | some value =>
    rw [hc] at h
    rw [continuationBytes_append hc]
    exact h

theorem decodeUtf8_append {r : Nat × Nat} (h : decodeUtf8 s = some r) :
    decodeUtf8 (s ++ y) = some r := by
  cases s with
  | nil => cases h
  | cons b s =>
    rw [List.cons_append, decodeUtf8]
    rw [decodeUtf8] at h
    split_ifs at h ⊢
    · exact h
    · exact wide_append h
    · exact wide_append h
    · exact wide_append h

theorem decodeUtf8_none {b : UInt8} (h : decodeUtf8 (b :: s) = none) (hs : Shut s y) :
    decodeUtf8 (b :: s ++ y) = none := by
  rw [List.cons_append, decodeUtf8]
  rw [decodeUtf8] at h
  split_ifs at h ⊢
  · exact wide_none h hs
  · exact wide_none h hs
  · exact wide_none h hs
  · rfl

theorem wide_length {len minimum : Nat} {bits : UInt8} {r : Nat × Nat} (hlen : 1 < len)
    (h : decodeUtf8.wide len bits minimum s = some r) : r.1 = len ∧ len ≤ s.length + 1 := by
  have hle : ∀ {n v w : Nat} {s : Bytes}, continuationBytes n v s = some w → n ≤ s.length := by
    intro n
    induction n with
    | zero => exact fun _ => Nat.zero_le _
    | succ n ih =>
      intro v w s h
      cases s with
      | nil => cases h
      | cons b s =>
        rw [continuationBytes] at h
        split at h
        · exact Nat.succ_le_succ (ih h)
        · cases h
  unfold decodeUtf8.wide at h
  cases hc : continuationBytes (len - 1) bits.toNat s with
  | none =>
    rw [hc] at h
    cases h
  | some value =>
    rw [hc] at h
    dsimp only at h
    split at h
    · cases h
    · cases h
      have := hle hc
      exact ⟨rfl, by omega⟩

theorem decodeUtf8_length {r : Nat × Nat} (h : decodeUtf8 s = some r) :
    0 < r.1 ∧ r.1 ≤ s.length := by
  cases s with
  | nil => cases h
  | cons b s =>
    have hwide : ∀ {len minimum : Nat} {bits : UInt8}, 1 < len →
        decodeUtf8.wide len bits minimum s = some r → 0 < r.1 ∧ r.1 ≤ (b :: s).length := by
      intro len minimum bits hlen h
      obtain ⟨hr, hle⟩ := wide_length hlen h
      rw [List.length_cons]
      omega
    rw [decodeUtf8] at h
    split_ifs at h
    · cases h
      exact ⟨Nat.one_pos, Nat.succ_le_succ (Nat.zero_le _)⟩
    · exact hwide (by decide) h
    · exact hwide (by decide) h
    · exact hwide (by decide) h

end Decode

/-! ### Runs of characters -/

section Chars
variable {letters : Nat → Bool} {s y : Bytes}

theorem symbolCharLength_append {n : Nat} (h : symbolCharLength letters s = n + 1) :
    symbolCharLength letters (s ++ y) = n + 1 := by
  cases s with
  | nil => cases h
  | cons c s =>
    rw [List.cons_append, symbolCharLength]
    rw [symbolCharLength] at h
    split at h
    · rw [if_pos ‹_›]
      exact h
    · rw [if_neg ‹_›]
      cases hd : decodeUtf8 (c :: s) with
      | none =>
        rw [hd] at h
        cases h
      | some r =>
        rw [hd] at h
        rw [← List.cons_append, decodeUtf8_append hd]
        exact h

theorem symbolCharLength_zero {c : UInt8} (h : symbolCharLength letters (c :: s) = 0)
    (hs : c < 0x80 ∨ Shut s y) : symbolCharLength letters (c :: s ++ y) = 0 := by
  rw [List.cons_append, symbolCharLength]
  rw [symbolCharLength] at h
  split at h
  · rw [if_pos ‹_›]
    exact h
  · rename_i hc
    rw [if_neg hc]
    cases hd : decodeUtf8 (c :: s) with
    | none => rw [← List.cons_append, decodeUtf8_none hd (hs.resolve_left hc)]
    | some r =>
      rw [hd] at h
      rw [← List.cons_append, decodeUtf8_append hd]
      exact h

theorem symbolCharLength_le {n : Nat} (h : symbolCharLength letters s = n + 1) :
    n + 1 ≤ s.length := by
  cases s with
  | nil => cases h
  | cons c s =>
    rw [symbolCharLength] at h
    split at h
    · split at h
      · obtain rfl : n = 0 := by omega
        exact Nat.succ_le_succ (Nat.zero_le _)
      · cases h
    · cases hd : decodeUtf8 (c :: s) with
      | none =>
        rw [hd] at h
        cases h
      | some r =>
        rw [hd] at h
        dsimp only at h
        split at h
        · exact h ▸ (decodeUtf8_length hd).2
        · cases h

/-- A length that more text does not change, and that the text has. -/
structure Measures (length : Bytes → Nat) : Prop where
  append {s y : Bytes} {n : Nat} : length s = n + 1 → length (s ++ y) = n + 1
  le {s : Bytes} {n : Nat} : length s = n + 1 → n + 1 ≤ s.length

theorem measures_symbolChar : Measures (symbolCharLength letters) :=
  ⟨symbolCharLength_append, symbolCharLength_le⟩

theorem measures_symbolNext : Measures (symbolNextLength letters) where
  append h := by
    rename_i s y n
    cases s with
    | nil => cases h
    | cons c s =>
      unfold symbolNextLength at h ⊢
      rw [List.cons_append, List.head?_cons]
      rw [List.head?_cons] at h
      split at h
      · rw [if_pos ‹_›]
        exact h
      · rw [if_neg ‹_›]
        exact symbolCharLength_append h
  le h := by
    unfold symbolNextLength at h
    split at h
    · rename_i s n hs
      cases s with
      | nil => cases hs
      | cons c s =>
        obtain rfl : n = 0 := by omega
        exact Nat.succ_le_succ (Nat.zero_le _)
    · exact symbolCharLength_le h

variable {length : Bytes → Nat}

theorem takeChars_eq (skip : Nat) (s : Bytes) :
    s = (takeChars length skip s).1 ++ (takeChars length skip s).2 := by
  induction s generalizing skip with
  | nil => cases skip <;> rfl
  | cons c s ih =>
    cases skip with
    | zero =>
      rw [takeChars]
      cases length (c :: s) with
      | zero => rfl
      | succ n => exact congrArg (c :: ·) (ih n)
    | succ skip => exact congrArg (c :: ·) (ih skip)

/-- The characters end where the length is 0. -/
theorem takeChars_end (h : Measures length) {skip : Nat} (hskip : skip ≤ s.length) :
    length (takeChars length skip s).2 = 0 ∨ (takeChars length skip s).2 = [] := by
  induction s generalizing skip with
  | nil =>
    obtain rfl : skip = 0 := by simpa using hskip
    exact .inr rfl
  | cons c s ih =>
    cases skip with
    | zero =>
      rw [takeChars]
      cases hn : length (c :: s) with
      | zero => exact .inl hn
      | succ n => exact ih (Nat.le_of_succ_le_succ (h.le hn))
    | succ skip => exact ih (Nat.le_of_succ_le_succ hskip)

theorem takeChars_append (h : Measures length) {skip : Nat} (hskip : skip ≤ s.length)
    (hend : length ((takeChars length skip s).2 ++ y) = 0) :
    takeChars length skip (s ++ y) =
      ((takeChars length skip s).1, (takeChars length skip s).2 ++ y) := by
  induction s generalizing skip with
  | nil =>
    obtain rfl : skip = 0 := by simpa using hskip
    have hend : length y = 0 := hend
    cases y with
    | nil => rfl
    | cons d y =>
      show takeChars length 0 (d :: y) = ([], d :: y)
      rw [takeChars, hend]
  | cons c s ih =>
    cases skip with
    | zero =>
      rw [takeChars] at hend ⊢
      rw [List.cons_append, takeChars]
      cases hn : length (c :: s) with
      | zero =>
        rw [hn] at hend
        have hend : length (c :: s ++ y) = 0 := hend
        rw [← List.cons_append, hend]
      | succ n =>
        rw [hn] at hend
        rw [← List.cons_append, h.append hn]
        have hrest := ih (Nat.le_of_succ_le_succ (h.le hn)) hend
        dsimp only
        rw [hrest]
        rfl
    | succ skip =>
      have hrest := ih (Nat.le_of_succ_le_succ hskip) hend
      rw [List.cons_append, takeChars, hrest]
      rfl

end Chars

/-! ### Numbers -/

section Numbers
variable {letters : Nat → Bool} {s y r : Bytes}

/-- No number goes on with it. -/
def NumberEnd (y : Bytes) : Prop := ∀ d ∈ y.head?, isAlnum d = false ∧ d ≠ 0x2E

theorem alnum_low {d : UInt8} (h : isAlnum d = true) : d < 0x80 := by
  have hle : ∀ {a b : UInt8}, a ≤ b → a.toNat ≤ b.toNat := id
  have hbound : d.toNat ≤ 0x7A := by
    simp only [isAlnum, isDigit, isLetter, Bool.or_eq_true, Bool.and_eq_true,
      decide_eq_true_eq] at h
    rcases h with ⟨-, h⟩ | ⟨-, h⟩ | ⟨-, h⟩
    · exact Nat.le_trans (hle h) (by decide)
    · exact Nat.le_trans (hle h) (by decide)
    · exact hle h
  exact Nat.lt_of_le_of_lt hbound (by decide)

theorem numberEnd_of_trail (h : trailLength letters y = 0) : NumberEnd y := by
  intro d hd
  cases y with
  | nil => cases hd
  | cons c y =>
    obtain rfl : c = d := Option.some.inj hd
    rw [trailLength] at h
    split at h
    · rename_i hc
      constructor
      · by_contra halnum
        exact absurd (alnum_low (by simpa using halnum)) (Nat.not_lt.mpr hc)
      · rintro rfl
        exact absurd hc (by decide)
    · split at h
      · cases h
      · rename_i hc
        simp only [Bool.or_eq_true, beq_iff_eq, not_or] at hc
        exact ⟨by simpa using hc.1.1, hc.2⟩

theorem measures_digit : Measures digitLength where
  append h := by
    rename_i s y n
    cases s with
    | nil => cases h
    | cons c s => exact h
  le h := by
    rename_i s n
    cases s with
    | nil => cases h
    | cons c s =>
      rw [digitLength] at h
      split at h
      · obtain rfl : n = 0 := by omega
        exact Nat.succ_le_succ (Nat.zero_le _)
      · cases h

theorem NumberEnd.digitLength (h : NumberEnd y) : digitLength y = 0 := by
  cases y with
  | nil => rfl
  | cons d y =>
    have hd := (h d rfl).1
    rw [isAlnum, Bool.or_eq_false_iff] at hd
    rw [Reader.digitLength, hd.1]
    rfl

theorem takeDigits_append (hy : (takeDigits s).2 = [] → NumberEnd y) :
    takeDigits (s ++ y) = ((takeDigits s).1, (takeDigits s).2 ++ y) := by
  apply takeChars_append measures_digit (Nat.zero_le _)
  cases hr : (takeChars digitLength 0 s).2 with
  | nil => exact (hy hr).digitLength
  | cons c r =>
    have hend := takeChars_end (s := s) measures_digit (Nat.zero_le _)
    rw [hr] at hend
    rcases hend with hend | hend
    · exact hend
    · cases hend

theorem digitLength_append (h : s ≠ []) : digitLength (s ++ y) = digitLength s := by
  cases s with
  | nil => exact absurd rfl h
  | cons c s => rfl

theorem takeFraction_append (hdot : s ≠ [0x2E]) (hy : (takeFraction s).2 = [] → NumberEnd y) :
    takeFraction (s ++ y) = ((takeFraction s).1, (takeFraction s).2 ++ y) := by
  cases s with
  | nil =>
    cases y with
    | nil => rfl
    | cons d y =>
      have hd : ¬ (d = 0x2E ∧ digitLength y = 1) := fun h => (hy rfl d rfl).2 h.1
      show takeFraction (d :: y) = ([], d :: y)
      rw [takeFraction, if_neg hd]
  | cons c s =>
    by_cases hc : c = 0x2E
    · subst hc
      have hs : s ≠ [] := fun h => hdot (by rw [h])
      rw [List.cons_append, takeFraction, digitLength_append hs]
      rw [takeFraction] at hy ⊢
      split
      · rename_i hdigit
        rw [if_pos hdigit] at hy
        rw [takeDigits_append hy]
        rfl
      · rfl
    · have hneg : ∀ s, ¬ (c = 0x2E ∧ digitLength s = 1) := fun s h => hc h.1
      rw [List.cons_append, takeFraction, if_neg (hneg _), takeFraction, if_neg (hneg _)]
      rfl

theorem takeSign_append (hs : s ≠ []) :
    takeSign (s ++ y) = ((takeSign s).1, (takeSign s).2 ++ y) := by
  cases s with
  | nil => exact absurd rfl hs
  | cons c s =>
    rw [List.cons_append, takeSign, takeSign]
    split <;> rfl

theorem takeExponent_append {e : Bytes} (h : takeExponent s = .ok (e, r))
    (hy : r = [] → NumberEnd y) : takeExponent (s ++ y) = .ok (e, r ++ y) := by
  cases s with
  | nil =>
    cases h
    cases y with
    | nil => rfl
    | cons d y =>
      have hd : ¬ (d = 0x65 ∨ d = 0x45) := by
        have hd := (hy rfl d rfl).1
        rintro (rfl | rfl) <;> exact absurd hd (by decide)
      show takeExponent (d :: y) = .ok ([], d :: y)
      rw [takeExponent, if_neg hd]
  | cons c s =>
    rw [List.cons_append, takeExponent]
    rw [takeExponent] at h
    split at h
    · rename_i hc
      rw [if_pos hc]
      dsimp only at h ⊢
      split at h
      · rename_i hdigit
        cases h
        have hs : s ≠ [] := by
          rintro rfl
          cases hdigit
        have hsign : (takeSign s).2 ≠ [] := by
          intro hnil
          rw [hnil] at hdigit
          cases hdigit
        rw [takeSign_append hs]
        dsimp only
        rw [digitLength_append hsign, if_pos hdigit, takeDigits_append hy]
        rfl
      · cases h
    · rename_i hc
      rw [if_neg hc]
      cases h
      rfl

theorem takeSuffix_append (isFloat : Bool) (hy : s = [] → NumberEnd y) :
    takeSuffix isFloat (s ++ y) = ((takeSuffix isFloat s).1, (takeSuffix isFloat s).2 ++ y) := by
  cases s with
  | nil =>
    cases y with
    | nil => rfl
    | cons d y =>
      have hd : ¬ (!isFloat ∧ d = 0x4E) := by
        rintro ⟨-, rfl⟩
        exact absurd (hy rfl _ rfl).1 (by decide)
      show takeSuffix isFloat (d :: y) = ([], d :: y)
      rw [takeSuffix, if_neg hd]
  | cons c s =>
    rw [List.cons_append, takeSuffix, takeSuffix]
    split <;> rfl

/-- The parts of a number that is no error, and what follows it. -/
structure NumberParts (letters : Nat → Bool) (s : Bytes) where
  digits : Bytes
  fraction : Bytes
  exponent : Bytes
  suffix : Bytes
  afterDigits : Bytes
  afterFraction : Bytes
  afterExponent : Bytes
  rest : Bytes
  takeDigits_eq : takeDigits s = (digits, afterDigits)
  takeFraction_eq : takeFraction afterDigits = (fraction, afterFraction)
  takeExponent_eq : takeExponent afterFraction = .ok (exponent, afterExponent)
  takeSuffix_eq : takeSuffix (fraction ≠ [] || exponent ≠ []) afterExponent = (suffix, rest)
  trail : trailLength letters rest = 0

namespace NumberParts

def token (negative : Bool) (N : NumberParts letters s) : Token :=
  numberToken (N.fraction ≠ [] || N.exponent ≠ [])
    ((if negative then dash :: N.digits else N.digits) ++ N.fraction ++ N.exponent)

theorem lexNumber_eq (N : NumberParts letters s) (negative : Bool) :
    lexNumber letters negative s = (N.token negative, N.rest) := by
  unfold lexNumber
  rw [N.takeDigits_eq]
  dsimp only
  rw [N.takeFraction_eq]
  dsimp only
  rw [N.takeExponent_eq]
  dsimp only
  rw [N.takeSuffix_eq]
  dsimp only
  rw [if_neg (by rw [N.trail]; decide)]
  rfl

end NumberParts

theorem exists_parts {t : Token} {negative : Bool} (h : lexNumber letters negative s = (t, r))
    (ht : t.isLast = false) : ∃ N : NumberParts letters s, N.token negative = t ∧ N.rest = r := by
  unfold lexNumber at h
  rcases hd : takeDigits s with ⟨digits, afterDigits⟩
  rw [hd] at h
  dsimp only at h
  rcases hf : takeFraction afterDigits with ⟨fraction, afterFraction⟩
  rw [hf] at h
  dsimp only at h
  cases he : takeExponent afterFraction with
  | error text =>
    rw [he] at h
    cases h
    cases ht
  | ok p =>
    obtain ⟨exponent, afterExponent⟩ := p
    rw [he] at h
    dsimp only at h
    rcases hs : takeSuffix (fraction ≠ [] || exponent ≠ []) afterExponent with ⟨suffix, rest⟩
    rw [hs] at h
    dsimp only at h
    split at h
    · cases h
      cases ht
    · rename_i htrail
      cases h
      exact ⟨⟨digits, fraction, exponent, suffix, afterDigits, afterFraction, afterExponent, r,
        hd, hf, he, hs, by omega⟩, rfl, rfl⟩

namespace NumberParts

theorem rest_of_afterExponent (N : NumberParts letters s) (h : N.afterExponent = []) :
    N.rest = [] := by
  have hs := N.takeSuffix_eq
  rw [h] at hs
  exact (congrArg Prod.snd hs).symm

theorem rest_of_afterFraction (N : NumberParts letters s) (h : N.afterFraction = []) :
    N.rest = [] := by
  have he := N.takeExponent_eq
  rw [h] at he
  exact N.rest_of_afterExponent (congrArg Prod.snd (Except.ok.inj he)).symm

theorem rest_of_afterDigits (N : NumberParts letters s) (h : N.afterDigits = []) :
    N.rest = [] := by
  have hf := N.takeFraction_eq
  rw [h] at hf
  exact N.rest_of_afterFraction (congrArg Prod.snd hf).symm

/-- A `.` alone makes the number malformed. -/
theorem afterDigits_ne (N : NumberParts letters s) : N.afterDigits ≠ [0x2E] := by
  intro h
  have hf := N.takeFraction_eq
  rw [h] at hf
  have hfraction : N.afterFraction = [0x2E] := (congrArg Prod.snd hf).symm
  have he := N.takeExponent_eq
  rw [hfraction] at he
  have hexponent : N.afterExponent = [0x2E] := (congrArg Prod.snd (Except.ok.inj he)).symm
  have hs := N.takeSuffix_eq
  rw [hexponent, takeSuffix, if_neg fun hN => absurd hN.2 (by decide)] at hs
  have hrest : N.rest = [0x2E] := (congrArg Prod.snd hs).symm
  have htrail := N.trail
  rw [hrest] at htrail
  cases htrail

/-- The same number in a longer text. -/
def append (N : NumberParts letters s) (hy : trailLength letters (N.rest ++ y) = 0) :
    NumberParts letters (s ++ y) where
  digits := N.digits
  fraction := N.fraction
  exponent := N.exponent
  suffix := N.suffix
  afterDigits := N.afterDigits ++ y
  afterFraction := N.afterFraction ++ y
  afterExponent := N.afterExponent ++ y
  rest := N.rest ++ y
  takeDigits_eq := by
    have hend : N.rest = [] → NumberEnd y := fun h => numberEnd_of_trail (by rwa [h] at hy)
    have heq := N.takeDigits_eq
    rw [takeDigits_append fun h => hend (N.rest_of_afterDigits (by rwa [heq] at h)), heq]
  takeFraction_eq := by
    have hend : N.rest = [] → NumberEnd y := fun h => numberEnd_of_trail (by rwa [h] at hy)
    have heq := N.takeFraction_eq
    rw [takeFraction_append N.afterDigits_ne fun h =>
      hend (N.rest_of_afterFraction (by rwa [heq] at h)), heq]
  takeExponent_eq := by
    have hend : N.rest = [] → NumberEnd y := fun h => numberEnd_of_trail (by rwa [h] at hy)
    exact takeExponent_append N.takeExponent_eq fun h => hend (N.rest_of_afterExponent h)
  takeSuffix_eq := by
    have hend : N.rest = [] → NumberEnd y := fun h => numberEnd_of_trail (by rwa [h] at hy)
    have heq := N.takeSuffix_eq
    rw [takeSuffix_append _ fun h => hend (N.rest_of_afterExponent h), heq]
  trail := hy

end NumberParts

end Numbers

/-! ### Strings and patterns -/

section Strings
variable {s y r text : Bytes} {n : Nat}

theorem hex4_length {cp : Nat} (h : hex4 s = some cp) : 4 ≤ s.length := by
  by_contra hlt
  obtain _ | ⟨a, _ | ⟨b, _ | ⟨c, _ | ⟨d, s⟩⟩⟩⟩ := s
  · cases h
  · cases h
  · cases h
  · cases h
  · exact hlt (Nat.le_add_left 4 s.length)

theorem hex4_append {cp : Nat} (h : hex4 s = some cp) : hex4 (s ++ y) = some cp := by
  obtain _ | ⟨a, _ | ⟨b, _ | ⟨c, _ | ⟨d, s⟩⟩⟩⟩ := s
  · cases h
  · cases h
  · cases h
  · cases h
  · exact h

theorem unicodeEscape_append (h : unicodeEscape s = .ok (text, n)) :
    unicodeEscape (s ++ y) = .ok (text, n) := by
  unfold unicodeEscape at h ⊢
  cases hcp : hex4 s with
  | none =>
    rw [hcp] at h
    cases h
  | some cp =>
    rw [hcp] at h
    rw [hex4_append hcp]
    dsimp only at h ⊢
    split at h
    · rename_i hhigh
      rw [if_pos hhigh]
      split at h
      · rename_i lo hlo
        split at hlo
        · rename_i hpair
          have hfour := hex4_length hcp
          have hdrop : (s ++ y).drop 4 = s.drop 4 ++ y := List.drop_append_of_le_length hfour
          have hlength := congrArg List.length hpair
          rw [List.length_take, List.length_drop, List.length_cons, List.length_singleton] at hlength
          have hsix : (s ++ y).drop 6 = s.drop 6 ++ y :=
            List.drop_append_of_le_length (by omega)
          have htwo : ((s ++ y).drop 4).take 2 = [backslash, 0x75] := by
            rw [hdrop, List.take_append_of_le_length (by rw [List.length_drop]; omega), hpair]
          rw [if_pos htwo, hsix, hex4_append hlo]
          exact h
        · cases hlo
      · cases h
    · rename_i hhigh
      rw [if_neg hhigh]
      exact h

theorem octalEscape_append (h : octalEscape s = .ok (text, n)) (hn : n < s.length) :
    octalEscape (s ++ y) = .ok (text, n) := by
  have hdigits : ((s ++ y).take 3).takeWhile isOctal = (s.take 3).takeWhile isOctal := by
    rw [List.take_append, List.takeWhile_append]
    split
    · rename_i hall
      unfold octalEscape at h
      dsimp only at h
      split at h
      · cases h
      · cases h
        rw [hall, List.length_take] at hn
        have hthree : 3 - s.length = 0 := by omega
        rw [hthree, List.take_zero, List.takeWhile_nil, List.append_nil]
        have hpre : (s.take 3).takeWhile isOctal = s.take 3 :=
          (List.takeWhile_prefix _).eq_of_length hall
        exact hpre.symm
    · rfl
  unfold octalEscape at h ⊢
  rw [hdigits]
  exact h

theorem escape_append (h : escape s = .ok (text, n)) (hn : n < s.length) :
    escape (s ++ y) = .ok (text, n) := by
  cases s with
  | nil => cases h
  | cons c s =>
    rw [List.cons_append]
    unfold escape at h ⊢
    dsimp only at h ⊢
    split_ifs at h ⊢
    · exact h
    · exact h
    · exact h
    · exact h
    · exact h
    · exact h
    · exact h
    · cases hu : unicodeEscape s with
      | error e =>
        rw [hu] at h
        cases h
      | ok p =>
        rw [hu] at h
        rw [unicodeEscape_append hu]
        exact h
    · exact octalEscape_append h hn

theorem stringBody_lt (h : stringBody n s = .ok (text, r)) : n < s.length := by
  induction s generalizing n text r with
  | nil => cases n <;> cases h
  | cons c s ih =>
    cases n with
    | zero => exact Nat.zero_lt_succ _
    | succ n => exact Nat.succ_lt_succ (ih h)

/-- A string ends at its closing quote, whatever follows. -/
theorem stringBody_append (h : stringBody n s = .ok (text, r)) :
    stringBody n (s ++ y) = .ok (text, r ++ y) := by
  induction s generalizing n text r with
  | nil => cases n <;> cases h
  | cons c s ih =>
    cases n with
    | succ n => exact ih h
    | zero =>
      rw [List.cons_append, stringBody]
      rw [stringBody] at h
      split at h
      · rename_i hc
        rw [if_pos hc]
        cases h
        rfl
      · rename_i hc
        rw [if_neg hc]
        split at h
        · rename_i hslash
          rw [if_pos hslash]
          cases he : escape s with
          | error e =>
            rw [he] at h
            cases h
          | ok p =>
            rw [he] at h
            dsimp only at h
            cases hb : stringBody p.2 s with
            | error e =>
              rw [hb] at h
              cases h
            | ok q =>
              rw [hb] at h
              cases h
              rw [escape_append he (stringBody_lt hb)]
              dsimp only
              rw [ih hb]
              rfl
        · rename_i hslash
          rw [if_neg hslash]
          cases hb : stringBody 0 s with
          | error e =>
            rw [hb] at h
            cases h
          | ok q =>
            rw [hb] at h
            cases h
            rw [ih hb]
            rfl

theorem regexBody_append {escaped : Bool} (h : regexBody escaped s = .ok (text, r)) :
    regexBody escaped (s ++ y) = .ok (text, r ++ y) := by
  induction s generalizing escaped text r with
  | nil => cases escaped <;> cases h
  | cons c s ih =>
    have hgo : ∀ {escaped : Bool}, (regexBody escaped s).map (fun p => (c :: p.1, p.2)) =
        .ok (text, r) → (regexBody escaped (s ++ y)).map (fun p => (c :: p.1, p.2)) =
        .ok (text, r ++ y) := by
      intro escaped h
      cases hb : regexBody escaped s with
      | error e =>
        rw [hb] at h
        cases h
      | ok q =>
        rw [hb] at h
        cases h
        rw [ih hb]
        rfl
    cases escaped with
    | true => exact hgo h
    | false =>
      rw [List.cons_append, regexBody]
      rw [regexBody] at h
      split at h
      · rename_i hc
        rw [if_pos hc]
        cases h
        rfl
      · rename_i hc
        rw [if_neg hc]
        exact hgo h

end Strings

end ProtoClojure.Reader
