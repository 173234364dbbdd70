import ProtoClojure.Json.Strings
import ProtoClojure.Json.Grammar

/-! What the parser's operations say of a string they succeed on. -/

namespace ProtoClojure.Json
open Decimal

variable {V E W α β : Type}

/-- Where `f` succeeds on a string with `u` unread, its answer and what it leaves satisfy `P`. -/
def Answers (f : Parse E W α) (u : Bytes) (P : α → Bytes → Prop) : Prop :=
  ∀ r : Reading W, r.reader = none → r.unread = u → ∀ a r', f r = .ok a r' →
    r'.reader = none ∧ P a r'.unread

section Rules
variable {f : Parse E W α} {k : α → Parse E W β} {u : Bytes} {P : α → Bytes → Prop}
  {Q : β → Bytes → Prop}

theorem Answers.pure {a : α} (h : P a u) : Answers (Pure.pure a : Parse E W α) u P := by
  intro r hr hu a' r' hok
  obtain ⟨rfl, rfl⟩ : a = a' ∧ r = r' := by
    injection hok with ha hr'
    exact ⟨ha, hr'⟩
  exact ⟨hr, hu ▸ h⟩

theorem Answers.bind (hf : Answers f u P) (hk : ∀ a v, P a v → Answers (k a) v Q) :
    Answers (f >>= k) u Q := by
  intro r hr hu b r' hok
  rw [bind_apply] at hok
  cases hfr : f r with
  | ok a r₁ =>
    rw [hfr] at hok
    obtain ⟨hr₁, hP⟩ := hf r hr hu a r₁ hfr
    exact hk a r₁.unread hP r₁ hr₁ rfl b r' hok
  | error e r₁ =>
    rw [hfr] at hok
    cases hok

theorem Answers.mono (hf : Answers f u P) {P' : α → Bytes → Prop} (h : ∀ a v, P a v → P' a v) :
    Answers f u P' := by
  intro r hr hu a r' hok
  obtain ⟨hr', hP⟩ := hf r hr hu a r' hok
  exact ⟨hr', h a _ hP⟩

theorem Answers.peek {k : Option UInt8 → Parse E W β} (hk : Answers (k u.head?) u Q) :
    Answers (Json.peek >>= k) u Q := by
  intro r hr hu b r' hok
  have hp : (Json.peek : Parse E W _) r = .ok u.head? r := by
    show EStateM.Result.ok r.toSource.peek.1 { r with toSource := r.toSource.peek.2 } = _
    rw [Source.peek_string hr, hu]
  rw [bind_apply, hp] at hok
  exact hk r hr hu b r' hok

theorem Answers.advance {k : Unit → Parse E W β} {c : UInt8} (hk : Answers (k ()) u Q) :
    Answers (Json.advance >>= k) (c :: u) Q := by
  intro r hr hu b r' hok
  have hd : r.data = c :: u := (Source.unread_eq_data hr).symm.trans hu
  exact hk (advanced r) hr (Source.unread_advance hd hu) b r' hok

theorem Answers.newline {k : Unit → Parse E W β} (hk : Answers (k ()) u Q) :
    Answers (Json.newline >>= k) u Q :=
  fun r hr hu b r' hok => hk { r with toSource := r.toSource.newline } hr hu b r' hok

theorem Answers.fuel {k : Nat → Parse E W β} (hk : ∀ n, u.length < n → Answers (k n) u Q) :
    Answers (Json.fuel >>= k) u Q := by
  intro r hr hu b r' hok
  refine hk (r.unread.length + 1) ?_ r hr hu b r' hok
  rw [hu]
  exact Nat.lt_succ_self _

/-- `f` answers nothing. -/
def Refuses (f : Parse E W α) : Prop := ∀ r a r', f r ≠ .ok a r'

theorem refuses_fail (what : String) : Refuses (fail what : Parse E W α) := by
  intro r a r' hok
  cases hok

theorem Refuses.bind (hk : ∀ a, Refuses (k a)) : Refuses (f >>= k) := by
  intro r b r' hok
  rw [bind_apply] at hok
  cases hfr : f r with
  | ok a r₁ =>
    rw [hfr] at hok
    exact hk a r₁ b r' hok
  | error e r₁ =>
    rw [hfr] at hok
    cases hok

theorem Refuses.answers (h : Refuses f) : Answers f u P :=
  fun r _ _ a r' hok => absurd hok (h r a r')

theorem Answers.fail (what : String) : Answers (Json.fail what : Parse E W α) u P :=
  (refuses_fail what).answers

/-- The unread text starts with the byte seen. -/
theorem eq_cons_of_head {c : UInt8} (h : u.head? = some c) : ∃ t, u = c :: t :=
  List.head?_eq_some_iff.mp h

end Rules

/-! ### Runs -/

section Runs
variable {u : Bytes}

theorem answers_skipWhitespaceLoop (n : Nat) (hn : u.length < n) :
    Answers (skipWhitespaceLoop n : Parse E W Unit) u fun _ rest =>
      ∃ ws, u = ws ++ rest ∧ ∀ c ∈ ws, isSpace c = true := by
  induction n generalizing u with
  | zero => exact absurd hn (Nat.not_lt_zero _)
  | succ n ih =>
    -- A blank is taken, and the rest of them by the induction hypothesis.
    have hcons : ∀ (c : UInt8) (t : Bytes), u = c :: t → isSpace c = true →
        Answers (skipWhitespaceLoop n : Parse E W Unit) t fun _ rest =>
          ∃ ws, u = ws ++ rest ∧ ∀ c ∈ ws, isSpace c = true := by
      rintro c t rfl hc
      refine (ih (Nat.lt_of_succ_lt_succ hn)).mono ?_
      rintro - rest ⟨ws, rfl, hws⟩
      exact ⟨c :: ws, rfl, List.forall_mem_cons.mpr ⟨hc, hws⟩⟩
    unfold skipWhitespaceLoop
    apply Answers.peek
    split
    · rename_i hc
      have hhead : ∃ c, u.head? = some c ∧ isSpace c = true := by
        rcases hc with hc | hc | hc <;> exact ⟨_, hc, rfl⟩
      obtain ⟨c, hhead, hspace⟩ := hhead
      obtain ⟨t, rfl⟩ := eq_cons_of_head hhead
      exact .advance (hcons c t rfl hspace)
    · split
      · rename_i hc
        obtain ⟨t, rfl⟩ := eq_cons_of_head hc
        exact .advance (.newline (hcons _ t rfl rfl))
      · exact .pure ⟨[], rfl, List.forall_mem_nil _⟩

theorem answers_skipWhitespace :
    Answers (skipWhitespace : Parse E W Unit) u fun _ rest =>
      ∃ ws, u = ws ++ rest ∧ ∀ c ∈ ws, isSpace c = true :=
  .fuel fun n hn => answers_skipWhitespaceLoop n hn

theorem answers_copyWhileLoop (p : UInt8 → Bool) (n : Nat) (hn : u.length < n) (out : Bytes) :
    Answers (copyWhileLoop p n out : Parse E W Bytes) u fun a rest =>
      ∃ t, a = out ++ t ∧ u = t ++ rest ∧ (∀ c ∈ t, p c = true) ∧ Stops p rest := by
  induction n generalizing u out with
  | zero => exact absurd hn (Nat.not_lt_zero _)
  | succ n ih =>
    unfold copyWhileLoop
    apply Answers.peek
    cases u with
    | nil => exact .pure ⟨[], (List.append_nil out).symm, rfl, List.forall_mem_nil _, .nil⟩
    | cons c u =>
      rw [List.head?_cons]
      dsimp only
      split
      · rename_i hc
        refine .advance ((ih (Nat.lt_of_succ_lt_succ hn) (out ++ [c])).mono ?_)
        rintro a rest ⟨t, rfl, rfl, ht, hstop⟩
        exact ⟨c :: t, by simp, rfl, List.forall_mem_cons.mpr ⟨hc, ht⟩, hstop⟩
      · rename_i hc
        exact .pure ⟨[], (List.append_nil out).symm, rfl, List.forall_mem_nil _,
          .cons (by simpa using hc) u⟩

theorem answers_copyWhile (p : UInt8 → Bool) :
    Answers (copyWhile p : Parse E W Bytes) u fun t rest =>
      u = t ++ rest ∧ (∀ c ∈ t, p c = true) ∧ Stops p rest := by
  refine .fuel fun n hn => (answers_copyWhileLoop p n hn []).mono ?_
  rintro a rest ⟨t, rfl, hu, ht, hstop⟩
  exact ⟨hu, ht, hstop⟩

/-- A run is not empty where its first byte was seen. -/
theorem answers_copyWhile_some {p : UInt8 → Bool} (h : u.head?.any p = true) :
    Answers (copyWhile p : Parse E W Bytes) u fun t rest =>
      u = t ++ rest ∧ t ≠ [] ∧ ∀ c ∈ t, p c = true := by
  refine (answers_copyWhile p).mono ?_
  rintro t rest ⟨rfl, ht, hstop⟩
  refine ⟨rfl, ?_, ht⟩
  rintro rfl
  rw [List.nil_append, hstop.any] at h
  cases h

theorem answers_wordLoop (w seen : Bytes) :
    Answers (wordLoop w seen : Parse E W Bytes) u fun _ rest => u = w ++ rest := by
  induction w generalizing u seen with
  | nil => exact .pure rfl
  | cons p w ih =>
    unfold wordLoop
    apply Answers.peek
    split
    · rename_i hp
      obtain ⟨t, rfl⟩ := eq_cons_of_head hp
      refine .advance ((ih (seen ++ [p])).mono ?_)
      rintro - rest rfl
      rfl
    · exact (Refuses.bind fun _ => refuses_fail _).answers

theorem answers_word (w : Bytes) :
    Answers (word w : Parse E W Unit) u fun _ rest => u = w ++ rest := by
  refine (answers_wordLoop w []).bind fun seen v hu => .peek ?_
  split
  · exact (Refuses.bind fun _ => refuses_fail _).answers
  · exact .pure hu

theorem answers_expect (c : UInt8) (what : String) :
    Answers (expect c what : Parse E W Unit) u fun _ rest => u = c :: rest := by
  apply Answers.peek
  split
  · rename_i hc
    obtain ⟨t, rfl⟩ := eq_cons_of_head hc
    intro r hr hu a r' hok
    have hd : r.data = c :: t := (Source.unread_eq_data hr).symm.trans hu
    obtain rfl : advanced r = r' := by
      injection hok
    exact ⟨hr, by rw [show (advanced r).unread = t from Source.unread_advance hd hu]⟩
  · exact (Refuses.bind fun _ => refuses_fail _).answers

end Runs

/-! ### Numbers -/

/-- What is read from the text of a number: an exponent's letter is written small. -/
inductive NumberRead (H : Host V E W) : Bytes → V → Prop where
  | integer {int : Bytes} (negative : Bool) (hne : int ≠ []) (hd : ∀ c ∈ int, isDigit c = true)
      (hz : NoLeadingZero int) :
      NumberRead H (signText negative ++ int) (numberValue H false (signText negative ++ int))
  | decimal {t t' : Bytes} {x : Numeral} (negative : Bool) (hx : x.Spells t) (hne : t ≠ x.int)
      (hz : NoLeadingZero x.int) (hx' : x.Spells t') :
      NumberRead H (signText negative ++ t) (numberValue H true (signText negative ++ t'))

section Numbers
variable {u : Bytes}

theorem answers_minus :
    Answers (minus : Parse E W Bytes) u fun a rest =>
      ∃ negative, a = signText negative ∧ u = a ++ rest := by
  apply Answers.peek
  split
  · rename_i hc
    obtain ⟨t, rfl⟩ := eq_cons_of_head hc
    exact .advance (.pure ⟨true, rfl, rfl⟩)
  · exact .pure ⟨false, rfl, rfl⟩

theorem answers_integerPart :
    Answers (integerPart : Parse E W Bytes) u fun int rest =>
      u = int ++ rest ∧ int ≠ [] ∧ (∀ c ∈ int, isDigit c = true) ∧ NoLeadingZero int := by
  apply Answers.peek
  split
  · rename_i hc
    obtain ⟨t, rfl⟩ := eq_cons_of_head hc
    refine .advance (.peek ?_)
    split
    · exact .fail _
    · exact .pure ⟨rfl, List.cons_ne_nil _ _, List.forall_mem_singleton.mpr rfl, .inl rfl⟩
  · rename_i hzero
    split
    · rename_i hc
      refine (answers_copyWhile_some hc).mono ?_
      rintro int rest ⟨rfl, hne, hd⟩
      refine ⟨rfl, hne, hd, .inr ?_⟩
      rwa [List.head?_append_of_ne_nil int hne] at hzero
    · exact .fail _

theorem answers_fractionPart :
    Answers (fractionPart : Parse E W Bytes) u fun a rest =>
      ∃ frac, (∀ c ∈ frac, isDigit c = true) ∧ a = (if frac = [] then [] else 0x2E :: frac) ∧
        u = a ++ rest := by
  apply Answers.peek
  split
  · rename_i hc
    obtain ⟨t, rfl⟩ := eq_cons_of_head hc
    refine .advance (.peek ?_)
    split
    · rename_i hdigit
      refine (answers_copyWhile_some hdigit).bind ?_
      rintro frac rest ⟨rfl, hne, hd⟩
      exact .pure ⟨frac, hd, (if_neg hne).symm, rfl⟩
    · exact .fail _
  · exact .pure ⟨[], List.forall_mem_nil _, rfl, rfl⟩

theorem answers_exponentSign :
    Answers (exponentSign : Parse E W Bytes) u fun sign rest =>
      u = sign ++ rest ∧ (sign = [] ∨ sign = [0x2B] ∨ sign = [0x2D]) := by
  apply Answers.peek
  cases u with
  | nil => exact .pure ⟨rfl, .inl rfl⟩
  | cons c t =>
    rw [List.head?_cons]
    dsimp only
    split
    · rename_i hc
      refine .advance (.pure ⟨rfl, .inr ?_⟩)
      exact hc.imp (fun h => by rw [h]) fun h => by rw [h]
    · exact .pure ⟨rfl, .inl rfl⟩

theorem answers_exponentPart :
    Answers (exponentPart : Parse E W Bytes) u fun a rest =>
      u = rest ∧ a = [] ∨
        ∃ e t, u = t ++ rest ∧ Numeral.ExponentText e t ∧ Numeral.ExponentText e a := by
  apply Answers.peek
  split
  · rename_i hc
    have hletter : ∃ letter, u.head? = some letter ∧ (letter = 0x65 ∨ letter = 0x45) :=
      hc.elim (fun h => ⟨_, h, .inl rfl⟩) fun h => ⟨_, h, .inr rfl⟩
    obtain ⟨letter, hhead, hletter⟩ := hletter
    obtain ⟨t, rfl⟩ := eq_cons_of_head hhead
    refine .advance (answers_exponentSign.bind ?_)
    rintro sign v ⟨rfl, hsign⟩
    apply Answers.peek
    split
    · rename_i hdigit
      refine (answers_copyWhile_some hdigit).bind ?_
      rintro digits rest ⟨rfl, hne, hd⟩
      have hexp : ∃ e : Int, (sign = [] ∨ sign = [0x2B]) ∧ e = digitsValue digits ∨
          sign = [0x2D] ∧ e = -(digitsValue digits : Int) := by
        rcases hsign with h | h | h
        · exact ⟨_, .inl ⟨.inl h, rfl⟩⟩
        · exact ⟨_, .inl ⟨.inr h, rfl⟩⟩
        · exact ⟨_, .inr ⟨h, rfl⟩⟩
      obtain ⟨e, hexp⟩ := hexp
      refine .pure (.inr ⟨e, letter :: (sign ++ digits), by simp, ?_, ?_⟩)
      · exact ⟨letter, sign, digits, rfl, hletter, hne, hd, hexp⟩
      · exact ⟨0x65, sign, digits, rfl, .inl rfl, hne, hd, hexp⟩
    · exact .fail _
  · exact .pure (.inl ⟨rfl, rfl⟩)

theorem answers_number (H : Host V E W) :
    Answers (number H) u fun v rest => ∃ t, u = t ++ rest ∧ NumberRead H t v := by
  refine answers_minus.bind ?_
  rintro _ v ⟨negative, rfl, rfl⟩
  refine answers_integerPart.bind ?_
  rintro int v ⟨rfl, hne, hd, hz⟩
  refine answers_fractionPart.bind ?_
  rintro fraction v ⟨frac, hfrac, hfraction, rfl⟩
  refine answers_exponentPart.bind fun exponent rest hexp => .peek ?_
  split
  · exact (Refuses.bind fun _ => refuses_fail _).answers
  · rcases hexp with ⟨rfl, rfl⟩ | ⟨e, t, rfl, ht, ht'⟩
    · by_cases hnone : frac = []
      · rw [if_pos hnone] at hfraction
        subst hfraction
        refine .pure ⟨signText negative ++ int, by simp, ?_⟩
        simpa using NumberRead.integer (H := H) negative hne hd hz
      · rw [if_neg hnone] at hfraction
        let x : Numeral := { int, frac, int_ne := hne, int_digits := hd, frac_digits := hfrac }
        have hx : x.Spells (int ++ fraction) :=
          ⟨[], by rw [hfraction, Numeral.fractionText, if_neg hnone, List.append_nil], .inl ⟨rfl, rfl⟩⟩
        have hlong : int ++ fraction ≠ int := by
          rw [hfraction]
          simp
        refine .pure ⟨signText negative ++ (int ++ fraction), by simp, ?_⟩
        have hread := NumberRead.decimal (H := H) negative hx hlong hz hx
        simpa [hfraction] using hread
    · let x : Numeral :=
        { int, frac, exp := e, int_ne := hne, int_digits := hd, frac_digits := hfrac }
      have hx : x.Spells (int ++ fraction ++ t) := ⟨t, by rw [hfraction]; rfl, .inr ht⟩
      have hx' : x.Spells (int ++ fraction ++ exponent) :=
        ⟨exponent, by rw [hfraction]; rfl, .inr ht'⟩
      obtain ⟨letter, sign, digits, rfl, -⟩ := ht
      obtain ⟨letter', sign', digits', rfl, -⟩ := ht'
      have hlong : int ++ fraction ++ letter :: (sign ++ digits) ≠ int := by
        rw [List.append_assoc]
        simp
      refine .pure ⟨signText negative ++ (int ++ fraction ++ letter :: (sign ++ digits)), by simp, ?_⟩
      have hread := NumberRead.decimal (H := H) negative hx hlong hz hx'
      simpa using hread

end Numbers

/-! ### Strings -/

theorem hexDigit_isHex {c : UInt8} {d : Nat} (h : hexDigit c = some d) : IsHex c d := by
  have hlow : ∀ d < 10, lowerHex[d]? = some (UInt8.ofNat (0x30 + d)) := by decide
  have hsmall : ∀ d < 6, lowerHex[d + 10]? = some (UInt8.ofNat (0x61 + d)) := by decide
  have hlarge : ∀ d < 6, upperHex[d + 10]? = some (UInt8.ofNat (0x41 + d)) := by decide
  -- A byte is what its value above the first of its kind gives back.
  have hback : ∀ b : Nat, b ≤ c.toNat → UInt8.ofNat (b + (c.toNat - b)) = c := by
    intro b hb
    rw [Nat.add_sub_of_le hb, UInt8.ofNat_toNat]
  unfold hexDigit at h
  split at h
  · rename_i hd
    obtain ⟨h1, h2⟩ := isDigit_iff.mp hd
    obtain rfl := Option.some.inj h
    have hlt : c.toNat - 0x30 < 10 := by omega
    exact .inl ((hlow _ hlt).trans (congrArg some (hback 0x30 h1)))
  · split at h
    · rename_i hd
      simp only [Bool.and_eq_true, decide_eq_true_eq, UInt8.le_iff_toNat_le] at hd
      obtain ⟨h1, h2⟩ := hd
      obtain rfl := Option.some.inj h
      have hlt : c.toNat - 0x61 < 6 := by
        have : (0x66 : UInt8).toNat = 0x66 := rfl
        omega
      exact .inl ((hsmall _ hlt).trans (congrArg some (hback 0x61 h1)))
    · split at h
      · rename_i hd
        simp only [Bool.and_eq_true, decide_eq_true_eq, UInt8.le_iff_toNat_le] at hd
        obtain ⟨h1, h2⟩ := hd
        obtain rfl := Option.some.inj h
        have hlt : c.toNat - 0x41 < 6 := by
          have : (0x46 : UInt8).toNat = 0x46 := rfl
          omega
        exact .inr ((hlarge _ hlt).trans (congrArg some (hback 0x41 h1)))
      · cases h

theorem IsHex.hexDigit {c : UInt8} {d : Nat} (h : IsHex c d) : hexDigit c = some d := by
  have hd : d < 16 := by
    rcases h with h | h
    · exact (List.getElem?_eq_some_iff.mp h).1
    · exact (List.getElem?_eq_some_iff.mp h).1
  have hlower : ∀ d < 16, (lowerHex[d]?).bind Json.hexDigit = some d := by decide
  have hupper : ∀ d < 16, (upperHex[d]?).bind Json.hexDigit = some d := by decide
  rcases h with h | h
  · have hbind := hlower d hd
    rwa [h, Option.bind_some] at hbind
  · have hbind := hupper d hd
    rwa [h, Option.bind_some] at hbind

theorem IsHex.lt {c : UInt8} {d : Nat} (h : IsHex c d) : d < 16 := by
  rcases h with h | h
  · exact (List.getElem?_eq_some_iff.mp h).1
  · exact (List.getElem?_eq_some_iff.mp h).1

theorem hexValue_lt {q : Bytes} {ds : List Nat} (h : List.Forall₂ IsHex q ds) (v : Nat) :
    hexValue ds v < (v + 1) * 16 ^ q.length := by
  induction h generalizing v with
  | nil => simp [hexValue]
  | @cons c d q ds hc _ ih =>
    have hlt := hc.lt
    have ih := ih (v * 16 + d)
    have hstep : (v * 16 + d + 1) * 16 ^ q.length ≤ (v + 1) * 16 * 16 ^ q.length :=
      Nat.mul_le_mul_right _ (by omega)
    rw [List.length_cons, Nat.pow_succ, Nat.mul_comm (16 ^ q.length), ← Nat.mul_assoc]
    exact Nat.lt_of_lt_of_le ih hstep

theorem Hex4.lt {q : Bytes} {n : Nat} (h : Hex4 q n) : n < 0x10000 := by
  obtain ⟨ds, hds, hlen, rfl⟩ := h
  have hlt := hexValue_lt hds 0
  rw [hlen] at hlt
  exact hlt

theorem appendUtf8_encoded {n : Nat} (h : n.isValidChar) : appendUtf8 n = encoded n := by
  have hn : (Char.ofNat n).toNat = n := by
    rw [Char.ofNat, dif_pos h]
    rfl
  have hc := appendUtf8_toNat (Char.ofNat n)
  rwa [hn] at hc

section Strings
variable {u : Bytes}

theorem answers_hexDigits (i v : Nat) :
    Answers (hexDigits i v : Parse E W Nat) u fun a rest =>
      ∃ q ds, u = q ++ rest ∧ List.Forall₂ IsHex q ds ∧ q.length = i ∧ a = hexValue ds v := by
  induction i generalizing u v with
  | zero => exact .pure ⟨[], [], rfl, .nil, rfl, rfl⟩
  | succ i ih =>
    unfold hexDigits
    apply Answers.peek
    split
    · rename_i d hd
      obtain ⟨c, hhead, hc⟩ := Option.bind_eq_some_iff.mp hd
      obtain ⟨t, rfl⟩ := eq_cons_of_head hhead
      refine .advance ((ih (v * 16 + d)).mono ?_)
      rintro a rest ⟨q, ds, rfl, hq, hlen, rfl⟩
      exact ⟨c :: q, d :: ds, rfl, .cons (hexDigit_isHex hc) hq, congrArg (· + 1) hlen, rfl⟩
    · exact .fail _

theorem answers_hex4 :
    Answers (hex4 : Parse E W Nat) u fun n rest => ∃ q, u = q ++ rest ∧ Hex4 q n := by
  refine (answers_hexDigits 4 0).mono ?_
  rintro n rest ⟨q, ds, rfl, hq, hlen, hn⟩
  exact ⟨q, rfl, ds, hq, hlen, hn⟩

theorem answers_lowSurrogate :
    Answers (lowSurrogate : Parse E W Nat) u fun lo rest =>
      ∃ q, u = backslash :: 0x75 :: (q ++ rest) ∧ Hex4 q lo ∧ 0xDC00 ≤ lo ∧ lo ≤ 0xDFFF := by
  apply Answers.peek
  split
  · rename_i hc
    obtain ⟨t, rfl⟩ := eq_cons_of_head hc
    refine .advance (.peek ?_)
    split
    · rename_i hc
      obtain ⟨t, rfl⟩ := eq_cons_of_head hc
      refine .advance (answers_hex4.bind ?_)
      rintro lo rest ⟨q, rfl, hq⟩
      split
      · exact .fail _
      · exact .pure ⟨q, rfl, hq, by omega⟩
    · exact .fail _
  · exact .fail _

/-- A backslash, `x` and `e` stand for `b`, whatever the string goes on with. -/
def Escapes (x : UInt8) (e b : Bytes) : Prop :=
  ∀ t o, StringText t o → StringText (backslash :: x :: (e ++ t)) (b ++ o)

theorem answers_unicodeEscape :
    Answers (unicodeEscape : Parse E W Bytes) u fun b rest =>
      ∃ e, u = e ++ rest ∧ Escapes 0x75 e b := by
  refine answers_hex4.bind ?_
  rintro n v ⟨q, rfl, hq⟩
  have hn := hq.lt
  split
  · rename_i hhigh
    refine answers_lowSurrogate.bind ?_
    rintro lo rest ⟨q', rfl, hq', hlow⟩
    have hvalue : 0x10000 + ((n - 0xD800) <<< 10) + (lo - 0xDC00) =
        0x10000 + (n - 0xD800) * 0x400 + (lo - 0xDC00) := by
      rw [Nat.shiftLeft_eq]
    rw [hvalue, appendUtf8_encoded (.inr (by omega))]
    refine .pure ⟨q ++ backslash :: 0x75 :: q', by simp, fun t o h => ?_⟩
    have hpair := StringText.surrogates hq hq' hhigh hlow h
    simpa using hpair
  · split
    · exact .fail _
    · have hs : n < 0xD800 ∨ 0xDFFF < n := by omega
      have hvalid : n.isValidChar := by
        rcases hs with h | h
        · exact .inl h
        · exact .inr ⟨h, by omega⟩
      rw [appendUtf8_encoded hvalid]
      exact .pure ⟨q, rfl, fun t o h => .unicode hq hs h⟩

theorem answers_escape (x : UInt8) :
    Answers (escape x : Parse E W Bytes) u fun b rest =>
      ∃ e, u = e ++ rest ∧ Escapes x e b := by
  have hsimple : ∀ {y b : UInt8} {g : Parse E W Bytes}, (y, b) ∈ simpleEscapes →
      (Answers g u fun b rest => ∃ e, u = e ++ rest ∧ Escapes x e b) →
      Answers (if x = y then Pure.pure [b] else g) u fun b rest =>
        ∃ e, u = e ++ rest ∧ Escapes x e b := by
    intro y b g hb hg
    split
    · rename_i hx
      subst hx
      exact .pure ⟨[], rfl, fun t o h => .simple hb h⟩
    · exact hg
  unfold escape
  apply hsimple (by decide)
  apply hsimple (by decide)
  apply hsimple (by decide)
  apply hsimple (by decide)
  apply hsimple (by decide)
  apply hsimple (by decide)
  apply hsimple (by decide)
  apply hsimple (by decide)
  split
  · rename_i hx
    subst hx
    exact answers_unicodeEscape
  · split
    · exact .fail _
    · exact .fail _

theorem answers_plainRun :
    Answers (plainRun : Parse E W Bytes) u fun run rest =>
      u = run ++ rest ∧ (∀ c ∈ run, isPlain c = true) ∧ Stops isPlain rest := by
  intro r hr hu a r' hok
  have hd : r.data = u := (Source.unread_eq_data hr).symm.trans hu
  have hp : (plainRun : Parse E W Bytes) r =
      .ok (u.takeWhile isPlain) (skipped (u.takeWhile isPlain).length r) := by
    rw [← hd]
    rfl
  rw [hp] at hok
  obtain ⟨rfl, rfl⟩ : u.takeWhile isPlain = a ∧ skipped (u.takeWhile isPlain).length r = r' := by
    injection hok with ha hr'
    exact ⟨ha, hr'⟩
  have hr' : (skipped (u.takeWhile isPlain).length r).reader = none := hr
  have hsplit : u.takeWhile isPlain ++ u.dropWhile isPlain = u := List.takeWhile_append_dropWhile
  have hrest : (skipped (u.takeWhile isPlain).length r).unread = u.dropWhile isPlain := by
    rw [Source.unread_eq_data hr', data_skipped, hd]
    nth_rewrite 2 [← hsplit]
    exact List.drop_left
  refine ⟨hr', ?_⟩
  rw [hrest]
  refine ⟨hsplit.symm, fun c hc => (List.mem_takeWhile_imp hc), fun c hc => ?_⟩
  have hne : u.dropWhile isPlain ≠ [] := by
    intro hnil
    rw [hnil] at hc
    cases hc
  have hhead := List.head_dropWhile_not isPlain hne
  rw [List.head?_eq_some_head hne] at hc
  rwa [Option.some.inj hc] at hhead

theorem StringText.plains {run t o : Bytes} (hrun : ∀ c ∈ run, isPlain c = true)
    (h : StringText t o) : StringText (run ++ t) (run ++ o) := by
  induction run with
  | nil => exact h
  | cons c run ih =>
    have hc := hrun c List.mem_cons_self
    simp only [isPlain, Bool.and_eq_true, bne_iff_ne] at hc
    exact .plain hc.1.1 hc.1.2 (ih fun d hd => hrun d (List.mem_cons_of_mem c hd))

theorem answers_stringLoop (n : Nat) (hn : u.length < n) (out : Bytes) :
    Answers (stringLoop n out : Parse E W Bytes) u fun a rest =>
      ∃ t o, u = t ++ quote :: rest ∧ StringText t o ∧ a = out ++ o := by
  induction n generalizing u out with
  | zero => exact absurd hn (Nat.not_lt_zero _)
  | succ n ih =>
    rw [stringLoop_succ]
    refine answers_plainRun.bind ?_
    rintro run v ⟨rfl, hrun, hstop⟩
    rw [List.length_append] at hn
    apply Answers.peek
    unfold afterRun
    cases v with
    | nil => exact .fail _
    | cons c v =>
      rw [List.length_cons] at hn
      rw [List.head?_cons]
      dsimp only
      apply Answers.advance
      split
      · rename_i hc
        subst hc
        refine .pure ⟨run, run, rfl, ?_, rfl⟩
        simpa using StringText.plains hrun .nil
      · rename_i hquote
        split
        · rename_i hc
          subst hc
          refine .newline ((ih (by omega) (out ++ run ++ [LF])).mono ?_)
          rintro a rest ⟨t, o, rfl, h, rfl⟩
          refine ⟨run ++ LF :: t, run ++ LF :: o, by simp, ?_, by simp⟩
          exact .plains hrun (.plain hquote (by decide) h)
        · rename_i hlf
          have hc : c = backslash := by
            have hplain := hstop c rfl
            simpa [isPlain, hquote, hlf] using hplain
          subst hc
          apply Answers.peek
          unfold afterBackslash
          cases v with
          | nil => exact .fail _
          | cons x v =>
            rw [List.length_cons] at hn
            rw [List.head?_cons]
            dsimp only
            refine .advance ((answers_escape x).bind ?_)
            rintro b v ⟨e, rfl, he⟩
            rw [List.length_append] at hn
            refine (ih (by omega) (out ++ run ++ b)).mono ?_
            rintro a rest ⟨t, o, rfl, h, rfl⟩
            refine ⟨run ++ backslash :: x :: (e ++ t), run ++ (b ++ o), by simp, ?_, by simp⟩
            exact .plains hrun (he t o h)

theorem answers_string :
    Answers (string : Parse E W Bytes) u fun o rest =>
      ∃ t, u = t ++ quote :: rest ∧ StringText t o := by
  refine .fuel fun n hn => (answers_stringLoop n hn []).mono ?_
  rintro a rest ⟨t, o, rfl, h, rfl⟩
  exact ⟨t, rfl, h⟩

end Strings

end ProtoClojure.Json
