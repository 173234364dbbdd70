import ProtoClojure.Json.Tokens
import ProtoClojure.Json.Writer

/-! A string is read as it was written. -/

namespace ProtoClojure.Json

variable {V D E W : Type}

/-! ### UTF-8 -/

def Utf8 (s : Bytes) : Prop := ∃ cs : List Char, s = cs.flatMap String.utf8EncodeChar

/-- High bits and low bits that do not meet. -/
theorem or_eq_add (i a : Nat) {m b : Nat} (hm : m = 2 ^ i * a) (h : b < 2 ^ i) :
    m ||| b = b + m := by
  rw [hm, ← Nat.two_pow_add_eq_or_of_lt h, Nat.add_comm]

theorem toNat_lt (c : Char) : c.toNat < 0x110000 := by
  rcases c.valid with h | h
  · exact Nat.lt_trans h (by decide)
  · exact h.2

/-- What `appendUtf8` appends for a code point is its encoding. -/
theorem appendUtf8_toNat (c : Char) : appendUtf8 c.toNat = String.utf8EncodeChar c := by
  have hlt := toNat_lt c
  have hv : c.val.toNat = c.toNat := rfl
  unfold appendUtf8 String.utf8EncodeChar
  rw [hv]
  dsimp only
  generalize c.toNat = v at hlt
  have hand : v &&& 0x3F = v % 64 := Nat.and_two_pow_sub_one_eq_mod v 6
  have hand6 : v >>> 6 &&& 0x3F = v / 64 % 64 := by
    rw [Nat.shiftRight_eq_div_pow]
    exact Nat.and_two_pow_sub_one_eq_mod (v / 64) 6
  have hand12 : v >>> 12 &&& 0x3F = v / 4096 % 64 := by
    rw [Nat.shiftRight_eq_div_pow]
    exact Nat.and_two_pow_sub_one_eq_mod (v / 4096) 6
  have hcont : ∀ k, 0x80 ||| k % 64 = k % 64 + 0x80 := fun k =>
    or_eq_add 7 1 rfl (by omega)
  by_cases h1 : v < 0x80
  · have h1' : v ≤ 0x7F := by omega
    rw [if_pos h1, if_pos h1']
  · have h1' : ¬v ≤ 0x7F := by omega
    rw [if_neg h1, if_neg h1']
    by_cases h2 : v < 0x800
    · have h2' : v ≤ 0x7FF := by omega
      have hlead : 0xC0 ||| v >>> 6 = v / 64 % 32 + 0xC0 := by
        have h : 0xC0 ||| v / 2 ^ 6 = v / 2 ^ 6 + 0xC0 := or_eq_add 6 3 rfl (by omega)
        rw [Nat.shiftRight_eq_div_pow, h]
        omega
      rw [if_pos h2, if_pos h2', hlead, hand, hcont]
    · have h2' : ¬v ≤ 0x7FF := by omega
      rw [if_neg h2, if_neg h2']
      by_cases h3 : v < 0x10000
      · have h3' : v ≤ 0xFFFF := by omega
        have hlead : 0xE0 ||| v >>> 12 = v / 4096 % 16 + 0xE0 := by
          have h : 0xE0 ||| v / 2 ^ 12 = v / 2 ^ 12 + 0xE0 := or_eq_add 5 7 rfl (by omega)
          rw [Nat.shiftRight_eq_div_pow, h]
          omega
        rw [if_pos h3, if_pos h3', hlead, hand6, hand, hcont, hcont]
      · have h3' : ¬v ≤ 0xFFFF := by omega
        have hlead : 0xF0 ||| v >>> 18 = v / 262144 % 8 + 0xF0 := by
          have h : 0xF0 ||| v / 2 ^ 18 = v / 2 ^ 18 + 0xF0 := or_eq_add 4 15 rfl (by omega)
          rw [Nat.shiftRight_eq_div_pow, h]
          omega
        rw [if_neg h3, if_neg h3', hlead, hand12, hand6, hand, hcont, hcont, hcont]

/-! ### What a string's text stands for -/

/-- `t` between quotes stands for `o`. -/
inductive Body (E W : Type) : Bytes → Bytes → Prop where
  | nil : Body E W [] []
  | plain {c : UInt8} {t o : Bytes} (hc : isPlain c = true) (h : Body E W t o) :
      Body E W (c :: t) (c :: o)
  | escape {x : UInt8} {e b t o : Bytes}
      (he : ∀ rest, Takes (escape x : Parse E W Bytes) e b rest) (h : Body E W t o) :
      Body E W (backslash :: x :: (e ++ t)) (b ++ o)

theorem Body.append {t o t' o' : Bytes} (h : Body E W t o) (h' : Body E W t' o') :
    Body E W (t ++ t') (o ++ o') := by
  induction h with
  | nil => exact h'
  | plain hc _ ih => exact .plain hc ih
  | escape he _ ih =>
    rw [List.append_assoc, List.cons_append, List.cons_append, List.append_assoc]
    exact .escape he ih

theorem Body.plains {s : Bytes} (h : ∀ c ∈ s, isPlain c = true) : Body E W s s := by
  induction s with
  | nil => exact .nil
  | cons c s ih =>
    exact .plain (h c List.mem_cons_self) (ih fun d hd => h d (List.mem_cons_of_mem c hd))

theorem takes_plainRun {run rest : Bytes} (hrun : ∀ c ∈ run, isPlain c = true)
    (hrest : Stops isPlain rest) : Takes (plainRun : Parse E W Bytes) run run rest := by
  intro r hr hu
  have hd : r.data = run ++ rest := (Source.unread_eq_data hr).symm.trans hu
  have hp : (plainRun : Parse E W Bytes) r = .ok run (skipped run.length r) := by
    have h : (plainRun : Parse E W Bytes) r =
        .ok (r.data.takeWhile isPlain) (skipped (r.data.takeWhile isPlain).length r) := rfl
    rw [h, hd, takeWhile_eq hrun hrest]
  have hu' : (skipped run.length r).unread = rest := by
    have hr' : (skipped run.length r).reader = none := hr
    rw [Source.unread_eq_data hr', data_skipped, hd, List.drop_left]
  exact ⟨_, hp, hr, hu', rfl⟩

/-- The run of plain bytes a text starts with. -/
theorem Body.split {t o : Bytes} (h : Body E W t o) :
    ∃ run t₁ o₁, t = run ++ t₁ ∧ o = run ++ o₁ ∧ (∀ c ∈ run, isPlain c = true) ∧
      (t₁ = [] ∧ o₁ = [] ∨ ∃ x e b t₂ o₂, t₁ = backslash :: x :: (e ++ t₂) ∧ o₁ = b ++ o₂ ∧
        (∀ rest, Takes (Json.escape x : Parse E W Bytes) e b rest) ∧ Body E W t₂ o₂) := by
  induction h with
  | nil => exact ⟨[], [], [], rfl, rfl, List.forall_mem_nil _, .inl ⟨rfl, rfl⟩⟩
  | @plain c t o hc _ ih =>
    obtain ⟨run, t₁, o₁, rfl, rfl, hrun, h⟩ := ih
    exact ⟨c :: run, t₁, o₁, rfl, rfl, List.forall_mem_cons.mpr ⟨hc, hrun⟩, h⟩
  | escape he hb _ =>
    exact ⟨[], _, _, rfl, rfl, List.forall_mem_nil _, .inr ⟨_, _, _, _, _, rfl, rfl, he, hb⟩⟩

theorem takes_stringLoop (n : Nat) : ∀ {t o : Bytes}, Body E W t o → t.length < n →
    ∀ out rest, Takes (stringLoop n out : Parse E W Bytes) (t ++ [quote]) (out ++ o) rest := by
  induction n with
  | zero => exact fun _ hn => absurd hn (Nat.not_lt_zero _)
  | succ n ih =>
    intro t o h hn out rest
    obtain ⟨run, t₁, o₁, rfl, rfl, hrun, hend⟩ := h.split
    rw [stringLoop_succ, List.append_assoc, ← List.append_assoc out]
    rcases hend with ⟨rfl, rfl⟩ | ⟨x, e, b, t₂, o₂, rfl, rfl, he, h₂⟩
    · refine .bind (takes_plainRun hrun (.cons (by decide) _)) (.peek ?_)
      rw [List.append_nil]
      exact .advance _ (.pure _)
    · refine .bind (takes_plainRun hrun (.cons (by decide) _)) (.peek ?_)
      refine .advance _ (.peek (.advance _ ?_))
      have hlen : t₂.length < n := by
        simp only [List.length_append, List.length_cons] at hn
        omega
      have h := ih h₂ hlen (out ++ run ++ b) rest
      have htext : (e ++ t₂).append [quote] = e ++ (t₂ ++ [quote]) := List.append_assoc e t₂ [quote]
      rw [htext, ← List.append_assoc (out ++ run)]
      exact .bind (he _) h

theorem takes_string {t o : Bytes} (h : Body E W t o) (rest : Bytes) :
    Takes (string : Parse E W Bytes) (t ++ [quote]) o rest := by
  refine .fuel fun n hn => takes_stringLoop n h ?_ [] rest
  simp only [List.length_append, List.length_cons] at hn
  omega

/-! ### Escapes -/

section Escapes
variable (o : WriteOptions D)

theorem hexDigit_hexChar (flavor : Flavor) : ∀ d < 16, hexDigit (hexChar flavor d) = some d := by
  cases flavor <;> decide

theorem takes_hexDigits_succ (flavor : Flavor) {i v d w : Nat} {text rest : Bytes} (hd : d < 16)
    (h : Takes (hexDigits i (v * 16 + d) : Parse E W Nat) text w rest) :
    Takes (hexDigits (i + 1) v : Parse E W Nat) (hexChar flavor d :: text) w rest := by
  unfold hexDigits
  refine .peek ?_
  rw [List.cons_append, List.head?_cons, Option.bind_some, hexDigit_hexChar flavor d hd]
  exact .advance _ h

def hexText (u : Nat) : Bytes :=
  [12, 8, 4, 0].map fun shift => hexChar o.flavor (u >>> shift &&& 0xF)

theorem takes_hex4 {u : Nat} (hu : u < 0x10000) (rest : Bytes) :
    Takes (hex4 : Parse E W Nat) (hexText o u) u rest := by
  have hdigit : ∀ shift, u >>> shift &&& 0xF = u / 2 ^ shift % 16 := fun shift => by
    rw [Nat.shiftRight_eq_div_pow]
    exact Nat.and_two_pow_sub_one_eq_mod _ 4
  have hvalue : (((0 * 16 + u / 2 ^ 12 % 16) * 16 + u / 2 ^ 8 % 16) * 16 + u / 2 ^ 4 % 16) * 16 +
      u / 2 ^ 0 % 16 = u := by omega
  unfold hexText
  simp only [List.map_cons, List.map_nil, hdigit]
  have hend : Takes (hexDigits 0 u : Parse E W Nat) [] u rest := .pure u
  rw [← hvalue] at hend
  have h := takes_hexDigits_succ o.flavor (Nat.mod_lt _ (by decide)) hend
  have h := takes_hexDigits_succ o.flavor (Nat.mod_lt _ (by decide)) h
  have h := takes_hexDigits_succ o.flavor (Nat.mod_lt _ (by decide)) h
  have h := takes_hexDigits_succ o.flavor (Nat.mod_lt _ (by decide)) h
  rw [hvalue] at h
  exact h

theorem takes_unicodeEscape {u : Nat} (hu : u < 0x10000) (hs : u < 0xD800 ∨ 0xDFFF < u)
    (rest : Bytes) :
    Takes (escape 0x75 : Parse E W Bytes) (hexText o u) (appendUtf8 u) rest := by
  show Takes (unicodeEscape : Parse E W Bytes) _ _ _
  refine (takes_hex4 o hu _).answer ?_
  rw [if_neg (by omega), if_neg (by omega)]
  exact .pure _

/-- A surrogate pair is the character it encodes. -/
theorem takes_surrogates {u : Nat} (hu : u < 0x100000) (rest : Bytes) :
    Takes (escape 0x75 : Parse E W Bytes)
      (hexText o (0xD800 + u >>> 10) ++ hexEscape o (0xDC00 + (u &&& 0x3FF)))
      (appendUtf8 (0x10000 + u)) rest := by
  have hhi : u >>> 10 = u / 1024 := Nat.shiftRight_eq_div_pow u 10
  have hlo : u &&& 0x3FF = u % 1024 := Nat.and_two_pow_sub_one_eq_mod u 10
  have hcp : 0x10000 + ((0xD800 + u / 1024 - 0xD800) <<< 10) + (0xDC00 + u % 1024 - 0xDC00) =
      0x10000 + u := by
    rw [Nat.shiftLeft_eq]
    omega
  rw [hhi, hlo]
  show Takes (unicodeEscape : Parse E W Bytes) _ _ _
  refine .bind (takes_hex4 o (by omega) _) ?_
  rw [if_pos (by omega)]
  have hlow : Takes (lowSurrogate : Parse E W Nat) (hexEscape o (0xDC00 + u % 1024))
      (0xDC00 + u % 1024) rest := by
    refine .peek (.advance _ (.peek (.advance _ ?_)))
    refine (takes_hex4 o (by omega) _).answer ?_
    rw [if_neg (by omega)]
    exact .pure _
  refine hlow.answer ?_
  rw [hcp]
  exact .pure _

theorem body_hexEscape {c : Char} (hc : c.toNat < 0x10000) :
    Body E W (hexEscape o c.toNat) (String.utf8EncodeChar c) := by
  have hs : c.toNat < 0xD800 ∨ 0xDFFF < c.toNat := by
    rcases c.valid with h | h
    · exact .inl h
    · exact .inr h.1
  have h := Body.escape (takes_unicodeEscape (E := E) (W := W) o hc hs) .nil
  rw [List.append_nil, List.append_nil, appendUtf8_toNat] at h
  exact h

theorem body_escapeCodePoint (c : Char) :
    Body E W (escapeCodePoint o c.toNat) (String.utf8EncodeChar c) := by
  unfold escapeCodePoint
  split
  · rename_i hc
    have hlt := toNat_lt c
    have hsum : 0x10000 + (c.toNat - 0x10000) = c.toNat := by omega
    have h := Body.escape (takes_surrogates (E := E) (W := W) o
      (show c.toNat - 0x10000 < 0x100000 by omega)) .nil
    rw [List.append_nil, List.append_nil, hsum, appendUtf8_toNat] at h
    exact h
  · rename_i hc
    exact body_hexEscape o (by omega)

theorem body_simple {x b : UInt8} (h : (escape x : Parse E W Bytes) = pure [b]) :
    Body E W [backslash, x] [b] :=
  .escape (e := []) (b := [b]) (fun _ => by rw [h]; exact .pure _) .nil

theorem body_escapeAscii (c : UInt8) (hc : c < 0x80) : Body E W (escapeAscii o c) [c] := by
  unfold escapeAscii
  by_cases hquote : c = quote
  · subst hquote
    exact body_simple rfl
  rw [if_neg hquote]
  by_cases hback : c = backslash
  · subst hback
    exact body_simple rfl
  rw [if_neg hback]
  split
  · subst c
    exact body_simple rfl
  split
  · subst c
    exact body_simple rfl
  by_cases hlf : c = LF
  · subst hlf
    exact body_simple rfl
  rw [if_neg hlf]
  split
  · subst c
    exact body_simple rfl
  split
  · subst c
    exact body_simple rfl
  have hplain : Body E W [c] [c] :=
    .plains fun d hd => by simp [List.mem_singleton.mp hd, isPlain, hquote, hback, hlf]
  split
  · subst c
    split
    · exact body_simple rfl
    · exact hplain
  split
  · have hlt : c.toNat < 0x80 := UInt8.lt_iff_toNat_lt.mp hc
    have h := Body.escape (takes_unicodeEscape (E := E) (W := W) o
      (show c.toNat < 0x10000 by omega) (.inl (by omega))) .nil
    have happend : appendUtf8 c.toNat = [c] := by
      rw [appendUtf8, if_pos hlt, UInt8.ofNat_toNat]
    rw [List.append_nil, List.append_nil, happend] at h
    exact h
  · exact hplain

end Escapes

/-! ### Sequences -/

section Sequences
variable (o : WriteOptions D)

theorem leadByte_two : ∀ k < 32, 2 ≤ k → leadByte (UInt8.ofNat (k + 0xC0)) = (2, k) := by decide

theorem leadByte_three : ∀ k < 16, leadByte (UInt8.ofNat (k + 0xE0)) = (3, k) := by decide

theorem leadByte_four : ∀ k < 5, leadByte (UInt8.ofNat (k + 0xF0)) = (4, k) := by decide

theorem continuation_byte : ∀ k < 64, UInt8.ofNat (k + 0x80) &&& 0xC0 = 0x80 ∧
    (UInt8.ofNat (k + 0x80) &&& 0x3F).toNat = k := by decide

theorem continuation_cons (cp : Nat) {k : Nat} (hk : k < 64) (s : Bytes) :
    continuation cp (UInt8.ofNat (k + 0x80) :: s) = continuation (cp * 64 + k) s := by
  obtain ⟨hand, hbits⟩ := continuation_byte k hk
  have hor : cp <<< 6 ||| k = cp * 64 + k := by
    rw [Nat.shiftLeft_eq, or_eq_add 6 cp (Nat.mul_comm _ _) hk]
    omega
  rw [continuation, hand, hbits, hor]
  rfl

/-- The bytes of a character beyond ASCII. -/
theorem utf8_beyond (c : Char) (hc : 0x80 ≤ c.toNat) :
    ∃ b bs, String.utf8EncodeChar c = b :: bs ∧ (∀ d ∈ b :: bs, 0x80 ≤ d) ∧
      ∀ rest, decodeUtf8 b (bs ++ rest) = some (c.toNat, bs.length) := by
  have hlt := toNat_lt c
  have hv : c.val.toNat = c.toNat := rfl
  have hcont : ∀ k < 64, 0x80 ≤ UInt8.ofNat (k + 0x80) := by decide
  unfold String.utf8EncodeChar
  rw [hv]
  dsimp only
  generalize c.toNat = v at hc hlt
  rw [if_neg (by omega)]
  by_cases h2 : v ≤ 0x7FF
  · rw [if_pos h2]
    have hlead := leadByte_two (v / 64 % 32) (by omega) (by omega)
    refine ⟨_, _, rfl, ?_, fun rest => ?_⟩
    · have h : ∀ k < 32, 0x80 ≤ UInt8.ofNat (k + 0xC0) := by decide
      simp only [List.forall_mem_cons]
      exact ⟨h _ (by omega), hcont _ (by omega), List.forall_mem_nil _⟩
    · unfold decodeUtf8
      rw [hlead]
      rw [if_pos (by simp)]
      simp only [List.cons_append, List.nil_append, List.take_succ_cons, List.take_zero,
        Nat.add_one_sub_one]
      rw [continuation_cons _ (by omega)]
      have hval : v / 64 % 32 * 64 + v % 64 = v := by omega
      rw [hval]
      rfl
  rw [if_neg h2]
  by_cases h3 : v ≤ 0xFFFF
  · rw [if_pos h3]
    have hlead := leadByte_three (v / 4096 % 16) (by omega)
    refine ⟨_, _, rfl, ?_, fun rest => ?_⟩
    · have h : ∀ k < 16, 0x80 ≤ UInt8.ofNat (k + 0xE0) := by decide
      simp only [List.forall_mem_cons]
      exact ⟨h _ (by omega), hcont _ (by omega), hcont _ (by omega), List.forall_mem_nil _⟩
    · unfold decodeUtf8
      rw [hlead]
      rw [if_pos (by simp)]
      simp only [List.cons_append, List.nil_append, List.take_succ_cons, List.take_zero,
        Nat.reduceSub]
      rw [continuation_cons _ (by omega), continuation_cons _ (by omega)]
      have hval : (v / 4096 % 16 * 64 + v / 64 % 64) * 64 + v % 64 = v := by omega
      rw [hval]
      rfl
  · rw [if_neg h3]
    have hlead := leadByte_four (v / 262144 % 8) (by omega)
    refine ⟨_, _, rfl, ?_, fun rest => ?_⟩
    · have h : ∀ k < 8, 0x80 ≤ UInt8.ofNat (k + 0xF0) := by decide
      simp only [List.forall_mem_cons]
      exact ⟨h _ (by omega), hcont _ (by omega), hcont _ (by omega), hcont _ (by omega),
        List.forall_mem_nil _⟩
    · unfold decodeUtf8
      rw [hlead]
      rw [if_pos (by simp)]
      simp only [List.cons_append, List.nil_append, List.take_succ_cons, List.take_zero,
        Nat.reduceSub]
      rw [continuation_cons _ (by omega), continuation_cons _ (by omega),
        continuation_cons _ (by omega)]
      have hval : ((v / 262144 % 8 * 64 + v / 4096 % 64) * 64 + v / 64 % 64) * 64 + v % 64 = v := by
        omega
      rw [hval]
      rfl

theorem isPlain_beyond {c : UInt8} (hc : 0x80 ≤ c) : isPlain c = true := by
  have h := UInt8.le_iff_toNat_le.mp hc
  have hne : ∀ d : UInt8, d.toNat < 0x80 → c ≠ d := by
    rintro d hd rfl
    exact absurd hd (Nat.not_lt.mpr h)
  simp [isPlain, hne quote (by decide), hne backslash (by decide), hne LF (by decide)]

/-- Bytes beyond ASCII are copied when nothing asks to escape them. -/
theorem stringLoopText_raw (h : (!o.escapeNonAscii && !o.escapeJsSeparators) = true) (s : Bytes)
    (bs : Bytes) (hbs : ∀ d ∈ bs, 0x80 ≤ d) (n : Nat) :
    stringLoopText o (bs.length + n) (bs ++ s) = bs ++ stringLoopText o n s := by
  induction bs with
  | nil => simp
  | cons b bs ih =>
    have hb : ¬b < 0x80 := by
      have := UInt8.le_iff_toNat_le.mp (hbs b List.mem_cons_self)
      exact fun hlt => absurd (UInt8.lt_iff_toNat_lt.mp hlt) (Nat.not_lt.mpr this)
    rw [List.length_cons, Nat.add_right_comm, List.cons_append, stringLoopText, if_neg hb, if_pos h,
      ih fun d hd => hbs d (List.mem_cons_of_mem b hd)]
    rfl

theorem body_escapeSequence {c : Char} {b : UInt8} {bs : Bytes}
    (henc : String.utf8EncodeChar c = b :: bs) (hbs : ∀ d ∈ b :: bs, 0x80 ≤ d) (rest : Bytes)
    (hdec : decodeUtf8 b (bs ++ rest) = some (c.toNat, bs.length)) :
    Body E W (escapeSequence o b (bs ++ rest)).1 (b :: bs) ∧
      (escapeSequence o b (bs ++ rest)).2 = bs.length := by
  unfold escapeSequence
  rw [hdec]
  dsimp only
  split
  · rw [← henc]
    exact ⟨body_escapeCodePoint o c, rfl⟩
  · rw [List.take_left]
    exact ⟨.plains fun d hd => isPlain_beyond (hbs d hd), rfl⟩

theorem body_stringLoopText (cs : List Char) (n : Nat)
    (hn : (cs.flatMap String.utf8EncodeChar).length ≤ n) :
    Body E W (stringLoopText o n (cs.flatMap String.utf8EncodeChar))
      (cs.flatMap String.utf8EncodeChar) := by
  induction cs generalizing n with
  | nil =>
    cases n with
    | zero => exact .nil
    | succ n => exact .nil
  | cons c cs ih =>
    rw [List.flatMap_cons] at hn ⊢
    by_cases hc : c.toNat < 0x80
    · have henc : String.utf8EncodeChar c = [UInt8.ofNat c.toNat] := by
        rw [← appendUtf8_toNat, appendUtf8, if_pos hc]
      have hbyte : UInt8.ofNat c.toNat < 0x80 := by
        rw [UInt8.lt_iff_toNat_lt, UInt8.toNat_ofNat']
        show c.toNat % 256 < 128
        omega
      rw [henc] at hn ⊢
      obtain ⟨n, rfl⟩ := Nat.exists_eq_succ_of_ne_zero (n := n) (by
        rintro rfl
        simp at hn)
      rw [List.cons_append, List.nil_append, stringLoopText, if_pos hbyte]
      refine Body.append (body_escapeAscii o _ hbyte) (ih n ?_)
      simpa using hn
    · obtain ⟨b, bs, henc, hbs, hdec⟩ := utf8_beyond c (by omega)
      rw [henc] at hn ⊢
      have hb : ¬b < 0x80 := by
        have := UInt8.le_iff_toNat_le.mp (hbs b List.mem_cons_self)
        exact fun hlt => absurd (UInt8.lt_iff_toNat_lt.mp hlt) (Nat.not_lt.mpr this)
      by_cases hraw : (!o.escapeNonAscii && !o.escapeJsSeparators) = true
      · obtain ⟨m, rfl⟩ := Nat.exists_eq_add_of_le (show (b :: bs).length ≤ n by
          simp only [List.length_append] at hn
          omega)
        rw [stringLoopText_raw o hraw _ (b :: bs) hbs]
        refine Body.append (.plains fun d hd => isPlain_beyond (hbs d hd)) (ih m ?_)
        simp only [List.length_append] at hn
        omega
      · obtain ⟨n, rfl⟩ := Nat.exists_eq_succ_of_ne_zero (n := n) (by
          rintro rfl
          simp at hn)
        obtain ⟨hbody, hlen⟩ := body_escapeSequence (E := E) (W := W) o henc hbs _ (hdec _)
        rw [List.cons_append, stringLoopText, if_neg hb, if_neg hraw, hlen, List.drop_left]
        refine Body.append hbody (ih n ?_)
        simp only [List.cons_append, List.length_cons, List.length_append] at hn
        omega

/-- A string is read back, the opening quote taken by the caller. -/
theorem takes_stringText {s : Bytes} (hs : Utf8 s) (rest : Bytes) :
    Takes (string : Parse E W Bytes) (stringLoopText o s.length s ++ [quote]) s rest := by
  obtain ⟨cs, rfl⟩ := hs
  exact takes_string (body_stringLoopText o cs _ (Nat.le_refl _)) rest

end Sequences

end ProtoClojure.Json
