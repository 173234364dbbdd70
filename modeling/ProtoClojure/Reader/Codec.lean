import ProtoClojure.Json.Strings
import ProtoClojure.Reader.Lexer

/-! UTF-8 sequences decoded and appended, and strings as the printer writes and the lexer reads
them. -/
namespace ProtoClojure.Reader

/-- A string in its readable form, appended. -/
def appendReadableString (out bytes : Bytes) : Bytes :=
  out ++ doubleQuote :: bytes.flatMap character ++ [doubleQuote]
where
  character (c : UInt8) : Bytes :=
    if c = doubleQuote then [backslash, doubleQuote]
    else if c = backslash then [backslash, backslash]
    else if c = LF then [backslash, 0x6E]
    else if c = 0x09 then [backslash, 0x74]
    else if c = 0x0D then [backslash, 0x72]
    else if c = 0x0C then [backslash, 0x66]
    else if c = 0x08 then [backslash, 0x62]
    else [c]

/-! ### Bytes of a sequence -/

theorem forall_byte {p : UInt8 → Prop} (h : ∀ n < 256, p (UInt8.ofNat n)) (b : UInt8) : p b := by
  have hb := h b.toNat b.toNat_lt
  rwa [UInt8.ofNat_toNat] at hb

set_option maxRecDepth 4000 in
theorem continuation_byte : ∀ b : UInt8, b &&& 0xC0 = 0x80 →
    (b &&& 0x3F).toNat < 64 ∧ b = UInt8.ofNat ((b &&& 0x3F).toNat + 0x80) :=
  forall_byte (by decide)

theorem ofNat_continuation : ∀ a < 64, UInt8.ofNat (a + 0x80) &&& 0xC0 = 0x80 ∧
    (UInt8.ofNat (a + 0x80) &&& 0x3F).toNat = a := by
  decide

set_option maxRecDepth 4000 in
theorem lead_two : ∀ b : UInt8, b &&& 0xE0 = 0xC0 →
    (b &&& 0x1F).toNat < 32 ∧ b = UInt8.ofNat ((b &&& 0x1F).toNat + 0xC0) :=
  forall_byte (by decide)

set_option maxRecDepth 4000 in
theorem lead_three : ∀ b : UInt8, b &&& 0xF0 = 0xE0 →
    (b &&& 0x0F).toNat < 16 ∧ b = UInt8.ofNat ((b &&& 0x0F).toNat + 0xE0) :=
  forall_byte (by decide)

set_option maxRecDepth 4000 in
theorem lead_four : ∀ b : UInt8, b &&& 0xF8 = 0xF0 →
    (b &&& 0x07).toNat < 8 ∧ b = UInt8.ofNat ((b &&& 0x07).toNat + 0xF0) :=
  forall_byte (by decide)

theorem ofNat_lead_two : ∀ x < 32, ¬ UInt8.ofNat (x + 0xC0) < 0x80 ∧
    UInt8.ofNat (x + 0xC0) &&& 0xE0 = 0xC0 ∧ (UInt8.ofNat (x + 0xC0) &&& 0x1F).toNat = x := by
  decide

theorem ofNat_lead_three : ∀ x < 16, ¬ UInt8.ofNat (x + 0xE0) < 0x80 ∧
    UInt8.ofNat (x + 0xE0) &&& 0xE0 ≠ 0xC0 ∧ UInt8.ofNat (x + 0xE0) &&& 0xF0 = 0xE0 ∧
    (UInt8.ofNat (x + 0xE0) &&& 0x0F).toNat = x := by
  decide

theorem ofNat_lead_four : ∀ x < 8, ¬ UInt8.ofNat (x + 0xF0) < 0x80 ∧
    UInt8.ofNat (x + 0xF0) &&& 0xE0 ≠ 0xC0 ∧ UInt8.ofNat (x + 0xF0) &&& 0xF0 ≠ 0xE0 ∧
    UInt8.ofNat (x + 0xF0) &&& 0xF8 = 0xF0 ∧ (UInt8.ofNat (x + 0xF0) &&& 0x07).toNat = x := by
  decide

section Decode
variable {n v w : Nat} {s : Bytes}

theorem continuationBytes_ofNat {a : Nat} (ha : a < 64) :
    continuationBytes (n + 1) v (UInt8.ofNat (a + 0x80) :: s) =
      continuationBytes n (v * 64 + a) s := by
  obtain ⟨hmark, hlow⟩ := ofNat_continuation a ha
  rw [continuationBytes, if_pos hmark, hlow]

theorem continuationBytes_succ (h : continuationBytes (n + 1) v s = some w) :
    ∃ a < 64, ∃ t, s = UInt8.ofNat (a + 0x80) :: t ∧ continuationBytes n (v * 64 + a) t = some w := by
  cases s with
  | nil => cases h
  | cons b t =>
    rw [continuationBytes] at h
    split at h
    · rename_i hmark
      obtain ⟨hlt, hb⟩ := continuation_byte b hmark
      exact ⟨_, hlt, t, congrArg (· :: t) hb, h⟩
    · cases h

theorem wide_some {len cp : Nat} {bits : UInt8} {minimum n : Nat}
    (h : decodeUtf8.wide len bits minimum s = some (n, cp)) :
    n = len ∧ continuationBytes (len - 1) bits.toNat s = some cp ∧ minimum ≤ cp ∧
      cp.isValidChar := by
  unfold decodeUtf8.wide at h
  split at h
  · cases h
  rename_i value hvalue
  split at h
  · cases h
  rename_i hrange
  obtain ⟨rfl, rfl⟩ := Prod.mk.inj (Option.some.inj h)
  refine ⟨rfl, hvalue, by omega, ?_⟩
  unfold Nat.isValidChar
  omega

theorem wide_eq {len cp minimum : Nat} {bits : UInt8}
    (h : continuationBytes (len - 1) bits.toNat s = some cp) (hmin : minimum ≤ cp)
    (hcp : cp.isValidChar) : decodeUtf8.wide len bits minimum s = some (len, cp) := by
  unfold decodeUtf8.wide
  rw [h]
  refine if_neg ?_
  unfold Nat.isValidChar at hcp
  omega

end Decode

/-! ### Characters decoded and appended -/

section Characters
variable {v : Nat} {rest : Bytes}

theorem appendUtf8_toNat (c : Char) : appendUtf8 c.toNat = String.utf8EncodeChar c :=
  Json.appendUtf8_toNat c

theorem exists_char (h : v.isValidChar) : ∃ c : Char, c.toNat = v := by
  refine ⟨Char.ofNat v, ?_⟩
  rw [Char.ofNat, dif_pos h]
  rfl

section Ranges
variable {c : Char}

theorem utf8EncodeChar_one (h : c.toNat < 0x80) : String.utf8EncodeChar c = [UInt8.ofNat c.toNat] :=
  if_pos (show c.toNat ≤ 0x7F by omega)

theorem utf8EncodeChar_two (hlo : 0x80 ≤ c.toNat) (hhi : c.toNat < 0x800) :
    String.utf8EncodeChar c =
      [UInt8.ofNat (c.toNat / 64 + 0xC0), UInt8.ofNat (c.toNat % 64 + 0x80)] := by
  have hv : c.val.toNat = c.toNat := rfl
  unfold String.utf8EncodeChar
  dsimp only
  rw [hv, if_neg (by omega), if_pos (by omega), Nat.mod_eq_of_lt (a := c.toNat / 64) (by omega)]

theorem utf8EncodeChar_three (hlo : 0x800 ≤ c.toNat) (hhi : c.toNat < 0x10000) :
    String.utf8EncodeChar c =
      [UInt8.ofNat (c.toNat / 4096 + 0xE0), UInt8.ofNat (c.toNat / 64 % 64 + 0x80),
        UInt8.ofNat (c.toNat % 64 + 0x80)] := by
  have hv : c.val.toNat = c.toNat := rfl
  unfold String.utf8EncodeChar
  dsimp only
  rw [hv, if_neg (by omega), if_neg (by omega), if_pos (by omega),
    Nat.mod_eq_of_lt (a := c.toNat / 4096) (by omega)]

theorem utf8EncodeChar_four (hlo : 0x10000 ≤ c.toNat) :
    String.utf8EncodeChar c =
      [UInt8.ofNat (c.toNat / 262144 + 0xF0), UInt8.ofNat (c.toNat / 4096 % 64 + 0x80),
        UInt8.ofNat (c.toNat / 64 % 64 + 0x80), UInt8.ofNat (c.toNat % 64 + 0x80)] := by
  have hlt := Json.toNat_lt c
  have hv : c.val.toNat = c.toNat := rfl
  unfold String.utf8EncodeChar
  dsimp only
  rw [hv, if_neg (by omega), if_neg (by omega), if_neg (by omega),
    Nat.mod_eq_of_lt (a := c.toNat / 262144) (by omega)]

end Ranges

/-- The encoding of a character decodes to it, whatever follows. -/
theorem decodeUtf8_encoded (c : Char) (rest : Bytes) :
    decodeUtf8 (String.utf8EncodeChar c ++ rest) =
      some ((String.utf8EncodeChar c).length, c.toNat) := by
  have hvalid : c.toNat.isValidChar := c.valid
  have hmax := Json.toNat_lt c
  by_cases h1 : c.toNat < 0x80
  · have hnat : (UInt8.ofNat c.toNat).toNat = c.toNat := by
      rw [UInt8.toNat_ofNat', Nat.mod_eq_of_lt (by omega)]
    have hbyte : UInt8.ofNat c.toNat < 0x80 := by
      rw [UInt8.lt_iff_toNat_lt, hnat]
      exact h1
    rw [utf8EncodeChar_one h1, List.singleton_append, decodeUtf8, if_pos hbyte, hnat]
    rfl
  by_cases h2 : c.toNat < 0x800
  · obtain ⟨hlt, hlead, hbits⟩ := ofNat_lead_two (c.toNat / 64) (by omega)
    rw [utf8EncodeChar_two (by omega) h2]
    simp only [List.cons_append, List.nil_append]
    rw [decodeUtf8, if_neg hlt, if_pos hlead]
    refine wide_eq ?_ (by omega) hvalid
    rw [hbits, continuationBytes_ofNat (Nat.mod_lt _ (by decide)), continuationBytes]
    exact congrArg some (by omega)
  by_cases h3 : c.toNat < 0x10000
  · obtain ⟨hlt, hno, hlead, hbits⟩ := ofNat_lead_three (c.toNat / 4096) (by omega)
    rw [utf8EncodeChar_three (by omega) h3]
    simp only [List.cons_append, List.nil_append]
    rw [decodeUtf8, if_neg hlt, if_neg hno, if_pos hlead]
    refine wide_eq ?_ (by omega) hvalid
    rw [hbits, continuationBytes_ofNat (Nat.mod_lt _ (by decide)),
      continuationBytes_ofNat (Nat.mod_lt _ (by decide)), continuationBytes]
    exact congrArg some (by omega)
  · obtain ⟨hlt, hno, hno', hlead, hbits⟩ := ofNat_lead_four (c.toNat / 262144) (by omega)
    rw [utf8EncodeChar_four (by omega)]
    simp only [List.cons_append, List.nil_append]
    rw [decodeUtf8, if_neg hlt, if_neg hno, if_neg hno', if_pos hlead]
    refine wide_eq ?_ (by omega) hvalid
    rw [hbits, continuationBytes_ofNat (Nat.mod_lt _ (by decide)),
      continuationBytes_ofNat (Nat.mod_lt _ (by decide)),
      continuationBytes_ofNat (Nat.mod_lt _ (by decide)), continuationBytes]
    exact congrArg some (by omega)

/-- What decodes is the encoding of a character. -/
theorem decodeUtf8_some {s : Bytes} {n cp : Nat} (h : decodeUtf8 s = some (n, cp)) :
    ∃ (c : Char) (rest : Bytes), s = String.utf8EncodeChar c ++ rest ∧
      n = (String.utf8EncodeChar c).length ∧ cp = c.toNat := by
  cases s with
  | nil => cases h
  | cons b0 s =>
    rw [decodeUtf8] at h
    split at h
    · rename_i hbyte
      obtain ⟨rfl, rfl⟩ := Prod.mk.inj (Option.some.inj h)
      have hlt : b0.toNat < 0x80 := UInt8.lt_iff_toNat_lt.mp hbyte
      obtain ⟨c, hc⟩ := exists_char (v := b0.toNat) (.inl (by omega))
      have heq := utf8EncodeChar_one (hc ▸ hlt)
      rw [hc, UInt8.ofNat_toNat] at heq
      exact ⟨c, s, by rw [heq]; rfl, by rw [heq]; rfl, hc.symm⟩
    split at h
    · rename_i hlead
      obtain ⟨hx, hb0⟩ := lead_two b0 hlead
      obtain ⟨rfl, hbytes, hmin, hvalid⟩ := wide_some h
      obtain ⟨c, hc⟩ := exists_char hvalid
      obtain ⟨a, ha, t, rfl, hvalue⟩ := continuationBytes_succ hbytes
      generalize (b0 &&& 0x1F).toNat = x at hx hb0 hvalue
      obtain rfl := Option.some.inj hvalue
      have heq := utf8EncodeChar_two (c := c) (by omega) (by omega)
      rw [show c.toNat / 64 = x by omega, show c.toNat % 64 = a by omega, ← hb0] at heq
      exact ⟨c, t, by rw [heq]; rfl, by rw [heq]; rfl, hc.symm⟩
    split at h
    · rename_i hlead
      obtain ⟨hx, hb0⟩ := lead_three b0 hlead
      obtain ⟨rfl, hbytes, hmin, hvalid⟩ := wide_some h
      obtain ⟨c, hc⟩ := exists_char hvalid
      obtain ⟨a, ha, t, rfl, hvalue⟩ := continuationBytes_succ hbytes
      obtain ⟨a', ha', t, rfl, hvalue'⟩ := continuationBytes_succ hvalue
      generalize (b0 &&& 0x0F).toNat = x at hx hb0 hvalue'
      obtain rfl := Option.some.inj hvalue'
      have heq := utf8EncodeChar_three (c := c) (by omega) (by omega)
      rw [show c.toNat / 4096 = x by omega, show c.toNat / 64 % 64 = a by omega,
        show c.toNat % 64 = a' by omega, ← hb0] at heq
      exact ⟨c, t, by rw [heq]; rfl, by rw [heq]; rfl, hc.symm⟩
    split at h
    · rename_i hlead
      obtain ⟨hx, hb0⟩ := lead_four b0 hlead
      obtain ⟨rfl, hbytes, hmin, hvalid⟩ := wide_some h
      obtain ⟨c, hc⟩ := exists_char hvalid
      obtain ⟨a, ha, t, rfl, hvalue⟩ := continuationBytes_succ hbytes
      obtain ⟨a', ha', t, rfl, hvalue'⟩ := continuationBytes_succ hvalue
      obtain ⟨a'', ha'', t, rfl, hvalue''⟩ := continuationBytes_succ hvalue'
      generalize (b0 &&& 0x07).toNat = x at hx hb0 hvalue''
      obtain rfl := Option.some.inj hvalue''
      have heq := utf8EncodeChar_four (c := c) (by omega)
      rw [show c.toNat / 262144 = x by omega, show c.toNat / 4096 % 64 = a by omega,
        show c.toNat / 64 % 64 = a' by omega, show c.toNat % 64 = a'' by omega, ← hb0] at heq
      exact ⟨c, t, by rw [heq]; rfl, by rw [heq]; rfl, hc.symm⟩
    · cases h

end Characters

/-! ### Strings written and read -/

theorem stringBody_character (c : UInt8) (s : Bytes) :
    stringBody 0 (appendReadableString.character c ++ s) =
      (stringBody 0 s).map fun r => (c :: r.1, r.2) := by
  unfold appendReadableString.character
  split_ifs with h1 h2 h3 h4 h5 h6 h7
  · rw [h1]
    rfl
  · rw [h2]
    rfl
  · rw [h3]
    rfl
  · rw [h4]
    rfl
  · rw [h5]
    rfl
  · rw [h6]
    rfl
  · rw [h7]
    rfl
  · rw [List.singleton_append, stringBody, if_neg h1, if_neg h2]

theorem stringBody_readable (bytes rest : Bytes) :
    stringBody 0 (bytes.flatMap appendReadableString.character ++ doubleQuote :: rest) =
      .ok (bytes, rest) := by
  induction bytes with
  | nil => rfl
  | cons c bytes ih =>
    rw [List.flatMap_cons, List.append_assoc, stringBody_character, ih]
    rfl

theorem next_readable (letters : Nat → Bool) (prev : Token) (bytes rest : Bytes) :
    next letters prev (appendReadableString [] bytes ++ rest) = (.string bytes, rest) := by
  have hstart : appendReadableString [] bytes ++ rest =
      doubleQuote :: (bytes.flatMap appendReadableString.character ++ doubleQuote :: rest) := by
    simp [appendReadableString]
  rw [hstart]
  show lexString _ = _
  rw [lexString, stringBody_readable]

/-- What decodes at a position is what encodes a character there, and its code point is appended
as the same bytes; a string written readably is read as the string, whatever follows. -/
theorem decode_append_read (letters : Nat → Bool) :
    (∀ (s : Bytes) (pos : Nat), pos < s.length → ∀ n cp,
      (decodeUtf8 (s.drop pos) = some (n, cp) ↔ ∃ c : Char, cp = c.toNat ∧
        n = (String.utf8EncodeChar c).length ∧ (s.drop pos).take n = String.utf8EncodeChar c) ∧
      (decodeUtf8 (s.drop pos) = some (n, cp) → appendUtf8 cp = (s.drop pos).take n)) ∧
    ∀ (prev : Token) (bytes rest : Bytes),
      next letters prev (appendReadableString [] bytes ++ rest) = (.string bytes, rest) := by
  refine ⟨fun s pos _ n cp => ?_, next_readable letters⟩
  have hencodes : decodeUtf8 (s.drop pos) = some (n, cp) → ∃ c : Char, cp = c.toNat ∧
      n = (String.utf8EncodeChar c).length ∧ (s.drop pos).take n = String.utf8EncodeChar c := by
    intro h
    obtain ⟨c, rest, hs, rfl, rfl⟩ := decodeUtf8_some h
    exact ⟨c, rfl, rfl, by rw [hs, List.take_left]⟩
  refine ⟨⟨hencodes, ?_⟩, ?_⟩
  · rintro ⟨c, rfl, rfl, htake⟩
    rw [← List.take_append_drop (String.utf8EncodeChar c).length (s.drop pos), htake]
    exact decodeUtf8_encoded c _
  · intro h
    obtain ⟨c, rfl, -, htake⟩ := hencodes h
    rw [htake, appendUtf8_toNat]

end ProtoClojure.Reader
