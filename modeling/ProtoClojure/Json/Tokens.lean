import ProtoClojure.Json.Streams

/-! What the parser takes from a string: whitespace, numbers and string contents. -/

namespace ProtoClojure.Json
open Decimal

variable {V E W α β : Type}

/-- On a string, `f` takes `text` when `rest` follows, and answers `a`. -/
def Takes (f : Parse E W α) (text : Bytes) (a : α) (rest : Bytes) : Prop :=
  ∀ r : Reading W, r.reader = none → r.unread = text ++ rest →
    ∃ r', f r = .ok a r' ∧ r'.reader = none ∧ r'.unread = rest ∧ r'.world = r.world

section Rules
variable {f : Parse E W α} {k : α → Parse E W β} {a : α} {b : β} {text t rest : Bytes}

theorem Takes.pure (a : α) : Takes (Pure.pure a : Parse E W α) [] a rest :=
  fun r hr hu => ⟨r, rfl, hr, hu, rfl⟩

theorem Takes.bind (hf : Takes f t a (text ++ rest)) (hk : Takes (k a) text b rest) :
    Takes (f >>= k) (t ++ text) b rest := by
  intro r hr hu
  rw [List.append_assoc] at hu
  obtain ⟨r₁, hf₁, hr₁, hu₁, hw₁⟩ := hf r hr hu
  obtain ⟨r₂, hk₂, hr₂, hu₂, hw₂⟩ := hk r₁ hr₁ hu₁
  refine ⟨r₂, ?_, hr₂, hu₂, hw₂.trans hw₁⟩
  rw [bind_apply, hf₁]
  exact hk₂

theorem Takes.answer (hf : Takes f t a rest) (hk : Takes (k a) [] b rest) :
    Takes (f >>= k) t b rest := by
  rw [← List.append_nil t]
  exact hf.bind hk

theorem Takes.peek {k : Option UInt8 → Parse E W β}
    (hk : Takes (k (text ++ rest).head?) text b rest) : Takes (Json.peek >>= k) text b rest := by
  intro r hr hu
  have hp : (Json.peek : Parse E W _) r = .ok (text ++ rest).head? r := by
    show EStateM.Result.ok r.toSource.peek.1 { r with toSource := r.toSource.peek.2 } = _
    rw [Source.peek_string hr, hu]
  rw [bind_apply, hp]
  exact hk r hr hu

theorem Takes.advance {k : Unit → Parse E W β} (c : UInt8) (hk : Takes (k ()) text b rest) :
    Takes (Json.advance >>= k) (c :: text) b rest := by
  intro r hr hu
  have hd : r.data = c :: (text ++ rest) := (Source.unread_eq_data hr).symm.trans hu
  exact hk (advanced r) hr (Source.unread_advance hd hu)

theorem Takes.newline {k : Unit → Parse E W β} (hk : Takes (k ()) text b rest) :
    Takes (Json.newline >>= k) text b rest :=
  fun r hr hu => hk { r with toSource := r.toSource.newline } hr hu

theorem Takes.fuel {k : Nat → Parse E W β}
    (hk : ∀ n, (text ++ rest).length < n → Takes (k n) text b rest) :
    Takes (Json.fuel >>= k) text b rest := by
  intro r hr hu
  refine hk (r.unread.length + 1) ?_ r hr hu
  rw [hu]
  exact Nat.lt_succ_self _

theorem Takes.sized {k : Nat → Parse E W β}
    (hk : Takes (k ((text ++ rest).length + 1)) text b rest) :
    Takes (Json.fuel >>= k) text b rest := by
  intro r hr hu
  have h := hk r hr hu
  rw [← hu] at h
  exact h

end Rules

/-! ### Runs -/

def isSpace (c : UInt8) : Bool := c == 0x20 || c == 0x09 || c == 0x0D || c == LF

/-- The next byte, if any, does not satisfy `p`. -/
def Stops (p : UInt8 → Bool) (rest : Bytes) : Prop := ∀ c, rest.head? = some c → p c = false

theorem Stops.cons {p : UInt8 → Bool} {c : UInt8} (h : p c = false) (rest : Bytes) :
    Stops p (c :: rest) := fun _ hd => Option.some.inj hd ▸ h

theorem Stops.nil {p : UInt8 → Bool} : Stops p [] := nofun

theorem Stops.any {p : UInt8 → Bool} {rest : Bytes} (h : Stops p rest) :
    rest.head?.any p = false := by
  cases hd : rest.head? with
  | none => rfl
  | some c => exact h c hd

theorem Stops.ne {p : UInt8 → Bool} {rest : Bytes} (h : Stops p rest) {c : UInt8}
    (hc : p c = true) : rest.head? ≠ some c := by
  intro hd
  rw [h c hd] at hc
  cases hc

section Runs
variable {rest : Bytes}

theorem takes_skipWhitespaceLoop (ws : Bytes) (hws : ∀ c ∈ ws, isSpace c = true)
    (hrest : Stops isSpace rest) (n : Nat) (hn : ws.length < n) :
    Takes (skipWhitespaceLoop n : Parse E W Unit) ws () rest := by
  induction ws generalizing n with
  | nil =>
    obtain ⟨n, rfl⟩ := Nat.exists_eq_succ_of_ne_zero (Nat.ne_of_gt hn)
    unfold skipWhitespaceLoop
    refine .peek ?_
    have h1 := hrest.ne (c := 0x20) rfl
    have h2 := hrest.ne (c := 0x09) rfl
    have h3 := hrest.ne (c := 0x0D) rfl
    have h4 := hrest.ne (c := LF) rfl
    rw [List.nil_append, if_neg (by simp [h1, h2, h3]), if_neg h4]
    exact .pure ()
  | cons c ws ih =>
    obtain ⟨n, rfl⟩ := Nat.exists_eq_succ_of_ne_zero (Nat.ne_of_gt (Nat.zero_lt_of_lt hn))
    have hc := hws c List.mem_cons_self
    have ih := ih (fun c hc => hws c (List.mem_cons_of_mem _ hc)) n (Nat.lt_of_succ_lt_succ hn)
    unfold skipWhitespaceLoop
    refine .peek ?_
    rw [List.cons_append, List.head?_cons]
    by_cases hblank : c = 0x20 ∨ c = 0x09 ∨ c = 0x0D
    · rw [if_pos (by simpa using hblank)]
      exact .advance c ih
    · have hlf : c = LF := by
        simp only [isSpace, Bool.or_eq_true, beq_iff_eq] at hc
        tauto
      rw [if_neg (by simpa using hblank), if_pos (by rw [hlf])]
      exact .advance c (.newline ih)

theorem takes_skipWhitespace {ws : Bytes} (hws : ∀ c ∈ ws, isSpace c = true)
    (hrest : Stops isSpace rest) : Takes (skipWhitespace : Parse E W Unit) ws () rest := by
  refine .fuel fun n hn => takes_skipWhitespaceLoop ws hws hrest n ?_
  rw [List.length_append] at hn
  omega

theorem takes_copyWhileLoop {p : UInt8 → Bool} (t : Bytes) (ht : ∀ c ∈ t, p c = true)
    (hrest : Stops p rest) (n : Nat) (hn : t.length < n) (out : Bytes) :
    Takes (copyWhileLoop p n out : Parse E W Bytes) t (out ++ t) rest := by
  induction t generalizing n out with
  | nil =>
    obtain ⟨n, rfl⟩ := Nat.exists_eq_succ_of_ne_zero (Nat.ne_of_gt hn)
    unfold copyWhileLoop
    refine .peek ?_
    rw [List.nil_append, List.append_nil]
    cases hd : rest.head? with
    | none => exact .pure out
    | some c =>
      dsimp only
      rw [hrest c hd, if_neg Bool.false_ne_true]
      exact .pure out
  | cons c t ih =>
    obtain ⟨n, rfl⟩ := Nat.exists_eq_succ_of_ne_zero (Nat.ne_of_gt (Nat.zero_lt_of_lt hn))
    have ih := ih (fun c hc => ht c (List.mem_cons_of_mem _ hc)) n (Nat.lt_of_succ_lt_succ hn)
      (out ++ [c])
    rw [List.append_assoc] at ih
    unfold copyWhileLoop
    refine .peek ?_
    rw [List.cons_append, List.head?_cons]
    dsimp only
    rw [if_pos (ht c List.mem_cons_self)]
    exact .advance c ih

theorem takes_copyWhile {p : UInt8 → Bool} {t : Bytes} (ht : ∀ c ∈ t, p c = true)
    (hrest : Stops p rest) : Takes (copyWhile p : Parse E W Bytes) t t rest := by
  refine .fuel fun n hn => takes_copyWhileLoop t ht hrest n ?_ []
  rw [List.length_append] at hn
  omega

theorem takes_wordLoop (w seen : Bytes) :
    Takes (wordLoop w seen : Parse E W Bytes) w (seen ++ w) rest := by
  induction w generalizing seen with
  | nil =>
    rw [List.append_nil]
    exact .pure seen
  | cons p w ih =>
    have ih := ih (seen ++ [p])
    rw [List.append_assoc] at ih
    unfold wordLoop
    refine .peek ?_
    rw [List.cons_append, List.head?_cons, if_pos rfl]
    exact .advance p ih

theorem takes_word (w : Bytes) (hrest : Stops (fun c => isLetter c || isDigit c) rest) :
    Takes (word w : Parse E W Unit) w () rest := by
  refine (takes_wordLoop w []).answer (.peek ?_)
  rw [List.nil_append, hrest.any, if_neg Bool.false_ne_true]
  exact .pure ()

end Runs

/-! ### Numbers -/

section Numbers
variable {rest : Bytes}

theorem takes_minus : Takes (minus : Parse E W Bytes) [0x2D] [0x2D] rest := by
  refine .peek ?_
  rw [List.cons_append, List.head?_cons, if_pos rfl]
  exact .advance _ (.pure _)

theorem takes_no_minus (h : rest.head? ≠ some 0x2D) :
    Takes (minus : Parse E W Bytes) [] [] rest := by
  refine .peek ?_
  rw [List.nil_append, if_neg h]
  exact .pure _

theorem takes_integerPart {int : Bytes} (hne : int ≠ []) (hint : ∀ c ∈ int, isDigit c = true)
    (hfirst : int = [0x30] ∨ int.head? ≠ some 0x30) (hrest : Stops isDigit rest) :
    Takes (integerPart : Parse E W Bytes) int int rest := by
  obtain ⟨c, ds, rfl⟩ := List.exists_cons_of_ne_nil hne
  refine .peek ?_
  rw [List.cons_append, List.head?_cons]
  rcases hfirst with h | h
  · obtain ⟨rfl, rfl⟩ := List.cons.inj h
    rw [if_pos rfl]
    refine .advance _ (.peek ?_)
    rw [List.nil_append, hrest.any, if_neg Bool.false_ne_true]
    exact .pure _
  · rw [List.head?_cons] at h
    rw [if_neg h, Option.any_some, if_pos (hint c List.mem_cons_self)]
    exact takes_copyWhile hint hrest

theorem takes_fractionPart {frac : Bytes} (hne : frac ≠ []) (hfrac : ∀ c ∈ frac, isDigit c = true)
    (hrest : Stops isDigit rest) :
    Takes (fractionPart : Parse E W Bytes) (0x2E :: frac) (0x2E :: frac) rest := by
  obtain ⟨c, ds, rfl⟩ := List.exists_cons_of_ne_nil hne
  refine .peek ?_
  rw [List.cons_append, List.head?_cons, if_pos rfl]
  refine .advance _ (.peek ?_)
  rw [List.cons_append, List.head?_cons, Option.any_some, if_pos (hfrac c List.mem_cons_self)]
  exact (takes_copyWhile hfrac hrest).answer (.pure _)

theorem takes_no_fractionPart (h : rest.head? ≠ some 0x2E) :
    Takes (fractionPart : Parse E W Bytes) [] [] rest := by
  refine .peek ?_
  rw [List.nil_append, if_neg h]
  exact .pure _

theorem takes_exponentSign {sign digits : Bytes} (hne : digits ≠ [])
    (hdig : ∀ c ∈ digits, isDigit c = true)
    (hsign : sign = [] ∨ sign = [0x2B] ∨ sign = [0x2D]) :
    Takes (exponentSign : Parse E W Bytes) sign sign (digits ++ rest) := by
  refine .peek ?_
  rcases hsign with rfl | rfl | rfl
  · obtain ⟨c, ds, rfl⟩ := List.exists_cons_of_ne_nil hne
    have hc := hdig c List.mem_cons_self
    rw [List.nil_append, List.cons_append, List.head?_cons]
    dsimp only
    rw [if_neg (by rintro (rfl | rfl) <;> cases hc)]
    exact .pure _
  · exact .advance _ (.pure _)
  · exact .advance _ (.pure _)

theorem takes_exponentPart {e : Int} {t : Bytes} (h : Numeral.ExponentText e t)
    (hrest : Stops isDigit rest) :
    ∃ t', Numeral.ExponentText e t' ∧ Takes (exponentPart : Parse E W Bytes) t t' rest := by
  obtain ⟨letter, sign, digits, rfl, hletter, hne, hdig, hs⟩ := h
  have hsign : sign = [] ∨ sign = [0x2B] ∨ sign = [0x2D] := by tauto
  refine ⟨0x65 :: (sign ++ digits), ⟨_, _, _, rfl, .inl rfl, hne, hdig, hs⟩, .peek ?_⟩
  rw [List.cons_append, List.head?_cons,
    if_pos (by simpa using hletter)]
  refine .advance _ (.bind (takes_exponentSign hne hdig hsign) (.peek ?_))
  obtain ⟨c, ds, rfl⟩ := List.exists_cons_of_ne_nil hne
  rw [List.cons_append, List.head?_cons, Option.any_some, if_pos (hdig c List.mem_cons_self)]
  exact (takes_copyWhile hdig hrest).answer (.pure _)

theorem takes_no_exponentPart (h : Stops isLetter rest) :
    Takes (exponentPart : Parse E W Bytes) [] [] rest := by
  refine .peek ?_
  have h1 := h.ne (c := 0x65) rfl
  have h2 := h.ne (c := 0x45) rfl
  rw [List.nil_append, if_neg (by simp [h1, h2])]
  exact .pure _

/-- What may not follow a number. -/
def inNumber (c : UInt8) : Bool := isLetter c || isDigit c || c == 0x2E || c == 0x5F

theorem Stops.mono {p q : UInt8 → Bool} (h : Stops p rest) (hq : ∀ c, q c = true → p c = true) :
    Stops q rest := by
  intro c hc
  by_contra hqc
  have hp := hq c (by simpa using hqc)
  rw [h c hc] at hp
  cases hp

theorem number_ends (H : Host V E W) (isFloat : Bool) (t : Bytes) (h : Stops inNumber rest) :
    Takes (do
      let c ← peek
      if c.any isLetter ∨ c = some 0x2E ∨ c = some 0x5F then do
        let found ← describeCurrent
        fail ("invalid number, unexpected " ++ found)
      else return numberValue H isFloat t : Parse E W V) [] (numberValue H isFloat t) rest := by
  refine .peek ?_
  have h1 : Stops isLetter rest := h.mono fun c hc => by simp [inNumber, hc]
  have h2 := h.ne (c := 0x2E) rfl
  have h3 := h.ne (c := 0x5F) rfl
  rw [List.nil_append, if_neg (by simp [h1.any, h2, h3])]
  exact .pure _

/-- A sign or nothing before the digits `int`. -/
theorem takes_sign {sign int : Bytes} (hsign : sign = [] ∨ sign = [0x2D]) (hne : int ≠ [])
    (hint : ∀ c ∈ int, isDigit c = true) :
    Takes (minus : Parse E W Bytes) sign sign (int ++ rest) := by
  rcases hsign with rfl | rfl
  · apply takes_no_minus
    obtain ⟨c, ds, rfl⟩ := List.exists_cons_of_ne_nil hne
    have hc := hint c List.mem_cons_self
    rw [List.cons_append, List.head?_cons]
    rintro h
    rw [Option.some.inj h] at hc
    cases hc
  · exact takes_minus

theorem takes_integer (H : Host V E W) {sign int : Bytes} (hsign : sign = [] ∨ sign = [0x2D])
    (hne : int ≠ []) (hint : ∀ c ∈ int, isDigit c = true)
    (hfirst : int = [0x30] ∨ int.head? ≠ some 0x30) (hrest : Stops inNumber rest) :
    Takes (number H) (sign ++ int) (numberValue H false (sign ++ int)) rest := by
  have hdigit : Stops isDigit rest := hrest.mono fun c hc => by simp [inNumber, hc]
  have hletter : Stops isLetter rest := hrest.mono fun c hc => by simp [inNumber, hc]
  unfold number
  refine .bind (takes_sign hsign hne hint) ?_
  refine (takes_integerPart hne hint hfirst hdigit).answer ?_
  refine (takes_no_fractionPart (hrest.ne rfl)).answer ?_
  refine (takes_no_exponentPart hletter).answer ?_
  simpa using number_ends H false (sign ++ int) hrest

theorem takes_fractionText (x : Numeral) (hdigit : Stops isDigit rest)
    (hpoint : rest.head? ≠ some 0x2E) :
    Takes (fractionPart : Parse E W Bytes) x.fractionText x.fractionText rest := by
  unfold Numeral.fractionText
  split
  · exact takes_no_fractionPart hpoint
  · rename_i hne
    exact takes_fractionPart hne x.frac_digits hdigit

/-- A decimal with a fraction or an exponent is read from a spelling of the same decimal. -/
theorem takes_float (H : Host V E W) {sign t : Bytes} {x : Numeral}
    (hsign : sign = [] ∨ sign = [0x2D]) (ht : x.Spells t) (hlong : t ≠ x.int)
    (hfirst : x.int = [0x30] ∨ x.int.head? ≠ some 0x30) (hrest : Stops inNumber rest) :
    ∃ t', x.Spells t' ∧ Takes (number H) (sign ++ t) (numberValue H true (sign ++ t')) rest := by
  have hdigit : Stops isDigit rest := hrest.mono fun c hc => by simp [inNumber, hc]
  have hletter : Stops isLetter rest := hrest.mono fun c hc => by simp [inNumber, hc]
  obtain ⟨e, rfl, he⟩ := ht
  have hexp : ∃ e', (e' = [] ∧ x.exp = 0 ∨ Numeral.ExponentText x.exp e') ∧
      Takes (exponentPart : Parse E W Bytes) e e' rest ∧ Stops isDigit (e ++ rest) ∧
      (e ++ rest).head? ≠ some 0x2E ∧ (e' = [] → e = []) := by
    rcases he with ⟨rfl, h0⟩ | he
    · exact ⟨[], .inl ⟨rfl, h0⟩, takes_no_exponentPart hletter, hdigit, hrest.ne rfl, fun _ => rfl⟩
    · obtain ⟨e', he', htakes⟩ := takes_exponentPart (E := E) (W := W) he hdigit
      obtain ⟨letter, sign, digits, rfl, hl, -⟩ := he
      refine ⟨e', .inr he', htakes, ?_, ?_, ?_⟩
      · rcases hl with rfl | rfl <;> exact .cons rfl _
      · rcases hl with rfl | rfl <;> exact fun h => absurd (Option.some.inj h) (by decide)
      · rintro rfl
        obtain ⟨_, _, _, h, -⟩ := he'
        cases h
  obtain ⟨e', he', htakes, hstop, hpoint, hnil⟩ := hexp
  have hfloat : (x.fractionText ≠ [] || e' ≠ []) = true := by
    by_cases hfrac : x.fractionText = []
    · have he' : e' ≠ [] := fun h => hlong (by rw [hfrac, hnil h]; simp)
      simp [he']
    · simp [hfrac]
  have hstart : Stops isDigit (x.fractionText ++ (e ++ rest)) := by
    unfold Numeral.fractionText
    split
    · exact hstop
    · exact .cons rfl _
  refine ⟨_, ⟨e', rfl, he'⟩, ?_⟩
  unfold number
  have htext : sign ++ (x.int ++ x.fractionText ++ e) =
      sign ++ (x.int ++ (x.fractionText ++ e)) := by simp
  rw [htext]
  refine .bind (by
    rw [List.append_assoc]
    exact takes_sign hsign x.int_ne x.int_digits) ?_
  refine .bind (takes_integerPart x.int_ne x.int_digits hfirst (by rwa [List.append_assoc])) ?_
  refine .bind (takes_fractionText x hstop hpoint) ?_
  refine htakes.answer ?_
  rw [hfloat]
  simpa using number_ends H true (sign ++ (x.int ++ x.fractionText ++ e')) hrest

/-- A decimal with a fraction is read from a spelling of the same decimal. -/
theorem takes_decimal (H : Host V E W) {sign t : Bytes} {x : Numeral}
    (hsign : sign = [] ∨ sign = [0x2D]) (ht : x.Spells t) (hfrac : x.frac ≠ [])
    (hfirst : x.int = [0x30] ∨ x.int.head? ≠ some 0x30) (hrest : Stops inNumber rest) :
    ∃ t', x.Spells t' ∧ Takes (number H) (sign ++ t) (numberValue H true (sign ++ t')) rest := by
  refine takes_float H hsign ht ?_ hfirst hrest
  obtain ⟨e, rfl, -⟩ := ht
  rw [Numeral.fractionText, if_neg hfrac]
  simp

end Numbers

end ProtoClojure.Json
