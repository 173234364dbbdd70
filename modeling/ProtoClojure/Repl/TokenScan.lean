import ProtoClojure.Reader.Spacing
import ProtoClojure.Repl.Balance

/-! The scan, token by token. -/
namespace ProtoClojure.Repl
open Reader Decimal

/-! ### What the scan makes of a token -/

def Depth.after (d : Depth) : Token → Option Depth
  | .lparen | .hashLParen => d.delimiter 0x28
  | .rparen => d.delimiter 0x29
  | .lbracket => d.delimiter 0x5B
  | .rbracket => d.delimiter 0x5D
  | .lbrace | .hashLBrace => d.delimiter 0x7B
  | .rbrace => d.delimiter 0x7D
  | _ => some d

/-- Whether a `'` right after the token is taken for a quote; it is at the start. -/
def opensMacro : Token → Bool
  | .lparen | .hashLParen | .lbracket | .lbrace | .hashLBrace
  | .quote | .backtick | .tilde | .tildeAt | .deref | .endOfFile => true
  | _ => false

/-- Whether the scan takes the token for a macro without its form; `before` tells whether a `'`
there is taken for a quote. -/
def looksPending (before : Bool) : Token → Bool
  | .quote => before
  | .backtick | .tilde | .tildeAt | .deref => true
  | .symbol text => endsTwice text
  | _ => false

/-- The character at the end of the token. -/
def Follows (t : Token) (b : Option UInt8) : Prop :=
  t.isSymbol = false → b.all endsBeforeMacro = opensMacro t

section
variable {letters : Nat → Bool} {d : Depth} {p : Bool} {b : Option UInt8} {c : UInt8}
  {s r text : Bytes} {t prev : Token} {spaceBefore : Bool}

/-- What the scan answers after the token `t`, the text `r` left. -/
def After (d : Depth) (before : Bool) (t : Token) (r : Bytes) (answer : Balance) : Prop :=
  ∃ b', Follows t b' ∧ answer =
    (d.after t).elim .error fun d' => scanFrom (code d' (looksPending before t) b') r

/-- The characters that are tokens to the scan. -/
def singles : Bytes := [0x28, 0x29, 0x5B, 0x5D, 0x7B, 0x7D, 0x60, 0x7E, 0x40, apostrophe]

theorem scan_single (hc : c ∈ singles) (s : Bytes) :
    scanFrom (code d p b) (c :: s) = (d.delimiter c).elim .error fun d' =>
      scanFrom (code d' (macroPending (code d p b) c) (some c)) s := by
  have hfacts : ∀ c ∈ singles, c ≠ 0x3B ∧ c ≠ hash ∧ c ≠ doubleQuote ∧
      c ≠ backslash ∧ (isSpace c || c == 0x2C) = false := by decide
  obtain ⟨hsemi, hhash, hquote, hslash, hspace⟩ := hfacts c hc
  have hcomment : startsComment c s.head? = false := by
    rw [startsComment, beq_false_of_ne hsemi, beq_false_of_ne hhash]
    rfl
  have hstep : (code d p b).step c s.head? = (d.delimiter c).map fun d' =>
      code d' (macroPending (code d p b) c) (some c) := by
    show (if startsComment c s.head? then _ else _) = _
    rw [hcomment, if_neg Bool.false_ne_true, if_neg hquote, if_neg hslash, hspace]
    rfl
  rw [scanFrom, hstep]
  cases d.delimiter c <;> rfl

theorem scan_hash (hs : s.head? ≠ some 0x21) :
    scanFrom (code d p b) (hash :: s) = scanFrom (code d false (some hash)) s := by
  have hcomment : startsComment hash s.head? = false := by
    cases hn : (s.head? == some 0x21) with
    | false =>
      rw [startsComment, hn]
      rfl
    | true => exact absurd (beq_iff_eq.mp hn) hs
  apply scan_cons
  show (if startsComment hash s.head? then _ else _) = _
  rw [hcomment]
  rfl

theorem scan_quote (s : Bytes) :
    scanFrom (code d p b) (doubleQuote :: s) = scanFrom (str d (some doubleQuote)) s :=
  scan_cons rfl

/-! ### Numbers -/

theorem takeChars_forall {length : Bytes → Nat} {P : UInt8 → Prop}
    (h : ∀ s n, length s = n + 1 → ∀ b ∈ s.take (n + 1), P b) (skip : Nat) (s : Bytes)
    (hskip : ∀ b ∈ s.take skip, P b) : ∀ b ∈ (takeChars length skip s).1, P b := by
  induction s generalizing skip with
  | nil =>
    intro b hb
    cases skip <;> cases hb
  | cons c s ih =>
    have hgo : ∀ n, P c → (∀ b ∈ s.take n, P b) →
        ∀ b ∈ c :: (takeChars length n s).1, P b := by
      intro n hc hs b hb
      rcases List.mem_cons.mp hb with rfl | hb
      · exact hc
      · exact ih n hs b hb
    cases skip with
    | zero =>
      rw [takeChars]
      cases hn : length (c :: s) with
      | zero => exact fun b hb => by cases hb
      | succ n =>
        have hall := h (c :: s) n hn
        rw [List.take_succ_cons] at hall
        exact hgo n (hall c List.mem_cons_self) fun b hb => hall b (List.mem_cons_of_mem c hb)
    | succ skip =>
      rw [List.take_succ_cons] at hskip
      exact hgo skip (hskip c List.mem_cons_self) fun b hb => hskip b (List.mem_cons_of_mem c hb)

theorem digits_plain (s : Bytes) : ∀ e ∈ (takeDigits s).1, isPlain e = true := by
  apply takeChars_forall
  · intro s n hn e he
    cases s with
    | nil => cases hn
    | cons c s =>
      rw [digitLength] at hn
      split at hn
      · rename_i hc
        obtain rfl : n = 0 := by omega
        obtain rfl : e = c := by simpa using he
        exact plain_alnum e (by rw [isAlnum, hc, Bool.true_or])
      · cases hn
  · exact fun e he => by cases he

theorem takeDigits_eq (s : Bytes) : s = (takeDigits s).1 ++ (takeDigits s).2 := takeChars_eq 0 s

theorem fraction_plain (s : Bytes) : s = (takeFraction s).1 ++ (takeFraction s).2 ∧
    ∀ e ∈ (takeFraction s).1, isPlain e = true := by
  cases s with
  | nil => exact ⟨rfl, fun e he => by cases he⟩
  | cons c s =>
    rw [takeFraction]
    split
    · rename_i hc
      refine ⟨congrArg (c :: ·) (takeDigits_eq s), fun e he => ?_⟩
      rcases List.mem_cons.mp he with rfl | he
      · rw [hc.1]
        decide
      · exact digits_plain s e he
    · exact ⟨rfl, fun e he => by cases he⟩

theorem sign_plain (s : Bytes) : s = (takeSign s).1 ++ (takeSign s).2 ∧
    ∀ e ∈ (takeSign s).1, isPlain e = true := by
  cases s with
  | nil => exact ⟨rfl, fun e he => by cases he⟩
  | cons c s =>
    rw [takeSign]
    split
    · rename_i hc
      refine ⟨rfl, fun e he => ?_⟩
      obtain rfl : e = c := by simpa using he
      rcases hc with rfl | rfl
      · decide
      · decide
    · exact ⟨rfl, fun e he => by cases he⟩

theorem suffix_plain (isFloat : Bool) (s : Bytes) :
    s = (takeSuffix isFloat s).1 ++ (takeSuffix isFloat s).2 ∧
    ∀ e ∈ (takeSuffix isFloat s).1, isPlain e = true := by
  cases s with
  | nil => exact ⟨rfl, fun e he => by cases he⟩
  | cons c s =>
    rw [takeSuffix]
    split
    · rename_i hc
      refine ⟨rfl, fun e he => ?_⟩
      obtain rfl : e = c := by simpa using he
      rw [hc.2]
      decide
    · exact ⟨rfl, fun e he => by cases he⟩

theorem exponent_plain {e : Bytes} (h : takeExponent s = .ok (e, r)) : s = e ++ r ∧
    ∀ c ∈ e, isPlain c = true := by
  cases s with
  | nil =>
    cases h
    exact ⟨rfl, fun c hc => by cases hc⟩
  | cons c s =>
    rw [takeExponent] at h
    split at h
    · rename_i hc
      dsimp only at h
      split at h
      · obtain ⟨hsign, hplain⟩ := sign_plain s
        have hdigits := takeDigits_eq (takeSign s).2
        cases h
        refine ⟨?_, fun e he => ?_⟩
        · show c :: s = c :: (takeSign s).1 ++ (takeDigits (takeSign s).2).1 ++
            (takeDigits (takeSign s).2).2
          rw [List.append_assoc, ← hdigits, List.cons_append, ← hsign]
        · have he : e ∈ c :: (takeSign s).1 ++ (takeDigits (takeSign s).2).1 := he
          rw [List.cons_append, List.mem_cons, List.mem_append] at he
          rcases he with rfl | he | he
          · rcases hc with rfl | rfl
            · decide
            · decide
          · exact hplain e he
          · exact digits_plain _ e he
      · cases h
    · cases h
      exact ⟨rfl, fun c hc => by cases hc⟩

/-- The bytes of a number. -/
theorem number_plain {negative : Bool} (h : lexNumber letters negative s = (t, r))
    (ht : t.isLast = false) : ∃ used, s = used ++ r ∧ (∀ e ∈ used, isPlain e = true) ∧
      ∃ isFloat text, t = numberToken isFloat text := by
  obtain ⟨N, rfl, rfl⟩ := exists_parts h ht
  have hdigits := takeDigits_eq s
  have hdigitsPlain := digits_plain s
  rw [N.takeDigits_eq] at hdigits hdigitsPlain
  obtain ⟨hfraction, hfractionPlain⟩ := fraction_plain N.afterDigits
  rw [N.takeFraction_eq] at hfraction hfractionPlain
  obtain ⟨hexponent, hexponentPlain⟩ := exponent_plain N.takeExponent_eq
  obtain ⟨hsuffix, hsuffixPlain⟩ :=
    suffix_plain (N.fraction ≠ [] || N.exponent ≠ []) N.afterExponent
  rw [N.takeSuffix_eq] at hsuffix hsuffixPlain
  refine ⟨N.digits ++ N.fraction ++ N.exponent ++ N.suffix, ?_, ?_, _, _, rfl⟩
  · dsimp only at hdigits hfraction hsuffix
    calc s = N.digits ++ N.afterDigits := hdigits
      _ = N.digits ++ (N.fraction ++ (N.exponent ++ (N.suffix ++ N.rest))) := by
        rw [hfraction, hexponent, hsuffix]
      _ = N.digits ++ N.fraction ++ N.exponent ++ N.suffix ++ N.rest := by
        simp only [List.append_assoc]
  · intro e he
    simp only [List.mem_append] at he
    rcases he with ((he | he) | he) | he
    · exact hdigitsPlain e he
    · exact hfractionPlain e he
    · exact hexponentPlain e he
    · exact hsuffixPlain e he

/-- A token of plain characters. -/
theorem after_plain {used : Bytes} (h : ∀ e ∈ used, isPlain e = true) (hne : used ≠ [])
    (hd : d.after t = some d) (hpending : ∀ before, looksPending before t = false)
    (hopens : opensMacro t = false) (before : Bool) :
    After d before t r (scanFrom (code d p b) (used ++ r)) := by
  obtain ⟨e, he, hscan⟩ := scan_plain (d := d) (p := p) (b := b) (r := r) h hne
  refine ⟨some e, fun _ => ?_, ?_⟩
  · rw [hopens]
    exact (plain_facts he).2.2.2.2.2.2.2.2.2.2.2
  · rw [hd, hpending, hscan]
    rfl

theorem after_number {negative : Bool} (h : lexNumber letters negative s = (t, r))
    (ht : t.isLast = false) {front : Bytes} (hfront : ∀ e ∈ front, isPlain e = true)
    (hne : front ≠ [] ∨ r.length < s.length) (before : Bool) :
    After d before t r (scanFrom (code d p b) (front ++ s)) := by
  obtain ⟨used, hs, hplain, isFloat, text, rfl⟩ := number_plain h ht
  rw [hs, ← List.append_assoc]
  have hall : ∀ e ∈ front ++ used, isPlain e = true := by
    intro e he
    rcases List.mem_append.mp he with he | he
    · exact hfront e he
    · exact hplain e he
  have hused : front ++ used ≠ [] := by
    intro hnil
    obtain ⟨hfrontNil, husedNil⟩ := List.append_eq_nil_iff.mp hnil
    rcases hne with hne | hlt
    · exact hne hfrontNil
    · rw [hs, husedNil] at hlt
      exact absurd hlt (Nat.lt_irrefl _)
  have htoken : ∀ isFloat text, d.after (numberToken isFloat text) = some d ∧
      (∀ before, looksPending before (numberToken isFloat text) = false) ∧
      opensMacro (numberToken isFloat text) = false := by
    intro isFloat text
    cases isFloat with
    | true => exact ⟨rfl, fun _ => rfl, rfl⟩
    | false => exact ⟨rfl, fun _ => rfl, rfl⟩
  obtain ⟨hd, hpending, hopens⟩ := htoken isFloat text
  exact after_plain hall hused hd hpending hopens before

/-! ### Symbols -/

theorem continuation_high {n v w : Nat} (h : continuationBytes n v s = some w) :
    ∀ e ∈ s.take n, ¬ e < 0x80 := by
  induction n generalizing v s with
  | zero => exact fun e he => by cases he
  | succ n ih =>
    cases s with
    | nil => cases h
    | cons c s =>
      rw [continuationBytes] at h
      split at h
      · rename_i hc
        intro e he
        rw [List.take_succ_cons] at he
        rcases List.mem_cons.mp he with rfl | he
        · exact fun hlow => not_continuation hlow hc
        · exact ih h e he
      · cases h

/-- The bytes of a character beyond ASCII. -/
theorem decodeUtf8_high {q : Nat × Nat} (h : decodeUtf8 (c :: s) = some q) (hc : ¬ c < 0x80) :
    ∀ e ∈ (c :: s).take q.1, ¬ e < 0x80 := by
  have hwide : ∀ {len minimum : Nat} {bits : UInt8}, 1 < len →
      decodeUtf8.wide len bits minimum s = some q → ∀ e ∈ (c :: s).take q.1, ¬ e < 0x80 := by
    intro len minimum bits hlen h
    have hq := (wide_length hlen h).1
    unfold decodeUtf8.wide at h
    cases hv : continuationBytes (len - 1) bits.toNat s with
    | none =>
      rw [hv] at h
      cases h
    | some v =>
      obtain ⟨k, rfl⟩ : ∃ k, len = k + 1 := ⟨len - 1, by omega⟩
      rw [hq, List.take_succ_cons]
      intro e he
      rcases List.mem_cons.mp he with rfl | he
      · exact hc
      · exact continuation_high hv e he
  rw [decodeUtf8, if_neg hc] at h
  split_ifs at h
  · exact hwide (by decide) h
  · exact hwide (by decide) h
  · exact hwide (by decide) h

theorem symbolChar_inSymbol {n : Nat} (h : symbolCharLength letters s = n + 1) :
    ∀ e ∈ s.take (n + 1), inSymbol e = true := by
  cases s with
  | nil => cases h
  | cons c s =>
    rw [symbolCharLength] at h
    split at h
    · split at h
      · rename_i hc
        obtain rfl : n = 0 := by omega
        intro e he
        obtain rfl : e = c := by simpa using he
        exact inSymbol_ascii e hc
      · cases h
    · rename_i hc
      cases hd : decodeUtf8 (c :: s) with
      | none =>
        rw [hd] at h
        cases h
      | some q =>
        rw [hd] at h
        dsimp only at h
        split at h
        · intro e he
          have hplain := plain_high e (decodeUtf8_high hd hc e (by rwa [h]))
          rw [inSymbol, hplain]
          rfl
        · cases h

theorem symbolNext_inSymbol {n : Nat} (h : symbolNextLength letters s = n + 1) :
    ∀ e ∈ s.take (n + 1), inSymbol e = true := by
  unfold symbolNextLength at h
  split at h
  · rename_i hs
    obtain rfl : n = 0 := by omega
    cases s with
    | nil => cases hs
    | cons c s =>
      obtain rfl : c = hash := Option.some.inj hs
      intro e he
      obtain rfl : e = hash := by simpa using he
      decide
  · exact symbolChar_inSymbol h

theorem after_symbol {n : Nat} (hn : symbolCharLength letters (c :: s) = n + 1)
    (hc : c ≠ apostrophe ∧ c ≠ hash) (h : lexSymbol letters c n s = (t, r))
    (hbang : ∀ text, t = .symbol text → hashBang text = false) (before : Bool) :
    After d before t r (scanFrom (code d p b) (c :: s)) := by
  have hfirst := symbolChar_inSymbol hn
  rw [List.take_succ_cons] at hfirst
  have hcIn := hfirst c List.mem_cons_self
  have hplain : isPlain c = true := by
    rw [inSymbol, beq_false_of_ne hc.1, beq_false_of_ne hc.2, Bool.or_false, Bool.or_false] at hcIn
    exact hcIn
  have htext : ∀ e ∈ (takeChars (symbolNextLength letters) n s).1, inSymbol e = true :=
    takeChars_forall (fun _ _ => symbolNext_inSymbol) n s
      fun e he => hfirst e (List.mem_cons_of_mem c he)
  have hend := takeChars_end (measures_symbolNext : Measures (symbolNextLength letters))
    (Nat.le_of_succ_le_succ (symbolCharLength_le hn))
  have heq : s = (takeChars (symbolNextLength letters) n s).1 ++
      (takeChars (symbolNextLength letters) n s).2 := takeChars_eq n s
  cases h
  generalize (takeChars (symbolNextLength letters) n s).1 = text at *
  generalize (takeChars (symbolNextLength letters) n s).2 = r at *
  have hr : r.head? ≠ some 0x21 := by
    intro hbang'
    cases r with
    | nil => cases hbang'
    | cons e r =>
      obtain rfl : e = 0x21 := Option.some.inj hbang'
      rcases hend with hend | hend
      · cases hend
      · cases hend
  obtain ⟨e, he, hscan⟩ := scan_symbol (d := d) (p := false) htext hcIn (hbang _ rfl) hr
  refine ⟨some e, fun hsymbol => (by cases hsymbol), ?_⟩
  rw [heq, scan_cons (step_plain hplain _), hscan]
  have hpending : (if text = [] then false else endsTwice (c :: text)) = endsTwice (c :: text) := by
    split
    · rename_i htextNil
      rw [htextNil]
      exact (decide_eq_false (by simp)).symm
    · rfl
  rw [hpending]
  rfl

/-! ### The other tokens -/

theorem after_string (h : lexString s = (t, r)) (ht : t.isLast = false) (before : Bool) :
    After d before t r (scanFrom (str d b) s) := by
  unfold lexString at h
  cases hbody : stringBody 0 s with
  | error e =>
    rw [hbody] at h
    cases h
    cases ht
  | ok q =>
    rw [hbody] at h
    cases h
    exact ⟨some doubleQuote, fun _ => rfl, (scan_stringBody b s).1 q.1 q.2 hbody⟩

theorem after_regex (h : lexRegex s = (t, r)) (ht : t.isLast = false) (before : Bool) :
    After d before t r (scanFrom (str d b) s) := by
  unfold lexRegex at h
  cases hbody : regexBody false s with
  | error e =>
    rw [hbody] at h
    cases h
    cases ht
  | ok q =>
    rw [hbody] at h
    cases h
    exact ⟨some doubleQuote, fun _ => rfl, (scan_regexBody false b s).1 q.1 q.2 hbody⟩

/-- The names of the symbolic values. -/
theorem lexSymbolicValue_names (h : lexSymbolicValue letters s = (t, r)) (ht : t.isLast = false) :
    ∃ literal, t = .float literal ∧ ∃ name, (name = ascii "Inf" ∨ name = ascii "-Inf" ∨
      name = ascii "NaN") ∧ skipWhitespaceAndComments s = name ++ r := by
  have heq : skipWhitespaceAndComments s = (takeSymbol letters (skipWhitespaceAndComments s)).1 ++
      (takeSymbol letters (skipWhitespaceAndComments s)).2 := takeChars_eq 0 _
  unfold lexSymbolicValue at h
  dsimp only at h
  split_ifs at h with _ hinf hneg hnan
  · cases h
    cases ht
  · cases h
    exact ⟨_, rfl, _, .inl hinf, heq⟩
  · cases h
    exact ⟨_, rfl, _, .inr (.inl hneg), heq⟩
  · cases h
    exact ⟨_, rfl, _, .inr (.inr hnan), heq⟩
  · cases h
    cases ht

theorem after_symbolicValue (h : lexSymbolicValue letters s = (t, r)) (ht : t.isLast = false)
    (before : Bool) : After d before t r (scanFrom (code d p b) (hash :: hash :: s)) := by
  obtain ⟨literal, rfl, name, hname, heq⟩ := lexSymbolicValue_names h ht
  have hplain : name ≠ [] ∧ name.head? ≠ some 0x21 ∧ ∀ e ∈ name, isPlain e = true := by
    have hinf : ascii "Inf" = [0x49, 0x6E, 0x66] := rfl
    have hneg : ascii "-Inf" = [dash, 0x49, 0x6E, 0x66] := rfl
    have hnan : ascii "NaN" = [0x4E, 0x61, 0x4E] := rfl
    rcases hname with rfl | rfl | rfl
    · rw [hinf]
      decide
    · rw [hneg]
      decide
    · rw [hnan]
      decide
  have hbang : s.head? ≠ some 0x21 := by
    intro hs
    cases s with
    | nil => cases hs
    | cons c s =>
      obtain rfl : c = 0x21 := Option.some.inj hs
      have hskip : skipWhitespaceAndComments (0x21 :: s) = 0x21 :: s := rfl
      rw [hskip] at heq
      cases name with
      | nil => exact hplain.1 rfl
      | cons e name =>
        cases heq
        exact hplain.2.1 rfl
  have hhash : (hash :: s : Bytes).head? ≠ some 0x21 := by
    intro hs
    exact absurd (Option.some.inj hs) (by decide)
  obtain ⟨b', hscan, -⟩ := scan_skipBlank (d := d) (p := false) (b := some hash) false s
  rw [if_neg Bool.false_ne_true] at hscan
  have hskip : skipBlank false s = name ++ r := heq
  rw [scan_hash hhash, scan_hash hbang, hscan, hskip]
  exact after_plain hplain.2.2 hplain.1 rfl (fun _ => rfl) rfl before

theorem after_dispatch (h : lexDispatch letters s = (t, r)) (ht : t.isLast = false)
    (before : Bool) : After d before t r (scanFrom (code d p b) (hash :: s)) := by
  cases s with
  | nil =>
    cases h
    cases ht
  | cons la s =>
    have hscan : ∀ e, e ≠ 0x21 → scanFrom (code d p b) (hash :: e :: s) =
        scanFrom (code d false (some hash)) (e :: s) := by
      intro e he
      exact scan_hash fun hs => he (Option.some.inj hs)
    unfold lexDispatch at h
    dsimp only at h
    split_ifs at h with h₁ h₂ h₃ h₄ h₅
    · rw [h₁]
      exact after_symbolicValue h ht before
    · cases h
      rw [h₂, hscan 0x7B (by decide), scan_single (by decide)]
      exact ⟨some 0x7B, fun _ => rfl, rfl⟩
    · rw [h₃, hscan doubleQuote (by decide), scan_quote]
      exact after_regex h ht before
    · cases h
      rw [h₄, hscan 0x28 (by decide), scan_single (by decide)]
      exact ⟨some 0x28, fun _ => rfl, rfl⟩
    · cases h
      rw [h₅, hscan 0x5F (by decide), scan_cons (step_plain (by decide) _)]
      exact ⟨some 0x5F, fun _ => rfl, rfl⟩
    · cases h
      cases ht
    · cases h
      cases ht
    · cases h
      cases ht

/-- One of the single characters. -/
theorem after_single (hc : c ∈ singles) (hd : d.after t = d.delimiter c)
    (hpending : macroPending (code d p b) c = looksPending (b.all endsBeforeMacro) t)
    (hopens : endsBeforeMacro c = opensMacro t) :
    After d (b.all endsBeforeMacro) t s (scanFrom (code d p b) (c :: s)) := by
  refine ⟨some c, fun _ => hopens, ?_⟩
  rw [scan_single hc, hd, hpending]

theorem after_punctuation (h : punctuation c = some t) :
    After d (b.all endsBeforeMacro) t s (scanFrom (code d p b) (c :: s)) := by
  unfold punctuation at h
  split_ifs at h with h₁ h₂ h₃ h₄ h₅ h₆ h₇
  · cases h
    subst h₁
    exact after_single (by decide) rfl rfl rfl
  · cases h
    subst h₂
    exact after_single (by decide) rfl rfl rfl
  · cases h
    subst h₃
    exact after_single (by decide) rfl rfl rfl
  · cases h
    subst h₄
    exact after_single (by decide) rfl rfl rfl
  · cases h
    subst h₅
    exact after_single (by decide) rfl rfl rfl
  · cases h
    subst h₆
    exact after_single (by decide) rfl rfl rfl
  · cases h
    subst h₇
    exact after_single (by decide) rfl rfl rfl

theorem after_symbolOrPunct (h : lexSymbolOrPunct letters c s = (t, r)) (ht : t.isLast = false)
    (hbang : ∀ text, t = .symbol text → hashBang text = false) :
    After d (b.all endsBeforeMacro) t r (scanFrom (code d p b) (c :: s)) := by
  unfold lexSymbolOrPunct at h
  split_ifs at h with h₁ h₂ h₃ h₄ h₅
  · cases h
    subst h₁
    exact after_single (by decide) rfl rfl rfl
  · cases h
    subst h₂
    exact after_single (by decide) rfl rfl rfl
  · subst h₃
    cases s with
    | nil =>
      cases h
      exact after_single (by decide) rfl rfl rfl
    | cons e s =>
      dsimp only at h
      split at h
      · rename_i he
        cases h
        subst he
        refine ⟨some 0x40, fun _ => rfl, ?_⟩
        rw [scan_single (by decide)]
        show scanFrom _ _ = _
        rw [scan_single (by decide)]
        rfl
      · cases h
        exact after_single (by decide) rfl rfl rfl
  · cases h
    cases ht
  · rw [h₅]
    exact after_dispatch h ht _
  · cases hn : symbolCharLength letters (c :: s) with
    | zero =>
      rw [hn] at h
      have hlast := unexpected_last c s
      dsimp only at h
      rw [h, ht] at hlast
      cases hlast
    | succ n =>
      rw [hn] at h
      exact after_symbol hn ⟨h₁, h₅⟩ h hbang _

/-- The scan passes over a token, and then knows its brackets, and whether a macro is pending. -/
theorem after_token (h : lexToken letters prev spaceBefore (c :: s) = (t, r))
    (ht : t.isLast = false) (hbang : ∀ text, t = .symbol text → hashBang text = false) :
    After d (b.all endsBeforeMacro) t r (scanFrom (code d p b) (c :: s)) := by
  have hle := (lexToken_suffix h ht).length_le
  unfold lexToken at h
  dsimp only at h
  cases hp : punctuation c with
  | some u =>
    rw [hp] at h
    cases h
    exact after_punctuation hp
  | none =>
    rw [hp] at h
    dsimp only at h
    split_ifs at h with hquote hdigit hneg
    · rw [hquote, scan_quote]
      exact after_string h ht _
    · have hnone : ∀ e ∈ ([] : Bytes), isPlain e = true := fun e he => by cases he
      exact after_number h ht hnone (.inr (Nat.lt_succ_of_le hle)) _
    · have hdash : c = dash := by
        cases s with
        | nil => cases (Bool.and_eq_true_iff.mp hneg).1
        | cons e s =>
          have hboth := (Bool.and_eq_true_iff.mp hneg).1
          exact beq_iff_eq.mp (Bool.and_eq_true_iff.mp hboth).1
      have hfront : ∀ e ∈ [c], isPlain e = true := by
        intro e he
        obtain rfl : e = c := by simpa using he
        rw [hdash]
        decide
      exact after_number h ht hfront (.inl (List.cons_ne_nil c [])) _
    · exact after_symbolOrPunct h ht hbang

end
end ProtoClojure.Repl
