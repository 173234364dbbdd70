import ProtoClojure.Reader.Forms
import ProtoClojure.Reader.NextToken

/-! The scan that tells the REPL whether its buffer is complete: a second, cruder lexer. -/
namespace ProtoClojure.Repl
open Reader Decimal

/-! ### The scan -/

inductive Balance where
  | incomplete
  | balanced
  | error
deriving DecidableEq

def isSpace (c : UInt8) : Bool := c == 0x20 || (0x09 ≤ c && c ≤ 0x0D)

/-- Commas, opening brackets and macros. -/
def quoteStarters : Bytes := [0x2C, 0x28, 0x5B, 0x7B, apostrophe, 0x60, 0x7E, 0x40]

/-- Whether a `'` after it starts a quote. -/
def endsBeforeMacro (c : UInt8) : Bool := isSpace c || quoteStarters.contains c

/-- What is left to skip: the character after a backslash, or a comment. -/
inductive Skip where
  | none
  | one
  | line
deriving DecidableEq

structure Depth where
  paren : Nat := 0
  bracket : Nat := 0
  brace : Nat := 0
deriving DecidableEq

structure Scan where
  depth : Depth := {}
  inStr : Bool := false
  pendingMacro : Bool := false
  prev : Option UInt8 := none     -- `src[i - 1]`
  skip : Skip := .none

/-- A count below 0 is an error. -/
def Depth.delimiter (d : Depth) (c : UInt8) : Option Depth :=
  if c = 0x28 then some { d with paren := d.paren + 1 }
  else if c = 0x29 then if d.paren = 0 then none else some { d with paren := d.paren - 1 }
  else if c = 0x5B then some { d with bracket := d.bracket + 1 }
  else if c = 0x5D then if d.bracket = 0 then none else some { d with bracket := d.bracket - 1 }
  else if c = 0x7B then some { d with brace := d.brace + 1 }
  else if c = 0x7D then if d.brace = 0 then none else some { d with brace := d.brace - 1 }
  else some d

def startsComment (c : UInt8) (following : Option UInt8) : Bool :=
  c == 0x3B || (c == hash && following == some 0x21)

def macroPending (σ : Scan) (c : UInt8) : Bool :=
  c == 0x60 || c == 0x7E || c == 0x40 || (c == apostrophe && σ.prev.all endsBeforeMacro)

/-- One character, with the one after it. -/
def Scan.step (σ : Scan) (c : UInt8) (following : Option UInt8) : Option Scan :=
  match σ.skip with
  | .one => some { σ with prev := some c, skip := .none }
  | .line => some { σ with prev := some c, skip := if c = LF then .none else .line }
  | .none =>
    if σ.inStr then
      if c = backslash ∧ following.isSome then some { σ with prev := some c, skip := .one }
      else some { σ with prev := some c, inStr := c ≠ doubleQuote }
    else if startsComment c following then some { σ with prev := some c, skip := .line }
    else
      let pendingMacro := if isSpace c || c == 0x2C then σ.pendingMacro else macroPending σ c
      if c = doubleQuote then some { σ with prev := some c, pendingMacro, inStr := true }
      else if c = backslash then
        some { σ with prev := some c, pendingMacro, skip := if following.isSome then .one else .none }
      else (σ.depth.delimiter c).map fun depth => { σ with prev := some c, pendingMacro, depth }

def Scan.finish (σ : Scan) : Balance :=
  if σ.inStr then .incomplete
  else if σ.depth.paren > 0 ∨ σ.depth.bracket > 0 ∨ σ.depth.brace > 0 then .incomplete
  else if σ.pendingMacro then .incomplete
  else .balanced

def scanFrom (σ : Scan) : Bytes → Balance
  | [] => σ.finish
  | c :: s =>
    match σ.step c s.head? with
    | none => .error
    | some σ => scanFrom σ s

def scanBalance (src : Bytes) : Balance := scanFrom {} src

example : scanBalance (ascii "(a \"\\\")\" #\"(\" ; (\n b) `") = .incomplete := by decide

/-! ### Outside strings -/

section
variable {d : Depth} {p : Bool} {b : Option UInt8} {c : UInt8} {s r text : Bytes}

/-- Between tokens or inside one that is no string. -/
def code (d : Depth) (p : Bool) (b : Option UInt8) : Scan := ⟨d, false, p, b, .none⟩

def comment (d : Depth) (p : Bool) (b : Option UInt8) : Scan := ⟨d, false, p, b, .line⟩

/-- Inside a string or a pattern. -/
def str (d : Depth) (b : Option UInt8) : Scan := ⟨d, true, false, b, .none⟩

theorem scan_cons {σ σ' : Scan} (h : σ.step c s.head? = some σ') :
    scanFrom σ (c :: s) = scanFrom σ' s := by
  rw [scanFrom, h]

/-- The characters, whitespace apart, that are something to the scan. -/
def specials : Bytes := [0x2C, 0x3B, hash, doubleQuote, 0x28, 0x29, 0x5B, 0x5D, 0x7B, 0x7D,
  backslash, 0x60, 0x7E, 0x40, apostrophe]

def isPlain (c : UInt8) : Bool := !isSpace c && !specials.contains c

theorem plain_facts (h : isPlain c = true) : isSpace c = false ∧ c ≠ 0x2C ∧ c ≠ 0x3B ∧ c ≠ hash ∧
    c ≠ doubleQuote ∧ c ≠ backslash ∧ c ≠ 0x60 ∧ c ≠ 0x7E ∧ c ≠ 0x40 ∧ c ≠ apostrophe ∧
    (∀ d : Depth, d.delimiter c = some d) ∧ endsBeforeMacro c = false := by
  rw [isPlain, Bool.and_eq_true, Bool.not_eq_true', Bool.not_eq_true'] at h
  obtain ⟨hspace, hlist⟩ := h
  have hne : ∀ e ∈ specials, c ≠ e := by
    rintro e he rfl
    rw [List.contains_iff_mem.mpr he] at hlist
    cases hlist
  have hdelimiter : ∀ d : Depth, d.delimiter c = some d := by
    intro d
    unfold Depth.delimiter
    rw [if_neg (hne _ (by decide)), if_neg (hne _ (by decide)),
      if_neg (hne _ (by decide)), if_neg (hne _ (by decide)),
      if_neg (hne _ (by decide)), if_neg (hne _ (by decide))]
  refine ⟨hspace, hne _ (by decide), hne _ (by decide), hne _ (by decide),
    hne _ (by decide), hne _ (by decide), hne _ (by decide),
    hne _ (by decide), hne _ (by decide), hne _ (by decide), hdelimiter, ?_⟩
  have hsub : ∀ e ∈ quoteStarters, e ∈ specials := by decide
  rw [endsBeforeMacro, hspace, Bool.false_or]
  by_contra hmem
  exact hne c (hsub c (List.contains_iff_mem.mp (by simpa using hmem))) rfl

theorem step_plain (h : isPlain c = true) (n : Option UInt8) :
    (code d p b).step c n = some (code d false (some c)) := by
  obtain ⟨hspace, hcomma, hsemi, hhash, hquote, hslash, hback, htilde, hat, hapos, hd, -⟩ :=
    plain_facts h
  have hcomment : startsComment c n = false := by
    rw [startsComment, beq_false_of_ne hsemi, beq_false_of_ne hhash]
    rfl
  have hpending : macroPending (code d p b) c = false := by
    rw [macroPending, beq_false_of_ne hback, beq_false_of_ne htilde, beq_false_of_ne hat,
      beq_false_of_ne hapos]
    rfl
  show (if startsComment c n then _ else _) = _
  rw [hcomment, if_neg Bool.false_ne_true, if_neg hquote, if_neg hslash, hspace,
    beq_false_of_ne hcomma, hpending]
  dsimp only [code]
  rw [hd]
  rfl

/-- Plain characters end what is pending. -/
theorem scan_plain (h : ∀ c ∈ text, isPlain c = true) (hne : text ≠ []) :
    ∃ e, isPlain e = true ∧
      scanFrom (code d p b) (text ++ r) = scanFrom (code d false (some e)) r := by
  induction text generalizing p b with
  | nil => exact absurd rfl hne
  | cons c text ih =>
    have hc := h c List.mem_cons_self
    rw [List.cons_append, scan_cons (step_plain hc _)]
    by_cases htext : text = []
    · exact ⟨c, hc, by rw [htext]; rfl⟩
    · exact ih (fun e he => h e (List.mem_cons_of_mem c he)) htext

/-! ### Whitespace and comments -/

theorem blank_space : ∀ e ∈ blanks, endsBeforeMacro e = true ∧
    (isSpace e || e == 0x2C) = true ∧ e ≠ 0x3B ∧ e ≠ hash ∧ e ≠ doubleQuote ∧ e ≠ backslash ∧
    ∀ d : Depth, d.delimiter e = some d := by
  have hdelimiter : ∀ e ∈ blanks, e ≠ 0x28 ∧ e ≠ 0x29 ∧ e ≠ 0x5B ∧ e ≠ 0x5D ∧ e ≠ 0x7B ∧
      e ≠ 0x7D := by decide
  have hrest : ∀ e ∈ blanks, endsBeforeMacro e = true ∧
      (isSpace e || e == 0x2C) = true ∧ e ≠ 0x3B ∧ e ≠ Reader.hash ∧ e ≠ doubleQuote ∧
      e ≠ backslash := by
    decide
  intro e he
  obtain ⟨h₁, h₂, h₃, h₄, h₅, h₆⟩ := hrest e he
  refine ⟨h₁, h₂, h₃, h₄, h₅, h₆, fun d => ?_⟩
  obtain ⟨g₁, g₂, g₃, g₄, g₅, g₆⟩ := hdelimiter e he
  unfold Depth.delimiter
  rw [if_neg g₁, if_neg g₂, if_neg g₃, if_neg g₄, if_neg g₅, if_neg g₆]

theorem step_blank (h : isBlank c = true) (n : Option UInt8) :
    (code d p b).step c n = some (code d p (some c)) := by
  obtain ⟨-, hspace, hsemi, hhash, hquote, hslash, hd⟩ :=
    blank_space c (List.contains_iff_mem.mp h)
  have hcomment : startsComment c n = false := by
    rw [startsComment, beq_false_of_ne hsemi, beq_false_of_ne hhash]
    rfl
  show (if startsComment c n then _ else _) = _
  rw [hcomment, if_neg Bool.false_ne_true, if_neg hquote, if_neg hslash, hspace]
  dsimp only [code]
  rw [hd]
  rfl

theorem step_comment (h : c = 0x3B ∨ (c = hash ∧ s.head? = some 0x21)) :
    (code d p b).step c s.head? = some (comment d p (some c)) := by
  have hcomment : startsComment c s.head? = true := by
    rw [startsComment, Bool.or_eq_true, Bool.and_eq_true, beq_iff_eq, beq_iff_eq, beq_iff_eq]
    exact h
  show (if startsComment c s.head? then _ else _) = _
  rw [hcomment]
  rfl

/-- The scan passes over what the lexer skips; a blank then stands before what is left. -/
theorem scan_skipBlank (inside : Bool) (s : Bytes) : ∃ b',
    scanFrom (if inside then comment d p b else code d p b) s =
      scanFrom (code d p b') (skipBlank inside s) ∧
    ((inside = false ∧ skipBlank inside s = s ∧ b' = b) ∨
      (skipBlank inside s).length < s.length + inside.toNat ∧ b'.all endsBeforeMacro = true) := by
  have hle : ∀ inside s, (skipBlank inside s).length ≤ s.length :=
    fun inside s => (skipBlank_suffix inside s).length_le
  induction s generalizing inside b with
  | nil =>
    cases inside with
    | false => exact ⟨b, rfl, .inl ⟨rfl, rfl, rfl⟩⟩
    | true => exact ⟨some LF, rfl, .inr ⟨Nat.one_pos, rfl⟩⟩
  | cons c s ih =>
    cases inside with
    | true =>
      have hstep : (comment d p b).step c s.head? =
          some (if c = LF then code d p (some c) else comment d p (some c)) := by
        show some _ = some _
        split <;> rfl
      rw [if_pos rfl, scan_cons hstep, skipBlank]
      split
      · rename_i hc
        have hb : (some c).all endsBeforeMacro = true := by
          rw [hc]
          rfl
        obtain ⟨b', hscan, h | ⟨hlt, hb'⟩⟩ := ih (b := some c) false
        · exact ⟨b', hscan, .inr ⟨Nat.lt_succ_of_lt (Nat.lt_succ_of_le (hle false s)), h.2.2 ▸ hb⟩⟩
        · exact ⟨b', hscan, .inr ⟨Nat.lt_succ_of_lt (Nat.lt_succ_of_le (hle false s)), hb'⟩⟩
      · obtain ⟨b', hscan, h | ⟨hlt, hb'⟩⟩ := ih (b := some c) true
        · cases h.1
        · exact ⟨b', hscan, .inr ⟨Nat.lt_succ_of_lt (Nat.lt_succ_of_le (hle true s)), hb'⟩⟩
    | false =>
      rw [if_neg Bool.false_ne_true, skipBlank]
      split
      · rename_i hc
        rw [scan_cons (step_blank hc _)]
        have hb : endsBeforeMacro c = true := (blank_space c (List.contains_iff_mem.mp hc)).1
        obtain ⟨b', hscan, h | ⟨hlt, hb'⟩⟩ := ih (b := some c) false
        · exact ⟨b', hscan, .inr ⟨Nat.lt_succ_of_le (hle false s), h.2.2 ▸ hb⟩⟩
        · exact ⟨b', hscan, .inr ⟨Nat.lt_succ_of_le (hle false s), hb'⟩⟩
      · split
        · rename_i hc
          rw [scan_cons (step_comment hc)]
          obtain ⟨b', hscan, h | ⟨hlt, hb'⟩⟩ := ih (b := some c) true
          · cases h.1
          · exact ⟨b', hscan, .inr ⟨Nat.lt_succ_of_le (hle true s), hb'⟩⟩
        · exact ⟨b, rfl, .inl ⟨rfl, rfl, rfl⟩⟩

/-! ### Strings and patterns -/

theorem step_str (h : c ≠ backslash) (n : Option UInt8) : (str d b).step c n =
    some (if c = doubleQuote then code d false (some c) else str d (some c)) := by
  show (if c = backslash ∧ n.isSome then _ else _) = _
  rw [if_neg fun hc => h hc.1]
  split
  · rename_i hc
    rw [hc]
    rfl
  · rename_i hc
    show some (Scan.mk d (decide (c ≠ doubleQuote)) false (some c) .none) = _
    rw [decide_eq_true hc]
    rfl

/-- A backslash and the character after it. -/
theorem scan_escaped (b : Option UInt8) (c : UInt8) (s : Bytes) :
    scanFrom (str d b) (backslash :: c :: s) = scanFrom (str d (some c)) s := by
  rw [scan_cons rfl, scan_cons rfl]
  rfl

theorem scan_str_end (b : Option UInt8) (s : Bytes) :
    scanFrom (str d b) (doubleQuote :: s) = scanFrom (code d false (some doubleQuote)) s :=
  scan_cons (step_str (by decide) _)

theorem scan_str_char (h : c ≠ backslash) (hc : c ≠ doubleQuote) :
    scanFrom (str d b) (c :: s) = scanFrom (str d (some c)) s := by
  rw [scan_cons (step_str h _), if_neg hc]

theorem scan_str_chars (h : ∀ c ∈ text, c ≠ backslash ∧ c ≠ doubleQuote) : ∃ b',
    scanFrom (str d b) (text ++ s) = scanFrom (str d b') s := by
  induction text generalizing b with
  | nil => exact ⟨b, rfl⟩
  | cons c text ih =>
    obtain ⟨hslash, hquote⟩ := h c List.mem_cons_self
    rw [List.cons_append, scan_str_char hslash hquote]
    exact ih fun e he => h e (List.mem_cons_of_mem c he)

theorem stringBody_drop (n : Nat) (s : Bytes) : stringBody n s = stringBody 0 (s.drop n) := by
  induction s generalizing n with
  | nil => cases n <;> rfl
  | cons c s ih =>
    cases n with
    | zero => rfl
    | succ n => exact ih n

theorem hex4_digits {cp : Nat} (h : hex4 s = some cp) : ∃ digits, digits.length = 4 ∧
    s = digits ++ s.drop 4 ∧ ∀ c ∈ digits, c ≠ backslash ∧ c ≠ doubleQuote := by
  obtain _ | ⟨x, _ | ⟨y, _ | ⟨z, _ | ⟨w, s⟩⟩⟩⟩ := s
  · cases h
  · cases h
  · cases h
  · cases h
  · refine ⟨[x, y, z, w], rfl, rfl, ?_⟩
    have hsome : ∀ {c : UInt8}, hexDigit c ≠ none → c ≠ backslash ∧ c ≠ doubleQuote := by
      intro c hc
      refine ⟨?_, ?_⟩
      · rintro rfl
        exact hc (by decide)
      · rintro rfl
        exact hc (by decide)
    unfold hex4 at h
    dsimp only at h
    simp only [List.mem_cons, List.not_mem_nil, or_false, forall_eq_or_imp, forall_eq]
    cases hx : hexDigit x with
    | none =>
      rw [hx] at h
      cases h
    | some vx =>
      cases hy : hexDigit y with
      | none =>
        rw [hx, hy] at h
        cases h
      | some vy =>
        cases hz : hexDigit z with
        | none =>
          rw [hx, hy, hz] at h
          cases h
        | some vz =>
          cases hw : hexDigit w with
          | none =>
            rw [hx, hy, hz, hw] at h
            cases h
          | some vw =>
            exact ⟨hsome (by rw [hx]; exact Option.some_ne_none vx),
              hsome (by rw [hy]; exact Option.some_ne_none vy),
              hsome (by rw [hz]; exact Option.some_ne_none vz),
              hsome (by rw [hw]; exact Option.some_ne_none vw)⟩

theorem scan_hex4 {cp : Nat} (h : hex4 s = some cp) (b : Option UInt8) : ∃ b',
    scanFrom (str d b) s = scanFrom (str d b') (s.drop 4) := by
  obtain ⟨digits, -, hs, hdigits⟩ := hex4_digits h
  obtain ⟨b', hscan⟩ := scan_str_chars (d := d) (b := b) (s := s.drop 4) hdigits
  exact ⟨b', by rw [← hscan, ← hs]⟩

/-- The scan passes over the bytes of an escape. -/
theorem scan_escape {n : Nat} (h : escape s = .ok (text, n)) (b : Option UInt8) : ∃ b',
    scanFrom (str d b) (backslash :: s) = scanFrom (str d b') (s.drop n) := by
  cases s with
  | nil => cases h
  | cons c s =>
    have hsingle : ∃ b', scanFrom (str d b) (backslash :: c :: s) =
        scanFrom (str d b') ((c :: s).drop 1) := ⟨some c, scan_escaped b c s⟩
    unfold escape at h
    dsimp only at h
    split_ifs at h
    · cases h
      exact hsingle
    · cases h
      exact hsingle
    · cases h
      exact hsingle
    · cases h
      exact hsingle
    · cases h
      exact hsingle
    · cases h
      exact hsingle
    · cases h
      exact hsingle
    · cases hu : unicodeEscape s with
      | error e =>
        rw [hu] at h
        cases h
      | ok q =>
        rw [hu] at h
        cases h
        rw [scan_escaped]
        unfold unicodeEscape at hu
        cases hcp : hex4 s with
        | none =>
          rw [hcp] at hu
          cases hu
        | some cp =>
          obtain ⟨b₁, hscan⟩ := scan_hex4 (d := d) hcp (some c)
          rw [hcp] at hu
          dsimp only at hu
          rw [hscan]
          split at hu
          · split at hu
            · rename_i lo hlo
              split at hlo
              · rename_i hpair
                split at hu
                · cases hu
                · have hn : q.2 = 10 := (congrArg Prod.snd (Except.ok.inj hu)).symm
                  obtain ⟨b₂, hscan₂⟩ := scan_hex4 (d := d) hlo (some 0x75)
                  refine ⟨b₂, ?_⟩
                  have hdrop : s.drop 4 = backslash :: 0x75 :: s.drop 6 := by
                    have hcat := List.take_append_drop 2 (s.drop 4)
                    rw [hpair, List.drop_drop] at hcat
                    exact hcat.symm
                  rw [hdrop, scan_escaped, hscan₂, List.drop_drop, hn]
                  rfl
              · cases hlo
            · cases hu
          · split at hu
            · cases hu
            · cases hu
              exact ⟨b₁, rfl⟩
    · rename_i hoctal
      unfold octalEscape at h
      dsimp only at h
      split at h
      · cases h
      · cases h
        have hdigits : ((c :: s).take 3).takeWhile isOctal =
            c :: (s.take 2).takeWhile isOctal := by
          rw [List.take_succ_cons, List.takeWhile_cons, if_pos hoctal]
        have hprefix : (s.take 2).takeWhile isOctal <+: s :=
          (List.takeWhile_prefix _).trans (List.take_prefix 2 s)
        obtain ⟨rest, hrest⟩ := hprefix
        have hplain : ∀ e ∈ (s.take 2).takeWhile isOctal, e ≠ backslash ∧ e ≠ doubleQuote := by
          intro e he
          have hoct := List.all_eq_true.mp List.all_takeWhile e he
          constructor
          · rintro rfl
            exact absurd hoct (by decide)
          · rintro rfl
            exact absurd hoct (by decide)
        obtain ⟨b', hscan⟩ := scan_str_chars (d := d) (b := some c) (s := rest) hplain
        refine ⟨b', ?_⟩
        rw [scan_escaped, hdigits, List.length_cons, List.drop_succ_cons]
        rw [hrest] at hscan
        have hdrop : s.drop ((s.take 2).takeWhile isOctal).length = rest := by
          have hleft := @List.drop_left _ ((s.take 2).takeWhile isOctal) rest
          rw [hrest] at hleft
          exact hleft
        rw [hscan, hdrop]

/-- With a character after the backslash the input does not end in the escape. -/
theorem escape_error {e : LexError} (h : escape (c :: s) = .error e) :
    (ReadError.lexer e).outOfInput = false := by
  unfold escape at h
  dsimp only at h
  split_ifs at h
  · unfold unicodeEscape at h
    cases hcp : hex4 s with
    | none =>
      rw [hcp] at h
      cases h
      rfl
    | some cp =>
      rw [hcp] at h
      dsimp only at h
      split at h
      · split at h
        · split at h
          · cases h
            rfl
          · cases h
        · cases h
          rfl
      · split at h
        · cases h
          rfl
        · cases h
  · unfold octalEscape at h
    dsimp only at h
    split at h
    · cases h
      rfl
    · cases h
  · cases h
    rfl

/-- A string that ends, and one that the input ends in. -/
theorem scan_stringBody (b : Option UInt8) (s : Bytes) :
    (∀ text r, stringBody 0 s = .ok (text, r) →
      scanFrom (str d b) s = scanFrom (code d false (some doubleQuote)) r) ∧
    (∀ e, stringBody 0 s = .error e → (ReadError.lexer e).outOfInput = true →
      scanFrom (str d b) s = .incomplete) := by
  induction hlen : s.length using Nat.strong_induction_on generalizing b s with
  | _ len ih =>
    cases s with
    | nil =>
      refine ⟨fun text r h => (by cases h), fun e h _ => rfl⟩
    | cons c s =>
      -- what the rest of the string answers, a character on
      have hgo : ∀ (f : Bytes → Bytes) (b' : Option UInt8) (s' : Bytes), s'.length < len →
          scanFrom (str d b) (c :: s) = scanFrom (str d b') s' →
          (∀ text r, (stringBody 0 s').map (fun q => (f q.1, q.2)) = .ok (text, r) →
            scanFrom (str d b) (c :: s) = scanFrom (code d false (some doubleQuote)) r) ∧
          (∀ e, (stringBody 0 s').map (fun q => (f q.1, q.2)) = .error e →
            (ReadError.lexer e).outOfInput = true →
            scanFrom (str d b) (c :: s) = .incomplete) := by
        intro f b' s' hlt hscan
        obtain ⟨hok, herror⟩ := ih s'.length hlt b' s' rfl
        rw [hscan]
        cases hbody : stringBody 0 s' with
        | error e' =>
          refine ⟨fun text r h => (by cases h), fun e h he => ?_⟩
          cases h
          exact herror e' hbody he
        | ok q =>
          refine ⟨fun text r h => ?_, fun e h _ => (by cases h)⟩
          cases h
          exact hok q.1 q.2 hbody
      rw [List.length_cons] at hlen
      rw [stringBody]
      by_cases hquote : c = doubleQuote
      · rw [if_pos hquote]
        refine ⟨fun text r h => ?_, fun e h _ => (by cases h)⟩
        cases h
        rw [hquote]
        exact scan_str_end b s
      · rw [if_neg hquote]
        by_cases hslash : c = backslash
        · rw [if_pos hslash]
          cases he : escape s with
          | error e' =>
            refine ⟨fun text r h => (by cases h), fun e h hout => ?_⟩
            cases h
            -- the input ends right after the backslash
            have hs : s = [] := by
              cases s with
              | nil => rfl
              | cons c' s =>
                rw [escape_error he] at hout
                cases hout
            rw [hs, hslash]
            rfl
          | ok q =>
            obtain ⟨b', hscan⟩ := scan_escape (d := d) he b
            dsimp only
            rw [stringBody_drop]
            have hlt : (s.drop q.2).length < len := by
              rw [List.length_drop]
              omega
            exact hgo (q.1 ++ ·) b' (s.drop q.2) hlt (by rw [hslash, hscan])
        · rw [if_neg hslash]
          exact hgo (c :: ·) (some c) s (by omega) (scan_str_char hslash hquote)

/-- After a backslash in a pattern. -/
def escapedStr (d : Depth) (b : Option UInt8) : Scan := ⟨d, true, false, b, .one⟩

theorem scan_backslash (b : Option UInt8) (s : Bytes) :
    scanFrom (str d b) (backslash :: s) = scanFrom (escapedStr d (some backslash)) s := by
  cases s with
  | nil => rfl
  | cons c s => exact scan_cons rfl

theorem scan_regexBody (escaped : Bool) (b : Option UInt8) (s : Bytes) :
    (∀ text r, regexBody escaped s = .ok (text, r) →
      scanFrom (if escaped then escapedStr d b else str d b) s =
        scanFrom (code d false (some doubleQuote)) r) ∧
    (∀ e, regexBody escaped s = .error e →
      scanFrom (if escaped then escapedStr d b else str d b) s = .incomplete) := by
  induction s generalizing escaped b with
  | nil =>
    cases escaped with
    | true => exact ⟨fun text r h => (by cases h), fun e _ => rfl⟩
    | false => exact ⟨fun text r h => (by cases h), fun e _ => rfl⟩
  | cons c s ih =>
    have hgo : ∀ (escaped' : Bool) (b' : Option UInt8),
        scanFrom (if escaped then escapedStr d b else str d b) (c :: s) =
          scanFrom (if escaped' then escapedStr d b' else str d b') s →
        (∀ text r, (regexBody escaped' s).map (fun q => (c :: q.1, q.2)) = .ok (text, r) →
          scanFrom (if escaped then escapedStr d b else str d b) (c :: s) =
            scanFrom (code d false (some doubleQuote)) r) ∧
        (∀ e, (regexBody escaped' s).map (fun q => (c :: q.1, q.2)) = .error e →
          scanFrom (if escaped then escapedStr d b else str d b) (c :: s) = .incomplete) := by
      intro escaped' b' hscan
      obtain ⟨hok, herror⟩ := ih escaped' b'
      rw [hscan]
      cases hbody : regexBody escaped' s with
      | error e' =>
        exact ⟨fun text r h => (by cases h), fun e _ => herror e' hbody⟩
      | ok q =>
        refine ⟨fun text r h => ?_, fun e h => (by cases h)⟩
        cases h
        exact hok q.1 q.2 hbody
    cases escaped with
    | true => exact hgo false (some c) (scan_cons rfl)
    | false =>
      rw [regexBody]
      by_cases hquote : c = doubleQuote
      · rw [if_pos hquote]
        refine ⟨fun text r h => ?_, fun e h => (by cases h)⟩
        cases h
        rw [hquote]
        exact scan_str_end b s
      · rw [if_neg hquote]
        by_cases hslash : c = backslash
        · refine hgo (c == backslash) (some backslash) ?_
          rw [hslash]
          exact scan_backslash b s
        · refine hgo (c == backslash) (some c) ?_
          rw [beq_false_of_ne hslash]
          exact scan_str_char hslash hquote

/-! ### Symbols -/

/-- A character of a symbol past its first one. -/
def inSymbol (c : UInt8) : Bool := isPlain c || c == apostrophe || c == hash

def endsTwice (text : Bytes) : Bool := text.reverse.take 2 = [apostrophe, apostrophe]

/-- A `#!` in the text, which the scan takes for a comment. -/
def hashBang : Bytes → Bool
  | c :: d :: s => (c == hash && d == 0x21) || hashBang (d :: s)
  | _ => false

theorem endsTwice_cons {x y : UInt8} (h : text ≠ []) :
    endsTwice (x :: y :: text) = endsTwice (y :: text) := by
  unfold endsTwice
  congr 1
  rw [List.reverse_cons, List.take_append_of_le_length]
  rw [List.length_reverse, List.length_cons]
  have := List.length_pos_iff.mpr h
  omega

/-- What the scan makes of the bytes that the lexer knows, one by one. -/
theorem byte_facts : ∀ k < 256, let c := UInt8.ofNat k
    (isAsciiSymbolChar c = true → inSymbol c = true) ∧ (¬ c < 0x80 → isPlain c = true) ∧
      (isAlnum c = true → isPlain c = true) ∧
      (inSymbol c = true → endsBeforeMacro c = (c == apostrophe)) := by
  decide +kernel

theorem facts_of_byte (c : UInt8) : (isAsciiSymbolChar c = true → inSymbol c = true) ∧
    (¬ c < 0x80 → isPlain c = true) ∧ (isAlnum c = true → isPlain c = true) ∧
      (inSymbol c = true → endsBeforeMacro c = (c == apostrophe)) := by
  have hc := byte_facts c.toNat c.toNat_lt
  rwa [UInt8.ofNat_toNat] at hc

theorem inSymbol_ascii (c : UInt8) : isAsciiSymbolChar c = true → inSymbol c = true :=
  (facts_of_byte c).1

theorem plain_high (c : UInt8) : ¬ c < 0x80 → isPlain c = true := (facts_of_byte c).2.1

theorem plain_alnum (c : UInt8) : isAlnum c = true → isPlain c = true := (facts_of_byte c).2.2.1

theorem inSymbol_before (c : UInt8) : inSymbol c = true → endsBeforeMacro c = (c == apostrophe) :=
  (facts_of_byte c).2.2.2

theorem step_symbol {x : UInt8} (hc : inSymbol c = true) (hx : inSymbol x = true)
    {n : Option UInt8} (hbang : ¬ (c = hash ∧ n = some 0x21)) :
    (code d p (some x)).step c n = some (code d (c == apostrophe && x == apostrophe) (some c)) := by
  rw [inSymbol, Bool.or_eq_true, Bool.or_eq_true, beq_iff_eq, beq_iff_eq] at hc
  rcases hc with (hplain | rfl) | rfl
  · have hapostrophe : c ≠ apostrophe := (plain_facts hplain).2.2.2.2.2.2.2.2.2.1
    rw [step_plain hplain, beq_false_of_ne hapostrophe]
    rfl
  · have hpending : macroPending (code d p (some x)) apostrophe = (x == apostrophe) :=
      inSymbol_before x hx
    show some (code d (macroPending (code d p (some x)) apostrophe) (some apostrophe)) = _
    rw [hpending]
    rfl
  · have hcomment : startsComment hash n = false := by
      cases hn : (n == some 0x21) with
      | false =>
        rw [startsComment, hn]
        rfl
      | true => exact absurd ⟨rfl, beq_iff_eq.mp hn⟩ hbang
    show (if startsComment hash n then _ else _) = _
    rw [hcomment]
    rfl

/-- The rest of a symbol: a `'` is taken for a quote after a `'` only. -/
theorem scan_symbol {x : UInt8} (h : ∀ c ∈ text, inSymbol c = true) (hx : inSymbol x = true)
    (hbang : hashBang (x :: text) = false) (hr : r.head? ≠ some 0x21) : ∃ e, inSymbol e = true ∧
    scanFrom (code d p (some x)) (text ++ r) =
      scanFrom (code d (if text = [] then p else endsTwice (x :: text)) (some e)) r := by
  induction text generalizing x p with
  | nil => exact ⟨x, hx, rfl⟩
  | cons c text ih =>
    have hc := h c List.mem_cons_self
    rw [hashBang, Bool.or_eq_false_iff] at hbang
    have hnext : ¬ (c = hash ∧ (text ++ r).head? = some 0x21) := by
      rintro ⟨rfl, hhead⟩
      cases text with
      | nil => exact hr hhead
      | cons e text =>
        obtain rfl : e = 0x21 := Option.some.inj hhead
        have hfalse := hbang.2
        rw [hashBang] at hfalse
        cases hfalse
    obtain ⟨e, he, hscan⟩ := ih (x := c) (p := c == apostrophe && x == apostrophe)
      (fun e he => h e (List.mem_cons_of_mem c he)) hc hbang.2
    refine ⟨e, he, ?_⟩
    rw [List.cons_append, scan_cons (step_symbol hc hx hnext), hscan,
      if_neg (List.cons_ne_nil c text)]
    by_cases htext : text = []
    · rw [if_pos htext, htext]
      have htwo : (c == apostrophe && x == apostrophe) = endsTwice [x, c] := by
        rw [Bool.eq_iff_iff, Bool.and_eq_true, beq_iff_eq, beq_iff_eq, endsTwice,
          decide_eq_true_eq]
        simp
      rw [htwo]
    · rw [if_neg htext, endsTwice_cons htext]

end
end ProtoClojure.Repl
