import ProtoClojure.Reader.Lexemes

/-! The next token in a longer text, and runs of tokens. -/
namespace ProtoClojure.Reader
open Decimal

/-! ### What ends a token -/

/-- A string, a pattern or a closing bracket ends with its own last byte. -/
def Token.selfDelimiting : Token → Bool
  | .string _ | .regex _ | .rparen | .rbracket | .rbrace => true
  | _ => false

def Token.isSymbol : Token → Bool
  | .symbol _ => true
  | _ => false

/-- Whitespace, commas, `;`, closing brackets and double quotes. -/
def stops : Bytes := [0x20, 0x09, 0x0D, LF, 0x2C, 0x3B, 0x29, 0x5D, 0x7D, doubleQuote]

/-- Whether a token that ends before `d` ends there whatever comes after `d`. -/
def Token.stopsAt (t : Token) (d : UInt8) : Bool :=
  stops.contains d || (d == hash && !t.isSymbol)

/-- The token, before the text `r`, is the same one when `y` follows. -/
def Kept (t : Token) (r y : Bytes) : Prop :=
  t.selfDelimiting = true ∨ (∃ b ∈ r, b < 0x80) ∨ ∀ d ∈ y.head?, t.stopsAt d = true

theorem ends_facts : ∀ d ∈ hash :: stops, d < 0x80 ∧ isAsciiSymbolChar d = false ∧
    isAlnum d = false ∧ d ≠ 0x5F ∧ d ≠ 0x2E ∧ d ≠ 0x40 ∧ isDigit d = false := by
  decide

section
variable {letters : Nat → Bool} {t : Token} {d c : UInt8} {r s y x : Bytes}

theorem stopsAt_mem (h : t.stopsAt d = true) : d ∈ hash :: stops := by
  rw [Token.stopsAt, Bool.or_eq_true] at h
  rcases h with h | h
  · exact List.mem_cons_of_mem hash (List.contains_iff_mem.mp h)
  · rw [Bool.and_eq_true, beq_iff_eq] at h
    rw [h.1]
    exact List.mem_cons_self

theorem Kept.head (h : Kept t [] (d :: y)) (ht : t.selfDelimiting = false) :
    t.stopsAt d = true := by
  rcases h with h | ⟨b, hb, -⟩ | h
  · rw [ht] at h
    cases h
  · cases hb
  · exact h d rfl

theorem Kept.shut (h : Kept t (c :: r) y) (ht : t.selfDelimiting = false) (hc : ¬ c < 0x80) :
    Shut r y := by
  rcases h with h | ⟨b, hb, hlt⟩ | h
  · rw [ht] at h
    cases h
  · rcases List.mem_cons.mp hb with rfl | hb
    · exact absurd hlt hc
    · exact .inl ⟨b, hb, hlt⟩
  · exact .inr fun d hd => (ends_facts d (stopsAt_mem (h d hd))).1

theorem Kept.trailLength (h : Kept t r y) (ht : t.selfDelimiting = false)
    (hr : trailLength letters r = 0) : trailLength letters (r ++ y) = 0 := by
  cases r with
  | nil =>
    cases y with
    | nil => exact hr
    | cons d y =>
      obtain ⟨hlow, -, halnum, hline, hdot, -, -⟩ := ends_facts d (stopsAt_mem (h.head ht))
      show Reader.trailLength letters (d :: y) = 0
      have hhigh : ¬ (0x80 : UInt8) ≤ d := Nat.not_le.mpr hlow
      rw [Reader.trailLength, if_neg hhigh, halnum]
      simp [hline, hdot]
  | cons c r =>
    rw [List.cons_append, Reader.trailLength]
    rw [Reader.trailLength] at hr
    split at hr
    · rename_i hc
      rw [if_pos hc]
      exact symbolCharLength_zero hr (.inr (h.shut ht (Nat.not_lt.mpr hc)))
    · rw [if_neg ‹_›]
      exact hr

theorem Kept.symbolCharLength (h : Kept t r y) (ht : t.selfDelimiting = false)
    (hr : symbolCharLength letters r = 0) : symbolCharLength letters (r ++ y) = 0 := by
  cases r with
  | nil =>
    cases y with
    | nil => exact hr
    | cons d y =>
      obtain ⟨hlow, hsymbol, -⟩ := ends_facts d (stopsAt_mem (h.head ht))
      show Reader.symbolCharLength letters (d :: y) = 0
      rw [Reader.symbolCharLength, if_pos hlow, hsymbol]
      rfl
  | cons c r =>
    by_cases hc : c < 0x80
    · exact symbolCharLength_zero hr (.inl hc)
    · exact symbolCharLength_zero hr (.inr (h.shut ht hc))

theorem Kept.symbolNextLength (h : Kept t r y) (ht : t.isSymbol = true)
    (hr : symbolNextLength letters r = 0) : symbolNextLength letters (r ++ y) = 0 := by
  have hself : t.selfDelimiting = false := by
    cases t <;> first | rfl | cases ht
  have hhash : (r ++ y).head? ≠ some hash := by
    cases r with
    | nil =>
      cases y with
      | nil => exact fun h => by cases h
      | cons d y =>
        intro hd
        obtain rfl : d = hash := Option.some.inj hd
        have hstop := h.head hself
        rw [Token.stopsAt, ht] at hstop
        revert hstop
        decide
    | cons c r =>
      intro hc
      have hc : (c :: r).head? = some hash := hc
      rw [Reader.symbolNextLength, if_pos hc] at hr
      cases hr
  unfold Reader.symbolNextLength at hr ⊢
  rw [if_neg hhash]
  split at hr
  · cases hr
  · exact h.symbolCharLength hself hr

/-! ### Whitespace and comments -/

theorem skipBlank_suffix (inside : Bool) (s : Bytes) : skipBlank inside s <:+ s := by
  induction s generalizing inside with
  | nil => cases inside <;> exact List.suffix_refl _
  | cons c s ih =>
    cases inside with
    | true =>
      rw [skipBlank]
      split
      · exact (ih false).trans (List.suffix_cons c s)
      · exact (ih true).trans (List.suffix_cons c s)
    | false =>
      rw [skipBlank]
      split
      · exact (ih false).trans (List.suffix_cons c s)
      · split
        · exact (ih true).trans (List.suffix_cons c s)
        · exact List.suffix_refl _

/-- A `#` alone may be the start of a comment. -/
theorem skipBlank_append {inside : Bool} (h : skipBlank inside s = c :: r)
    (hr : c = hash → r ≠ []) : skipBlank inside (s ++ y) = c :: r ++ y := by
  induction s generalizing inside with
  | nil => cases inside <;> cases h
  | cons b s ih =>
    cases inside with
    | true =>
      rw [List.cons_append, skipBlank]
      rw [skipBlank] at h
      split at h
      · rw [if_pos ‹_›]
        exact ih h
      · rw [if_neg ‹_›]
        exact ih h
    | false =>
      rw [List.cons_append, skipBlank]
      rw [skipBlank] at h
      split at h
      · rw [if_pos ‹_›]
        exact ih h
      · rename_i hblank
        rw [if_neg hblank]
        split at h
        · rename_i hcomment
          have hlonger : b = 0x3B ∨ (b = hash ∧ (s ++ y).head? = some 0x21) := by
            refine hcomment.imp_right fun hb => ⟨hb.1, ?_⟩
            rw [List.head?_append, hb.2]
            rfl
          rw [if_pos hlonger]
          exact ih h
        · rename_i hcomment
          cases h
          have hlonger : ¬ (c = 0x3B ∨ (c = hash ∧ (r ++ y).head? = some 0x21)) := by
            rintro (hc | ⟨hc, hbang⟩)
            · exact hcomment (.inl hc)
            · cases r with
              | nil => exact hr hc rfl
              | cons d r => exact hcomment (.inr ⟨hc, hbang⟩)
          rw [if_neg hlonger]
          rfl

theorem skipBlank_blanks {w : Bytes} (hw : ∀ c ∈ w, isBlank c = true) (q : Bytes) :
    skipBlank false (w ++ q) = skipBlank false q := by
  induction w with
  | nil => rfl
  | cons c w ih =>
    rw [List.cons_append, skipBlank, if_pos (hw c List.mem_cons_self)]
    exact ih fun d hd => hw d (List.mem_cons_of_mem c hd)

/-! ### The next token -/

section
variable {prev : Token} {spaceBefore : Bool}

theorem lexString_append (h : lexString s = (t, r)) (ht : t.isLast = false) :
    lexString (s ++ y) = (t, r ++ y) := by
  unfold lexString at h ⊢
  cases hb : stringBody 0 s with
  | error e =>
    rw [hb] at h
    cases h
    cases ht
  | ok p =>
    rw [hb] at h
    cases h
    rw [stringBody_append hb]

theorem lexRegex_append (h : lexRegex s = (t, r)) (ht : t.isLast = false) :
    lexRegex (s ++ y) = (t, r ++ y) := by
  unfold lexRegex at h ⊢
  cases hb : regexBody false s with
  | error e =>
    rw [hb] at h
    cases h
    cases ht
  | ok p =>
    rw [hb] at h
    cases h
    rw [regexBody_append hb]

theorem lexSymbol_append {n : Nat} (h : lexSymbol letters c n s = (t, r)) (hn : n ≤ s.length)
    (hk : Kept t r y) : lexSymbol letters c n (s ++ y) = (t, r ++ y) := by
  unfold lexSymbol at h ⊢
  cases h
  have hend : symbolNextLength letters (takeChars (symbolNextLength letters) n s).2 = 0 := by
    rcases takeChars_end measures_symbolNext hn with hend | hend
    · exact hend
    · rw [hend]
      rfl
  rw [takeChars_append measures_symbolNext hn (hk.symbolNextLength rfl hend)]

theorem takeSymbol_empty (h : symbolCharLength letters s = 0) : takeSymbol letters s = ([], s) := by
  unfold takeSymbol
  cases s with
  | nil => rfl
  | cons c s => rw [takeChars, h]

/-- A symbolic value has a name. -/
theorem lexSymbolicValue_name (h : lexSymbolicValue letters s = (t, r)) (ht : t.isLast = false) :
    (takeSymbol letters (skipWhitespaceAndComments s)).2 = r ∧ t.selfDelimiting = false ∧
      (takeSymbol letters (skipWhitespaceAndComments s)).1 ≠ [] := by
  unfold lexSymbolicValue at h
  dsimp only at h
  split at h
  · cases h
    cases ht
  · rename_i hname
    have hne : (takeSymbol letters (skipWhitespaceAndComments s)).1 ≠ [] := by
      intro hnil
      rw [hnil] at hname
      exact hname rfl
    split_ifs at h
    · cases h
      exact ⟨rfl, rfl, hne⟩
    · cases h
      exact ⟨rfl, rfl, hne⟩
    · cases h
      exact ⟨rfl, rfl, hne⟩
    · cases h
      cases ht

theorem takeSymbol_append (hself : t.selfDelimiting = false)
    (hk : Kept t (takeSymbol letters s).2 y) :
    takeSymbol letters (s ++ y) = ((takeSymbol letters s).1, (takeSymbol letters s).2 ++ y) := by
  apply takeChars_append measures_symbolChar (Nat.zero_le _)
  refine hk.symbolCharLength hself ?_
  have hend : symbolCharLength letters (takeSymbol letters s).2 = 0 ∨
      (takeSymbol letters s).2 = [] := takeChars_end measures_symbolChar (Nat.zero_le _)
  rcases hend with hend | hend
  · exact hend
  · rw [hend]
    rfl

theorem lexSymbolicValue_append (h : lexSymbolicValue letters s = (t, r)) (ht : t.isLast = false)
    (hk : Kept t r y) : lexSymbolicValue letters (s ++ y) = (t, r ++ y) := by
  obtain ⟨hrest, hself, hname⟩ := lexSymbolicValue_name h ht
  obtain ⟨c, r', hskip, hhash⟩ : ∃ c r', skipWhitespaceAndComments s = c :: r' ∧ c ≠ hash := by
    cases hs : skipWhitespaceAndComments s with
    | nil =>
      rw [hs] at hname
      exact absurd rfl hname
    | cons c r' =>
      refine ⟨c, r', rfl, ?_⟩
      rintro rfl
      have hempty : symbolCharLength letters (hash :: r') = 0 := rfl
      rw [hs, takeSymbol_empty hempty] at hname
      exact hname rfl
  have happend : skipWhitespaceAndComments (s ++ y) = skipWhitespaceAndComments s ++ y := by
    rw [hskip]
    exact skipBlank_append hskip fun h => absurd h hhash
  have htake : takeSymbol letters (skipWhitespaceAndComments s ++ y) = _ :=
    takeSymbol_append hself (by rwa [hrest])
  unfold lexSymbolicValue at h ⊢
  rw [happend, htake]
  dsimp only at h ⊢
  split_ifs at h ⊢
  · cases h
    rfl
  · cases h
    rfl
  · cases h
    rfl
  · cases h
    rfl
  · cases h
    rfl

theorem lexDispatch_append (h : lexDispatch letters s = (t, r)) (ht : t.isLast = false)
    (hk : Kept t r y) : lexDispatch letters (s ++ y) = (t, r ++ y) := by
  cases s with
  | nil =>
    cases h
    cases ht
  | cons la s =>
    rw [List.cons_append]
    unfold lexDispatch at h ⊢
    dsimp only at h ⊢
    split_ifs at h ⊢
    · exact lexSymbolicValue_append h ht hk
    · cases h
      rfl
    · exact lexRegex_append h ht
    · cases h
      rfl
    · cases h
      rfl
    · cases h
      cases ht
    · cases h
      cases ht
    · cases h
      cases ht

theorem unexpected_last (c : UInt8) (s : Bytes) : (unexpected c s).1.isLast = true := by
  unfold unexpected
  cases decodeUtf8 (c :: s) with
  | none => rfl
  | some p => rfl

theorem lexSymbolOrPunct_append (h : lexSymbolOrPunct letters c s = (t, r))
    (ht : t.isLast = false) (hk : Kept t r y) :
    lexSymbolOrPunct letters c (s ++ y) = (t, r ++ y) := by
  unfold lexSymbolOrPunct at h ⊢
  split_ifs at h ⊢
  · cases h
    rfl
  · cases h
    rfl
  · cases s with
    | nil =>
      cases h
      cases y with
      | nil => rfl
      | cons d y =>
        have hd : d ≠ 0x40 := (ends_facts d (stopsAt_mem (hk.head rfl))).2.2.2.2.2.1
        show (if d = 0x40 then (Token.tildeAt, y) else (Token.tilde, d :: y)) = (.tilde, d :: y)
        rw [if_neg hd]
    | cons d s =>
      rw [List.cons_append]
      dsimp only at h ⊢
      split_ifs at h ⊢
      · cases h
        rfl
      · cases h
        rfl
  · cases h
    cases ht
  · exact lexDispatch_append h ht hk
  · cases hn : symbolCharLength letters (c :: s) with
    | zero =>
      rw [hn] at h
      have hlast := unexpected_last c s
      dsimp only at h
      rw [h, ht] at hlast
      cases hlast
    | succ n =>
      rw [hn] at h
      rw [← List.cons_append, symbolCharLength_append hn]
      exact lexSymbol_append h (Nat.le_of_succ_le_succ (symbolCharLength_le hn)) hk

theorem startsNegative_append (hk : s = [] → ∀ d ∈ y.head?, isDigit d = false) :
    startsNegative (c :: s ++ y) = startsNegative (c :: s) := by
  cases s with
  | cons d s => rfl
  | nil =>
    cases y with
    | nil => rfl
    | cons d y =>
      show (c == dash && isDigit d) = false
      rw [hk rfl d rfl, Bool.and_false]

theorem lexNumber_kept {negative : Bool} (h : lexNumber letters negative s = (t, r))
    (ht : t.isLast = false) (hk : Kept t r y) :
    lexNumber letters negative (s ++ y) = (t, r ++ y) := by
  obtain ⟨N, rfl, rfl⟩ := exists_parts h ht
  have hself : (N.token negative).selfDelimiting = false := by
    unfold NumberParts.token numberToken
    split <;> rfl
  exact (N.append (hk.trailLength hself N.trail)).lexNumber_eq negative

/-- The last byte of a text is no token that goes on as a number. -/
theorem lexToken_single (h : lexToken letters prev spaceBefore [dash] = (t, r)) :
    r = [] ∧ t.selfDelimiting = false := by
  have hsymbol : lexToken letters prev spaceBefore [dash] = (.symbol [dash], []) := rfl
  rw [hsymbol] at h
  cases h
  exact ⟨rfl, rfl⟩

theorem lexToken_append (h : lexToken letters prev spaceBefore s = (t, r)) (ht : t.isLast = false)
    (hk : Kept t r y) : lexToken letters prev spaceBefore (s ++ y) = (t, r ++ y) := by
  cases s with
  | nil =>
    cases h
    cases ht
  | cons c s =>
    have hneg : startsNegative (c :: (s ++ y)) = startsNegative (c :: s) := by
      by_cases hc : c = dash
      · refine startsNegative_append fun hs d hd => ?_
        subst hs hc
        obtain ⟨rfl, hself⟩ := lexToken_single h
        cases y with
        | nil => cases hd
        | cons b y =>
          obtain rfl : b = d := Option.some.inj hd
          exact (ends_facts b (stopsAt_mem (hk.head hself))).2.2.2.2.2.2
      · have hbeq : (c == dash) = false := beq_false_of_ne hc
        have hno : ∀ s, startsNegative (c :: s) = false := by
          intro s
          cases s with
          | nil => rfl
          | cons d s =>
            show (c == dash && isDigit d) = false
            rw [hbeq, Bool.false_and]
        rw [hno, hno]
    rw [List.cons_append]
    unfold lexToken at h ⊢
    dsimp only at h ⊢
    rw [hneg]
    cases hp : punctuation c with
    | some u =>
      rw [hp] at h
      cases h
      rfl
    | none =>
      rw [hp] at h
      dsimp only at h ⊢
      split_ifs at h ⊢
      · exact lexString_append h ht
      · exact lexNumber_kept h ht hk
      · exact lexNumber_kept h ht hk
      · exact lexSymbolOrPunct_append h ht hk

/-- A `#` alone is no token. -/
theorem lexToken_hash (h : lexToken letters prev spaceBefore [hash] = (t, r)) :
    t.isLast = true := by
  have herror : lexToken letters prev spaceBefore [hash] = (.error (.reserved [hash]), []) := rfl
  rw [herror] at h
  cases h
  rfl

theorem next_append (h : next letters prev s = (t, r)) (ht : t.isLast = false)
    (hk : Kept t r y) : next letters prev (s ++ y) = (t, r ++ y) := by
  unfold next at h ⊢
  dsimp only at h ⊢
  cases hs : skipWhitespaceAndComments s with
  | nil =>
    rw [hs] at h
    cases h
    cases ht
  | cons c s' =>
    rw [hs] at h
    have hhash : c = hash → s' ≠ [] := by
      rintro rfl rfl
      rw [lexToken_hash h] at ht
      cases ht
    have hskip : skipWhitespaceAndComments (s ++ y) = c :: s' ++ y := skipBlank_append hs hhash
    have hspace : decide ((c :: s' ++ y).length ≠ (s ++ y).length) =
        decide ((c :: s').length ≠ s.length) := by
      rw [List.length_append, List.length_append]
      exact decide_eq_decide.mpr (by omega)
    rw [hskip, hspace]
    exact lexToken_append h ht hk

/-! ### What a token takes -/

theorem takeChars_suffix {length : Bytes → Nat} (skip : Nat) (s : Bytes) :
    (takeChars length skip s).2 <:+ s := ⟨_, (takeChars_eq skip s).symm⟩

theorem takeFraction_suffix (s : Bytes) : (takeFraction s).2 <:+ s := by
  cases s with
  | nil => exact List.suffix_refl _
  | cons c s =>
    rw [takeFraction]
    split
    · exact (takeChars_suffix 0 s).trans (List.suffix_cons c s)
    · exact List.suffix_refl _

theorem takeSign_suffix (s : Bytes) : (takeSign s).2 <:+ s := by
  cases s with
  | nil => exact List.suffix_refl _
  | cons c s =>
    rw [takeSign]
    split
    · exact List.suffix_cons _ _
    · exact List.suffix_refl _

theorem takeSuffix_suffix (isFloat : Bool) (s : Bytes) : (takeSuffix isFloat s).2 <:+ s := by
  cases s with
  | nil => exact List.suffix_refl _
  | cons c s =>
    rw [takeSuffix]
    split
    · exact List.suffix_cons _ _
    · exact List.suffix_refl _

theorem takeExponent_suffix {e : Bytes} (h : takeExponent s = .ok (e, r)) : r <:+ s := by
  cases s with
  | nil =>
    cases h
    exact List.suffix_refl _
  | cons c s =>
    rw [takeExponent] at h
    split at h
    · dsimp only at h
      split at h
      · cases h
        exact ((takeChars_suffix 0 _).trans (takeSign_suffix s)).trans (List.suffix_cons c s)
      · cases h
    · cases h
      exact List.suffix_refl _

theorem NumberParts.rest_suffix (N : NumberParts letters s) : N.rest <:+ (takeDigits s).2 := by
  have hfraction := takeFraction_suffix N.afterDigits
  rw [N.takeFraction_eq] at hfraction
  have hsuffix := takeSuffix_suffix (N.fraction ≠ [] || N.exponent ≠ []) N.afterExponent
  rw [N.takeSuffix_eq] at hsuffix
  rw [N.takeDigits_eq]
  exact (hsuffix.trans (takeExponent_suffix N.takeExponent_eq)).trans hfraction

theorem lexNumber_suffix {negative : Bool} (h : lexNumber letters negative s = (t, r))
    (ht : t.isLast = false) : r <:+ (takeDigits s).2 := by
  obtain ⟨N, rfl, rfl⟩ := exists_parts h ht
  exact N.rest_suffix

theorem stringBody_suffix {n : Nat} {text : Bytes} (h : stringBody n s = .ok (text, r)) :
    r <:+ s := by
  induction s generalizing n text r with
  | nil => cases n <;> cases h
  | cons c s ih =>
    have hstep : ∀ {n : Nat} {f : Bytes × Bytes → Bytes},
        (stringBody n s).map (fun q => (f q, q.2)) = .ok (text, r) → r <:+ c :: s := by
      intro n f h
      cases hb : stringBody n s with
      | error e =>
        rw [hb] at h
        cases h
      | ok q =>
        rw [hb] at h
        cases h
        exact (ih hb).trans (List.suffix_cons c s)
    cases n with
    | succ n => exact (ih h).trans (List.suffix_cons c s)
    | zero =>
      rw [stringBody] at h
      split at h
      · cases h
        exact List.suffix_cons _ _
      · split at h
        · cases he : escape s with
          | error e =>
            rw [he] at h
            cases h
          | ok p =>
            rw [he] at h
            exact hstep h
        · exact hstep h

theorem regexBody_suffix {escaped : Bool} {text : Bytes}
    (h : regexBody escaped s = .ok (text, r)) : r <:+ s := by
  induction s generalizing escaped text r with
  | nil => cases escaped <;> cases h
  | cons c s ih =>
    have hstep : ∀ {escaped : Bool},
        (regexBody escaped s).map (fun q => (c :: q.1, q.2)) = .ok (text, r) → r <:+ c :: s := by
      intro escaped h
      cases hb : regexBody escaped s with
      | error e =>
        rw [hb] at h
        cases h
      | ok q =>
        rw [hb] at h
        cases h
        exact (ih hb).trans (List.suffix_cons c s)
    cases escaped with
    | true => exact hstep h
    | false =>
      rw [regexBody] at h
      split at h
      · cases h
        exact List.suffix_cons _ _
      · exact hstep h

theorem lexString_suffix (h : lexString s = (t, r)) (ht : t.isLast = false) : r <:+ s := by
  unfold lexString at h
  cases hb : stringBody 0 s with
  | error e =>
    rw [hb] at h
    cases h
    cases ht
  | ok p =>
    rw [hb] at h
    cases h
    exact stringBody_suffix hb

theorem lexRegex_suffix (h : lexRegex s = (t, r)) (ht : t.isLast = false) : r <:+ s := by
  unfold lexRegex at h
  cases hb : regexBody false s with
  | error e =>
    rw [hb] at h
    cases h
    cases ht
  | ok p =>
    rw [hb] at h
    cases h
    exact regexBody_suffix hb

theorem lexDispatch_suffix (h : lexDispatch letters s = (t, r)) (ht : t.isLast = false) :
    r <:+ s := by
  cases s with
  | nil =>
    cases h
    cases ht
  | cons la s =>
    unfold lexDispatch at h
    dsimp only at h
    split_ifs at h
    · have hrest := (lexSymbolicValue_name h ht).1
      rw [← hrest]
      exact ((takeChars_suffix 0 _).trans (skipBlank_suffix false s)).trans (List.suffix_cons la s)
    · cases h
      exact List.suffix_cons _ _
    · exact (lexRegex_suffix h ht).trans (List.suffix_cons la s)
    · cases h
      exact List.suffix_cons _ _
    · cases h
      exact List.suffix_cons _ _
    · cases h
      cases ht
    · cases h
      cases ht
    · cases h
      cases ht

theorem lexSymbolOrPunct_suffix (h : lexSymbolOrPunct letters c s = (t, r))
    (ht : t.isLast = false) : r <:+ s := by
  unfold lexSymbolOrPunct at h
  split_ifs at h
  · cases h
    exact List.suffix_refl _
  · cases h
    exact List.suffix_refl _
  · cases s with
    | nil =>
      cases h
      exact List.suffix_refl _
    | cons d s =>
      dsimp only at h
      split at h
      · cases h
        exact List.suffix_cons _ _
      · cases h
        exact List.suffix_refl _
  · cases h
    cases ht
  · exact lexDispatch_suffix h ht
  · cases hn : symbolCharLength letters (c :: s) with
    | zero =>
      rw [hn] at h
      have hlast := unexpected_last c s
      dsimp only at h
      rw [h, ht] at hlast
      cases hlast
    | succ n =>
      rw [hn] at h
      cases h
      exact takeChars_suffix n s

theorem takeDigits_digit (h : isDigit c = true) : (takeDigits (c :: s)).2 = (takeDigits s).2 := by
  have hlength : digitLength (c :: s) = 1 := by rw [digitLength, if_pos h]
  unfold takeDigits
  rw [takeChars, hlength]
  rfl

/-- A token takes the first byte at least. -/
theorem lexToken_suffix (h : lexToken letters prev spaceBefore (c :: s) = (t, r))
    (ht : t.isLast = false) : r <:+ s := by
  unfold lexToken at h
  dsimp only at h
  cases hp : punctuation c with
  | some u =>
    rw [hp] at h
    cases h
    exact List.suffix_refl _
  | none =>
    rw [hp] at h
    dsimp only at h
    split_ifs at h with _ hdigit
    · exact lexString_suffix h ht
    · have hrest := lexNumber_suffix h ht
      rw [takeDigits_digit hdigit] at hrest
      exact hrest.trans (takeChars_suffix 0 s)
    · exact (lexNumber_suffix h ht).trans (takeChars_suffix 0 s)
    · exact lexSymbolOrPunct_suffix h ht

theorem next_suffix (h : next letters prev s = (t, r)) (ht : t.isLast = false) :
    ∃ c s', skipWhitespaceAndComments s = c :: s' ∧ r <:+ s' := by
  unfold next at h
  dsimp only at h
  cases hs : skipWhitespaceAndComments s with
  | nil =>
    rw [hs] at h
    cases h
    cases ht
  | cons c s' =>
    rw [hs] at h
    exact ⟨c, s', rfl, lexToken_suffix h ht⟩

theorem next_shorter (h : next letters prev s = (t, r)) (ht : t.isLast = false) :
    r <:+ s ∧ r.length < s.length := by
  obtain ⟨c, s', hskip, hr⟩ := next_suffix h ht
  have hs : c :: s' <:+ s := hskip ▸ skipBlank_suffix false s
  refine ⟨(hr.trans (List.suffix_cons c s')).trans hs, ?_⟩
  have hle := hs.length_le
  have hrle := hr.length_le
  rw [List.length_cons] at hle
  omega

end

/-! ### Runs of tokens -/

section
variable {prev : Token} {ts : List Token} {rest : Bytes}

theorem tokensLoop_fuel {fuel fuel' : Nat} (h : s.length < fuel) (h' : s.length < fuel') :
    tokensLoop letters fuel prev s = tokensLoop letters fuel' prev s := by
  induction fuel generalizing fuel' prev s with
  | zero => omega
  | succ fuel ih =>
    cases fuel' with
    | zero => omega
    | succ fuel' =>
      rw [tokensLoop, tokensLoop]
      rcases hn : next letters prev s with ⟨t, r⟩
      dsimp only
      split
      · rfl
      · rename_i ht
        have hlt := (next_shorter hn (by simpa using ht)).2
        rw [ih (by omega) (by omega : r.length < fuel')]

/-- The tokens of `s` after the token `prev`. -/
def tokensFrom (letters : Nat → Bool) (prev : Token) (s : Bytes) : List Token :=
  tokensLoop letters (s.length + 1) prev s

theorem tokensFrom_eq (prev : Token) (s : Bytes) : tokensFrom letters prev s =
    if (next letters prev s).1.isLast then [(next letters prev s).1]
    else (next letters prev s).1 ::
      tokensFrom letters (next letters prev s).1 (next letters prev s).2 := by
  unfold tokensFrom
  rcases hn : next letters prev s with ⟨t, r⟩
  rw [tokensLoop, hn]
  dsimp only
  split
  · rfl
  · rename_i ht
    have hlt := (next_shorter hn (by simpa using ht)).2
    rw [tokensLoop_fuel hlt (Nat.lt_succ_self r.length)]

theorem tokensFrom_cons (h : next letters prev s = (t, r)) (ht : t.isLast = false) :
    tokensFrom letters prev s = t :: tokensFrom letters t r := by
  rw [tokensFrom_eq, h]
  dsimp only
  rw [ht]
  rfl

/-- After the token `prev`, `s` begins with the tokens `ts`; the last token read is then `t`, and
`rest` follows. -/
inductive Lexes (letters : Nat → Bool) : Token → Bytes → List Token → Token → Bytes → Prop where
  | nil (prev : Token) (s : Bytes) : Lexes letters prev s [] prev s
  | cons {prev u t : Token} {s r rest : Bytes} {ts : List Token}
    (head : next letters prev s = (u, r)) (more : u.isLast = false)
    (tail : Lexes letters u r ts t rest) : Lexes letters prev s (u :: ts) t rest

namespace Lexes

theorem tokens_eq (h : Lexes letters prev s ts t rest) :
    tokensFrom letters prev s = ts ++ tokensFrom letters t rest := by
  induction h with
  | nil => rfl
  | cons head more _ ih => rw [tokensFrom_cons head more, ih, List.cons_append]

theorem suffix (h : Lexes letters prev s ts t rest) : rest <:+ s := by
  induction h with
  | nil => exact List.suffix_refl _
  | cons head more _ ih => exact ih.trans (next_shorter head more).1

end Lexes
end
end
end ProtoClojure.Reader
