import ProtoClojure.Reader.Pending
import ProtoClojure.Repl.TokenScan

/-! The scan and the reader: they agree on a text unless its last token is one that the scan takes
for another. -/
namespace ProtoClojure.Repl
open Reader Decimal

/-! ### The scan along the tokens -/

/-- Whether blanks or comments stand at the front. -/
def spaced (s : Bytes) : Bool := (skipWhitespaceAndComments s).length ≠ s.length

section
variable {letters : Nat → Bool} {d : Depth} {p : Bool} {b : Option UInt8} {c : UInt8}
  {s r rest : Bytes} {t prev : Token} {spaceBefore : Bool} {ts : List Token} {q q' : Pending}

theorem lexToken_quote (h : lexToken letters prev spaceBefore (c :: s) = (.quote, r)) :
    c = apostrophe := by
  by_contra hc
  unfold lexToken at h
  dsimp only at h
  cases hp : punctuation c with
  | some u =>
    rw [hp] at h
    cases h
    unfold punctuation at hp
    split_ifs at hp <;> cases hp
  | none =>
    have hnumber : ∀ {negative : Bool} {s : Bytes}, lexNumber letters negative s ≠ (.quote, r) := by
      intro negative s h
      obtain ⟨used, -, -, isFloat, text, ht⟩ := number_plain h rfl
      unfold numberToken at ht
      split at ht <;> cases ht
    rw [hp] at h
    dsimp only at h
    split_ifs at h
    · unfold lexString at h
      cases hbody : stringBody 0 s with
      | error e =>
        rw [hbody] at h
        cases h
      | ok q =>
        rw [hbody] at h
        cases h
    · exact hnumber h
    · exact hnumber h
    · unfold lexSymbolOrPunct at h
      rw [if_neg hc] at h
      split_ifs at h
      · cases h
      · cases s with
        | nil => cases h
        | cons e s =>
          dsimp only at h
          split at h <;> cases h
      · cases h
      · cases s with
        | nil => cases h
        | cons e s =>
          unfold lexDispatch at h
          dsimp only at h
          split_ifs at h
          · obtain ⟨literal, ht, -⟩ := lexSymbolicValue_names h rfl
            cases ht
          · cases h
          · unfold lexRegex at h
            cases hbody : regexBody false s with
            | error e =>
              rw [hbody] at h
              cases h
            | ok q =>
              rw [hbody] at h
              cases h
          · cases h
          · cases h
          · cases h
          · cases h
          · cases h
      · cases hn : symbolCharLength letters (c :: s) with
        | zero =>
          rw [hn] at h
          have hlast := unexpected_last c s
          dsimp only at h
          rw [h] at hlast
          cases hlast
        | succ n =>
          rw [hn] at h
          cases h

/-- Where no quote begins it does not matter what stands before. -/
theorem after_before {before before' : Bool} {answer : Balance} (ht : t ≠ .quote)
    (h : After d before t r answer) : After d before' t r answer := by
  have hpending : looksPending before t = looksPending before' t := by
    cases t <;> first | exact absurd rfl ht | rfl
  unfold After at h ⊢
  rwa [← hpending]

theorem after_next (h : next letters prev s = (t, r)) (ht : t.isLast = false)
    (hbang : ∀ text, t = .symbol text → hashBang text = false) (hf : Follows prev b)
    (hsymbol : prev.isSymbol = true → symbolNextLength letters s = 0) :
    After d (spaced s || opensMacro prev) t r (scanFrom (code d p b) s) := by
  obtain ⟨b', hscan, hb⟩ := scan_skipBlank (d := d) (p := p) (b := b) false s
  rw [if_neg Bool.false_ne_true] at hscan
  obtain ⟨c, s', hskip, -⟩ := next_suffix h ht
  have hskipBlank : skipBlank false s = c :: s' := hskip
  unfold next at h
  dsimp only at h
  rw [hskip] at h
  have htoken := after_token (d := d) (p := p) (b := b') h ht hbang
  rw [hscan, hskipBlank]
  rcases hb with ⟨-, hs, hb⟩ | ⟨hlt, hb⟩
  · have hspaced : spaced s = false := by
      unfold spaced
      rw [show skipWhitespaceAndComments s = s from hs]
      exact decide_eq_false fun h => h rfl
    rw [hspaced, Bool.false_or]
    cases hprev : prev.isSymbol with
    | false =>
      have hall : b'.all endsBeforeMacro = opensMacro prev := hb ▸ hf hprev
      rwa [hall] at htoken
    | true =>
      refine after_before ?_ htoken
      rintro rfl
      have hc := lexToken_quote h
      rw [hskipBlank] at hs
      have hzero := hsymbol hprev
      rw [← hs, hc] at hzero
      cases hzero
  · have hspaced : spaced s = true := by
      unfold spaced
      refine decide_eq_true fun heq => ?_
      have heq : (skipBlank false s).length = s.length := heq
      rw [heq] at hlt
      exact absurd hlt (Nat.lt_irrefl _)
    rw [hspaced, Bool.true_or]
    rwa [hb] at htoken

/-- The open collections, as the scan counts them. -/
def depthOf (q : Pending) : Depth :=
  ⟨(q.outer.map Prod.fst).count .paren, (q.outer.map Prod.fst).count .bracket,
    (q.outer.map Prod.fst).count .brace⟩

theorem depthOf_closed {close : Closing} (h : q.closed close = some q') :
    ∃ n, q.outer = (close, n) :: q'.outer := by
  obtain ⟨owed, outer⟩ := q
  cases owed with
  | succ owed => cases h
  | zero =>
    cases outer with
    | nil => cases h
    | cons entry outer =>
      obtain ⟨close', n⟩ := entry
      have h : (if close' = close then some (Pending.mk (n - 1) outer) else none) = some q' := h
      split at h
      · rename_i hclose
        cases h
        exact ⟨n, by rw [hclose]⟩
      · cases h

theorem depthOf_advance (h : q.advance t = some q') : (depthOf q).after t = some (depthOf q') := by
  have hopened : ∀ close, depthOf (q.opened close) =
      ⟨(depthOf q).paren + (if close = .paren then 1 else 0),
        (depthOf q).bracket + (if close = .bracket then 1 else 0),
        (depthOf q).brace + (if close = .brace then 1 else 0)⟩ := by
    intro close
    cases close <;> simp [depthOf, Pending.opened]
  cases t with
  | lparen =>
    cases h
    rw [hopened]
    rfl
  | hashLParen =>
    cases h
    rw [hopened]
    rfl
  | lbracket =>
    cases h
    rw [hopened]
    rfl
  | lbrace =>
    cases h
    rw [hopened]
    rfl
  | hashLBrace =>
    cases h
    rw [hopened]
    rfl
  | rparen =>
    obtain ⟨n, houter⟩ := depthOf_closed h
    simp [depthOf, houter, Depth.after, Depth.delimiter]
  | rbracket =>
    obtain ⟨n, houter⟩ := depthOf_closed h
    simp [depthOf, houter, Depth.after, Depth.delimiter]
  | rbrace =>
    obtain ⟨n, houter⟩ := depthOf_closed h
    simp [depthOf, houter, Depth.after, Depth.delimiter]
  | endOfFile => cases h
  | error e => cases h
  | _ =>
    cases h
    rfl

/-- The scan of the tokens up to `r`. -/
theorem scan_run (h : Lexes letters prev s ts t r) (hq : q.after ts = some q')
    (hbang : ∀ u ∈ ts, ∀ text, u = .symbol text → hashBang text = false) (hf : Follows prev b)
    (hsymbol : prev.isSymbol = true → symbolNextLength letters s = 0) : ∃ p' b', Follows t b' ∧
      (t.isSymbol = true → symbolNextLength letters r = 0) ∧
      (ts = [] → p' = p) ∧
      scanFrom (code (depthOf q) p b) s = scanFrom (code (depthOf q') p' b') r := by
  induction h generalizing q p b with
  | nil =>
    cases hq
    exact ⟨p, b, hf, hsymbol, fun _ => rfl, rfl⟩
  | @cons prev u t s r rest ts head more tail ih =>
    rw [Pending.after] at hq
    cases hu : q.advance u with
    | none =>
      rw [hu] at hq
      cases hq
    | some q₁ =>
      rw [hu] at hq
      obtain ⟨b₁, hf₁, hscan⟩ := after_next (d := depthOf q) (p := p) head more
        (hbang u List.mem_cons_self) hf hsymbol
      rw [depthOf_advance hu] at hscan
      have hscan : scanFrom (code (depthOf q) p b) s =
          scanFrom (code (depthOf q₁) (looksPending (spaced s || opensMacro prev) u) b₁) r := hscan
      obtain ⟨p', b', hf', hsymbol', -, hrun⟩ :=
        ih hq (fun v hv => hbang v (List.mem_cons_of_mem u hv)) hf₁ (next_symbol_end head)
      exact ⟨p', b', hf', hsymbol', fun hnil => (by cases hnil), hscan.trans hrun⟩

/-! ### Where the text ends -/

/-- An error that is not for want of input. -/
def OtherError (t : Token) : Prop :=
  ∃ e, t = .error e ∧ (ReadError.lexer e).outOfInput = false

theorem lexNumber_last {negative : Bool} (h : lexNumber letters negative s = (t, r))
    (ht : t.isLast = true) : OtherError t := by
  unfold lexNumber at h
  dsimp only at h
  split at h
  · cases h
    exact ⟨_, rfl, rfl⟩
  · split at h
    · cases h
      exact ⟨_, rfl, rfl⟩
    · cases h
      unfold numberToken at ht
      split at ht <;> cases ht

theorem lexSymbolicValue_last (h : lexSymbolicValue letters s = (t, r)) (ht : t.isLast = true) :
    OtherError t := by
  unfold lexSymbolicValue at h
  dsimp only at h
  split_ifs at h
  · cases h
    exact ⟨_, rfl, rfl⟩
  · cases h
    cases ht
  · cases h
    cases ht
  · cases h
    cases ht
  · cases h
    exact ⟨_, rfl, rfl⟩

theorem unexpected_other (c : UInt8) (s : Bytes) : OtherError (unexpected c s).1 := by
  unfold unexpected
  cases decodeUtf8 (c :: s) with
  | none => exact ⟨_, rfl, rfl⟩
  | some q => exact ⟨_, rfl, rfl⟩

/-- The input ends in strings and patterns only. -/
theorem lexToken_last (h : lexToken letters prev spaceBefore (c :: s) = (t, r))
    (ht : t.isLast = true) : OtherError t ∨ (c = doubleQuote ∧ lexString s = (t, r)) ∨
      ∃ s', c = hash ∧ s = doubleQuote :: s' ∧ lexRegex s' = (t, r) := by
  unfold lexToken at h
  dsimp only at h
  cases hp : punctuation c with
  | some u =>
    rw [hp] at h
    cases h
    unfold punctuation at hp
    split_ifs at hp <;> cases hp <;> cases ht
  | none =>
    rw [hp] at h
    dsimp only at h
    split_ifs at h with hquote
    · exact .inr (.inl ⟨hquote, h⟩)
    · exact .inl (lexNumber_last h ht)
    · exact .inl (lexNumber_last h ht)
    · unfold lexSymbolOrPunct at h
      split_ifs at h with _ _ _ _ hhash
      · cases h
        cases ht
      · cases h
        cases ht
      · cases s with
        | nil =>
          cases h
          cases ht
        | cons e s =>
          dsimp only at h
          split at h <;> cases h <;> cases ht
      · cases h
        exact .inl ⟨_, rfl, rfl⟩
      · cases s with
        | nil =>
          cases h
          exact .inl ⟨_, rfl, rfl⟩
        | cons la s =>
          unfold lexDispatch at h
          dsimp only at h
          split_ifs at h with _ _ hregex
          · exact .inl (lexSymbolicValue_last h ht)
          · cases h
            cases ht
          · exact .inr (.inr ⟨s, hhash, by rw [hregex], h⟩)
          · cases h
            cases ht
          · cases h
            cases ht
          · cases h
            exact .inl ⟨_, rfl, rfl⟩
          · cases h
            exact .inl ⟨_, rfl, rfl⟩
          · cases h
            exact .inl ⟨_, rfl, rfl⟩
      · cases hn : symbolCharLength letters (c :: s) with
        | zero =>
          rw [hn] at h
          have hother := unexpected_other c s
          dsimp only at h
          rw [h] at hother
          exact .inl hother
        | succ n =>
          rw [hn] at h
          cases h
          cases ht

theorem lexString_end : (lexString s).1 ≠ .endOfFile := by
  unfold lexString
  cases stringBody 0 s with
  | error e => exact Token.noConfusion
  | ok q => exact Token.noConfusion

theorem lexRegex_end : (lexRegex s).1 ≠ .endOfFile := by
  unfold lexRegex
  cases regexBody false s with
  | error e => exact Token.noConfusion
  | ok q => exact Token.noConfusion

/-- The scan at the end of the input. -/
theorem scan_end (h : (next letters t r).1 = .endOfFile) :
    scanFrom (code d p b) r = (code d p none).finish := by
  obtain ⟨b', hscan, -⟩ := scan_skipBlank (d := d) (p := p) (b := b) false r
  rw [if_neg Bool.false_ne_true] at hscan
  have hskip : skipWhitespaceAndComments r = [] := by
    cases hs : skipWhitespaceAndComments r with
    | nil => rfl
    | cons c s =>
      unfold next at h
      dsimp only at h
      rw [hs] at h
      rcases hlex : lexToken letters t (decide ((c :: s).length ≠ r.length)) (c :: s) with ⟨u, rest⟩
      rw [hlex] at h
      have hu : u = .endOfFile := h
      rcases lexToken_last hlex (by rw [hu]; rfl) with ⟨e, he, -⟩ | ⟨-, hstr⟩ | ⟨s', -, -, hregex⟩
      · rw [hu] at he
        cases he
      · exact absurd (by rw [hstr, hu]) (lexString_end (s := s))
      · exact absurd (by rw [hregex, hu]) (lexRegex_end (s := s'))
  have hskip : skipBlank false r = [] := hskip
  rw [hscan, hskip]
  rfl

/-- The scan of a token in which the input ends. -/
theorem scan_unterminated {e : LexError} (h : (next letters t r).1 = .error e)
    (hout : (ReadError.lexer e).outOfInput = true) : scanFrom (code d p b) r = .incomplete := by
  obtain ⟨b', hscan, -⟩ := scan_skipBlank (d := d) (p := p) (b := b) false r
  rw [if_neg Bool.false_ne_true] at hscan
  unfold next at h
  dsimp only at h
  cases hs : skipWhitespaceAndComments r with
  | nil =>
    rw [hs] at h
    cases h
  | cons c s =>
    rw [hs] at h
    have hskip : skipBlank false r = c :: s := hs
    rw [hscan, hskip]
    rcases hlex : lexToken letters t (decide ((c :: s).length ≠ r.length)) (c :: s) with ⟨u, rest⟩
    rw [hlex] at h
    have hu : u = .error e := h
    rcases lexToken_last hlex (by rw [hu]; rfl) with ⟨e', he, hother⟩ | ⟨hc, hstr⟩ |
      ⟨s', hc, hs', hregex⟩
    · rw [hu] at he
      cases he
      rw [hother] at hout
      cases hout
    · rw [hc, scan_quote]
      unfold lexString at hstr
      cases hbody : stringBody 0 s with
      | ok q =>
        rw [hbody, hu] at hstr
        cases hstr
      | error e' =>
        rw [hbody, hu] at hstr
        cases hstr
        exact (scan_stringBody _ s).2 e hbody hout
    · have hhash : (doubleQuote :: s' : Bytes).head? ≠ some 0x21 := by
        intro hhead
        exact absurd (Option.some.inj hhead) (by decide)
      rw [hc, hs', scan_hash hhash, scan_quote]
      unfold lexRegex at hregex
      cases hbody : regexBody false s' with
      | ok q =>
        rw [hbody, hu] at hregex
        cases hregex
      | error e' =>
        rw [hbody, hu] at hregex
        cases hregex
        exact (scan_regexBody false _ s').2 e hbody

/-! ### Where the reader ends -/

theorem tokensFrom_head (t : Token) (r : Bytes) :
    (tokensFrom letters t r).head? = some (next letters t r).1 := by
  rw [tokensFrom_eq]
  split <;> rfl

theorem tokensFrom_last (h : (next letters t r).1.isLast = true) :
    tokensFrom letters t r = [(next letters t r).1] := by
  rw [tokensFrom_eq, if_pos h]

theorem lexes_of_tokens {pre post : List Token} (hpre : ∀ u ∈ pre, u.isLast = false)
    (h : tokensFrom letters prev s = pre ++ post) :
    ∃ t r, Lexes letters prev s pre t r ∧ tokensFrom letters t r = post := by
  induction pre generalizing prev s with
  | nil => exact ⟨prev, s, .nil prev s, h⟩
  | cons u pre ih =>
    have hmore := hpre u List.mem_cons_self
    have hhead : _ = some (next letters prev s).1 := tokensFrom_head prev s
    rw [h] at hhead
    have hu : (next letters prev s).1 = u := (Option.some.inj hhead).symm
    have hnext : next letters prev s = (u, (next letters prev s).2) := Prod.ext hu rfl
    rw [tokensFrom_cons hnext hmore] at h
    obtain ⟨t, r, hlex, htail⟩ := ih (fun v hv => hpre v (List.mem_cons_of_mem u hv))
      (List.cons.inj h).2
    exact ⟨t, r, .cons hnext hmore hlex, htail⟩

theorem after_more {p : Pending} {pre : List Token} (h : p.after pre = some q) :
    ∀ u ∈ pre, u.isLast = false := by
  induction pre generalizing p with
  | nil => exact fun u hu => by cases hu
  | cons v pre ih =>
    intro u hu
    rw [Pending.after] at h
    cases hv : p.advance v with
    | none =>
      rw [hv] at h
      cases h
    | some q₁ =>
      rw [hv] at h
      rcases List.mem_cons.mp hu with rfl | hu
      · cases u <;> first | rfl | cases hv
      · exact ih h u hu

/-- The text ends in one place. -/
theorem lexes_unique {pre pre' : List Token} {t' : Token} {r' : Bytes}
    (h : Lexes letters prev s pre t r) (hlast : (next letters t r).1.isLast = true)
    (h' : Lexes letters prev s pre' t' r') (hlast' : (next letters t' r').1.isLast = true) :
    pre = pre' ∧ (next letters t r).1 = (next letters t' r').1 := by
  have heq := h.tokens_eq
  rw [h'.tokens_eq, tokensFrom_last hlast, tokensFrom_last hlast'] at heq
  obtain ⟨hpre, hend⟩ := List.append_inj' heq rfl
  exact ⟨hpre.symm, (List.cons.inj hend).1.symm⟩

theorem readAll_ok {H : ReaderHost} {stack gensymId : Nat} {forms : List Form}
    (h : readAll H stack gensymId s = .ok forms) : ∃ pre t r,
      Lexes H.letters .endOfFile s pre t r ∧ Pending.after {} pre = some {} ∧
      (next H.letters t r).1 = .endOfFile := by
  unfold readAll readTokens at h
  cases hrun : readAllForms H stack ((tokens H.letters s).length + 1) []
      { tokens := tokens H.letters s, gensymId } with
  | error e σ' =>
    rw [hrun] at h
    cases h
  | ok out σ' =>
    obtain ⟨pre, post, htokens, hafter, hpost⟩ :=
      (readAllForms_spec _ [] _ (Nat.lt_succ_self _)).1 out σ' hrun
    obtain ⟨t, r, hlex, htail⟩ := lexes_of_tokens (after_more hafter) htokens
    refine ⟨pre, t, r, hlex, hafter, ?_⟩
    have hhead : _ = some (next H.letters t r).1 := tokensFrom_head t r
    rw [htail] at hhead
    rcases hpost with rfl | ⟨post, rfl⟩
    · cases hhead
    · exact (Option.some.inj hhead).symm

theorem readAll_out {H : ReaderHost} {stack gensymId : Nat} {e : ReadError}
    (h : readAll H stack gensymId s = .error e) (hout : e.outOfInput = true) : ∃ pre t r q,
      Lexes H.letters .endOfFile s pre t r ∧ Pending.after {} pre = some q ∧
      ((next H.letters t r).1 = .endOfFile ∧ q.isOpen ∨
        ∃ e, (next H.letters t r).1 = .error e ∧ (ReadError.lexer e).outOfInput = true) := by
  unfold readAll readTokens at h
  cases hrun : readAllForms H stack ((tokens H.letters s).length + 1) []
      { tokens := tokens H.letters s, gensymId } with
  | ok out σ' =>
    rw [hrun] at h
    cases h
  | error e' σ' =>
    rw [hrun] at h
    cases h
    obtain ⟨pre, post, q, htokens, hafter, hends⟩ :=
      (readAllForms_spec _ [] _ (Nat.lt_succ_self _)).2 e σ' hrun hout
    obtain ⟨t, r, hlex, htail⟩ := lexes_of_tokens (after_more hafter) htokens
    refine ⟨pre, t, r, q, hlex, hafter, ?_⟩
    have hhead : _ = some (next H.letters t r).1 := tokensFrom_head t r
    rw [htail] at hhead
    rcases hends with ⟨rfl | ⟨post, rfl⟩, hopen⟩ | ⟨le, post, rfl, hle⟩
    · cases hhead
    · exact .inl ⟨(Option.some.inj hhead).symm, hopen⟩
    · exact .inr ⟨le, (Option.some.inj hhead).symm, hle⟩

/-! ### Agreement -/

/-- No symbol of the text holds a `#!`. -/
def noHashBang (letters : Nat → Bool) (s : Bytes) : Bool :=
  (tokens letters s).all fun t =>
    match t with
    | .symbol text => !hashBang text
    | _ => true

/-- The last token of the text is `t`, after `prev` and, if `blanks`, blanks or comments; `q` is
what the tokens wait for. -/
def EndsAfter (letters : Nat → Bool) (s : Bytes) (prev : Token) (blanks : Bool) (t : Token)
    (q : Pending) : Prop :=
  ∃ pre r rest, Lexes letters .endOfFile s pre prev r ∧ next letters prev r = (t, rest) ∧
    t.isLast = false ∧ (next letters t rest).1 = .endOfFile ∧ spaced r = blanks ∧
    Pending.after {} (pre ++ [t]) = some q

/-- The last token is one that the scan takes for what it is. -/
def Fits (prev : Token) (blanks : Bool) (t : Token) (q : Pending) : Prop :=
  match t with
  | .quote => blanks = true ∨ opensMacro prev = true
  | .hashUnderscore => False
  | .backtick | .tilde | .tildeAt | .deref => True
  | .symbol text => endsTwice text = true ↔ 0 < q.owed
  | _ => q.owed = 0

/-- Outside strings and collections, the text ends after a token that fits. -/
def Settled (letters : Nat → Bool) (s : Bytes) : Prop :=
  ∀ prev blanks t q, EndsAfter letters s prev blanks t q → q.outer = [] → Fits prev blanks t q

theorem fits_iff {blanks : Bool} {p : Pending} (h : p.advance t = some q) :
    Fits prev blanks t q ↔ (looksPending (blanks || opensMacro prev) t = true ↔ 0 < q.owed) := by
  have hform : (q.owed = 0 ↔ (false = true ↔ 0 < q.owed)) := by
    rw [Nat.pos_iff_ne_zero]
    simp
  have howed : q.owed = max p.owed 1 → 0 < q.owed := by
    intro h
    omega
  cases t with
  | quote =>
    have hq : 0 < q.owed := howed (by cases h; rfl)
    show (blanks = true ∨ opensMacro prev = true) ↔
      ((blanks || opensMacro prev) = true ↔ 0 < q.owed)
    simp [hq]
  | backtick =>
    have hq : 0 < q.owed := howed (by cases h; rfl)
    exact iff_of_true trivial (iff_of_true rfl hq)
  | tilde =>
    have hq : 0 < q.owed := howed (by cases h; rfl)
    exact iff_of_true trivial (iff_of_true rfl hq)
  | tildeAt =>
    have hq : 0 < q.owed := howed (by cases h; rfl)
    exact iff_of_true trivial (iff_of_true rfl hq)
  | deref =>
    have hq : 0 < q.owed := howed (by cases h; rfl)
    exact iff_of_true trivial (iff_of_true rfl hq)
  | hashUnderscore =>
    have hq : 0 < q.owed := by
      cases h
      exact Nat.succ_pos _
    refine iff_of_false id fun hiff => ?_
    cases hiff.mpr hq
  | symbol text => exact Iff.rfl
  | endOfFile => cases h
  | error e => cases h
  | _ => exact hform

theorem finish_open (h : q.outer ≠ []) : (code (depthOf q) p none).finish = .incomplete := by
  obtain ⟨owed, outer⟩ := q
  cases outer with
  | nil => exact absurd rfl h
  | cons entry outer =>
    obtain ⟨close, n⟩ := entry
    have hdepth : (depthOf ⟨owed, (close, n) :: outer⟩).paren > 0 ∨
        (depthOf ⟨owed, (close, n) :: outer⟩).bracket > 0 ∨
        (depthOf ⟨owed, (close, n) :: outer⟩).brace > 0 := by
      cases close with
      | paren => exact .inl (by simp [depthOf])
      | bracket => exact .inr (.inl (by simp [depthOf]))
      | brace => exact .inr (.inr (by simp [depthOf]))
    unfold Scan.finish
    rw [if_neg (show ¬ (code (depthOf ⟨owed, (close, n) :: outer⟩) p none).inStr = true from
      Bool.false_ne_true)]
    exact if_pos hdepth

theorem finish_top (h : q.outer = []) : (code (depthOf q) p none).finish =
    if p then .incomplete else .balanced := by
  have hdepth : depthOf q = {} := by
    unfold depthOf
    rw [h]
    rfl
  rw [hdepth]
  cases p <;> rfl

theorem noHashBang_symbols {pre : List Token} (hbang : noHashBang letters s = true)
    (h : Lexes letters .endOfFile s pre t r) :
    ∀ u ∈ pre, ∀ text, u = .symbol text → hashBang text = false := by
  rintro u hu text rfl
  have hmem : Token.symbol text ∈ tokens letters s := by
    have heq : tokens letters s = pre ++ tokensFrom letters t r := h.tokens_eq
    rw [heq]
    exact List.mem_append_left _ hu
  have hall := List.all_eq_true.mp hbang _ hmem
  simpa using hall

theorem lexes_snoc {pre : List Token} (h : Lexes letters prev s pre t r)
    {u : Token} (hnext : next letters t r = (u, rest)) (hu : u.isLast = false) :
    Lexes letters prev s (pre ++ [u]) u rest := by
  induction h with
  | nil => exact .cons hnext hu (.nil u rest)
  | cons head more tail ih => exact .cons head more (ih hnext)

theorem lexes_cases {pre : List Token} (h : Lexes letters prev s pre t r) :
    (pre = [] ∧ t = prev ∧ r = s) ∨ ∃ pre₀ prev₀ r₀, pre = pre₀ ++ [t] ∧
      Lexes letters prev s pre₀ prev₀ r₀ ∧ next letters prev₀ r₀ = (t, r) ∧ t.isLast = false := by
  induction h with
  | nil => exact .inl ⟨rfl, rfl, rfl⟩
  | @cons prev u t s r rest ts head more tail ih =>
    rcases ih with ⟨rfl, rfl, rfl⟩ | ⟨pre₀, prev₀, r₀, rfl, hlex, hnext, ht⟩
    · exact .inr ⟨[], prev, s, rfl, .nil prev s, head, more⟩
    · exact .inr ⟨u :: pre₀, prev₀, r₀, rfl, .cons head more hlex, hnext, ht⟩

/-- What the scan knows after the last token. -/
theorem scan_last {pre : List Token} (hbang : noHashBang letters s = true)
    (h : Lexes letters .endOfFile s pre prev r) (hnext : next letters prev r = (t, rest))
    (ht : t.isLast = false) (hq : Pending.after {} (pre ++ [t]) = some q) :
    ∃ (p : Pending) (b : Option UInt8), p.advance t = some q ∧ scanBalance s = scanFrom
      (code (depthOf q) (looksPending (spaced r || opensMacro prev) t) b) rest := by
  have hsymbols := noHashBang_symbols hbang (lexes_snoc h hnext ht)
  rw [Pending.after_append] at hq
  cases hp : Pending.after {} pre with
  | none =>
    rw [hp] at hq
    cases hq
  | some p =>
    rw [hp] at hq
    have hadvance : p.advance t = some q := by
      have hq : (p.advance t).bind (Pending.after · []) = some q := hq
      cases hone : p.advance t with
      | none =>
        rw [hone] at hq
        cases hq
      | some q₁ =>
        rw [hone] at hq
        exact hq
    obtain ⟨p', b', hf, hsymbol, -, hscan⟩ := scan_run (p := false) (b := none) h hp
      (fun u hu => hsymbols u (List.mem_append_left _ hu)) (fun _ => rfl) (fun hs => by cases hs)
    obtain ⟨b₁, -, hafter⟩ := after_next (d := depthOf p) (p := p') hnext ht
      (hsymbols t (List.mem_append_right _ List.mem_cons_self)) hf hsymbol
    rw [depthOf_advance hadvance] at hafter
    exact ⟨p, b₁, hadvance, hscan.trans hafter⟩

/-- The scan of a text that ends after a token. -/
theorem scan_endsAfter {blanks : Bool} (hbang : noHashBang letters s = true)
    (h : EndsAfter letters s prev blanks t q) : ∃ p : Pending, p.advance t = some q ∧
      scanBalance s = (code (depthOf q) (looksPending (blanks || opensMacro prev) t) none).finish := by
  obtain ⟨pre, r, rest, hlex, hnext, ht, hend, rfl, hq⟩ := h
  obtain ⟨p, b, hadvance, hscan⟩ := scan_last hbang hlex hnext ht hq
  exact ⟨p, hadvance, hscan.trans (scan_end hend)⟩

/-- The reader of a text that ends after a token. -/
theorem reader_endsAfter {H : ReaderHost} {stack gensymId : Nat} {blanks : Bool}
    (hread : ∀ e, readAll H stack gensymId s = .error e → e.outOfInput = true)
    (h : EndsAfter H.letters s prev blanks t q) :
    (∃ e, readAll H stack gensymId s = .error e) ↔ q.isOpen := by
  obtain ⟨pre, r, rest, hlex, hnext, ht, hend, -, hq⟩ := h
  have hrun := lexes_snoc hlex hnext ht
  have hlast : (next H.letters t rest).1.isLast = true := by
    rw [hend]
    rfl
  constructor
  · rintro ⟨e, he⟩
    obtain ⟨pre', t', r', q', hlex', hq', hend'⟩ := readAll_out he (hread e he)
    have hlast' : (next H.letters t' r').1.isLast = true := by
      rcases hend' with ⟨hend', -⟩ | ⟨le, hend', -⟩
      · rw [hend']
        rfl
      · rw [hend']
        rfl
    obtain ⟨rfl, hsame⟩ := lexes_unique hrun hlast hlex' hlast'
    rw [hq] at hq'
    cases hq'
    rcases hend' with ⟨-, hopen⟩ | ⟨le, hend', -⟩
    · exact hopen
    · rw [hend, hend'] at hsame
      cases hsame
  · intro hopen
    cases hall : readAll H stack gensymId s with
    | error e => exact ⟨e, rfl⟩
    | ok forms =>
      obtain ⟨pre', t', r', hlex', hq', hend'⟩ := readAll_ok hall
      have hlast' : (next H.letters t' r').1.isLast = true := by
        rw [hend']
        rfl
      obtain ⟨rfl, -⟩ := lexes_unique hrun hlast hlex' hlast'
      rw [hq] at hq'
      cases hq'
      rcases hopen with hopen | hopen
      · exact absurd rfl hopen
      · exact absurd hopen (Nat.lt_irrefl 0)

/-- The answer that the scan should give: whether the reader runs out of input. -/
def Agrees (H : ReaderHost) (stack gensymId : Nat) (s : Bytes) : Prop :=
  (scanBalance s = .incomplete ↔ ∃ e, readAll H stack gensymId s = .error e) ∧
    (scanBalance s = .balanced ↔ ∃ forms, readAll H stack gensymId s = .ok forms)

theorem agrees_of_error {H : ReaderHost} {stack gensymId : Nat} {e : ReadError}
    (he : readAll H stack gensymId s = .error e) :
    Agrees H stack gensymId s ↔ scanBalance s = .incomplete := by
  unfold Agrees
  rw [he]
  constructor
  · rintro ⟨h, -⟩
    exact h.mpr ⟨e, rfl⟩
  · intro h
    rw [h]
    exact ⟨iff_of_true rfl ⟨e, rfl⟩, iff_of_false Balance.noConfusion fun ⟨f, hf⟩ => by cases hf⟩

theorem agrees_of_ok {H : ReaderHost} {stack gensymId : Nat} {forms : List Form}
    (h : readAll H stack gensymId s = .ok forms) :
    Agrees H stack gensymId s ↔ scanBalance s = .balanced := by
  unfold Agrees
  rw [h]
  constructor
  · rintro ⟨-, h⟩
    exact h.mpr ⟨forms, rfl⟩
  · intro h
    rw [h]
    exact ⟨iff_of_false Balance.noConfusion fun ⟨e, he⟩ => (by cases he),
      iff_of_true rfl ⟨forms, rfl⟩⟩

/-- On a text with no other read error and no `#!` in a symbol. -/
theorem scanBalance_agrees (H : ReaderHost) (stack gensymId : Nat) (s : Bytes)
    (hread : ∀ e, readAll H stack gensymId s = .error e → e.outOfInput = true)
    (hbang : noHashBang H.letters s = true) :
    Agrees H stack gensymId s ↔ Settled H.letters s := by
  constructor
  · intro hagrees prev blanks t q hends houter
    obtain ⟨p, hadvance, hscan⟩ := scan_endsAfter hbang hends
    rw [finish_top houter] at hscan
    have hpending : looksPending (blanks || opensMacro prev) t = true ↔
        scanBalance s = .incomplete := by
      rw [hscan]
      cases looksPending (blanks || opensMacro prev) t <;> simp
    have hopen : q.isOpen ↔ 0 < q.owed := or_iff_right fun h => h houter
    rw [fits_iff hadvance, hpending, hagrees.1, reader_endsAfter hread hends, hopen]
  · intro hsettled
    -- where the text ends after a token that waits for nothing else
    have hlast : ∀ {prev t : Token} {blanks : Bool} {q : Pending},
        EndsAfter H.letters s prev blanks t q → q.outer = [] →
        scanBalance s = if 0 < q.owed then .incomplete else .balanced := by
      intro prev t blanks q hends houter
      obtain ⟨p, hadvance, hscan⟩ := scan_endsAfter hbang hends
      have hfits := (fits_iff hadvance).mp (hsettled prev blanks t q hends houter)
      rw [hscan, finish_top houter]
      by_cases howed : 0 < q.owed
      · rw [if_pos howed, if_pos (hfits.mpr howed)]
      · rw [if_neg howed, if_neg fun h => howed (hfits.mp h)]
    cases hall : readAll H stack gensymId s with
    | ok forms =>
      rw [agrees_of_ok hall]
      obtain ⟨pre, t, r, hlex, hq, hend⟩ := readAll_ok hall
      rcases lexes_cases hlex with ⟨-, -, rfl⟩ | ⟨pre₀, prev, r₀, rfl, hlex₀, hnext, ht⟩
      · exact scan_end hend
      · exact hlast ⟨pre₀, r₀, r, hlex₀, hnext, ht, hend, rfl, hq⟩ rfl
    | error e =>
      rw [agrees_of_error hall]
      obtain ⟨pre, t, r, q, hlex, hq, hends⟩ := readAll_out hall (hread e hall)
      rcases hends with ⟨hend, hopen⟩ | ⟨le, hend, hout⟩
      · rcases lexes_cases hlex with ⟨rfl, -, -⟩ | ⟨pre₀, prev, r₀, rfl, hlex₀, hnext, ht⟩
        · cases hq
          rcases hopen with hopen | hopen
          · exact absurd rfl hopen
          · exact absurd hopen (Nat.lt_irrefl 0)
        · have hafter : EndsAfter H.letters s prev (spaced r₀) t q :=
            ⟨pre₀, r₀, r, hlex₀, hnext, ht, hend, rfl, hq⟩
          by_cases houter : q.outer = []
          · rw [hlast hafter houter, if_pos (hopen.resolve_left fun h => h houter)]
          · obtain ⟨p, -, hscan⟩ := scan_endsAfter hbang hafter
            rw [hscan, finish_open houter]
      · obtain ⟨p', b', -, -, -, hscan⟩ := scan_run (p := false) (b := none) hlex hq
          (noHashBang_symbols hbang hlex) (fun _ => rfl) (fun hs => by cases hs)
        exact hscan.trans (scan_unterminated hend hout)

end

/-- A quote at the end of the text, after a blank. -/
theorem scanBalance_agrees_quote :
    readAll asciiHost 4 0 (ascii "foo '") = .error (.noForm "'") ∧
    Agrees asciiHost 4 0 (ascii "foo '") ∧
    (Agrees asciiHost 4 0 (ascii "foo '") ↔ Settled asciiHost.letters (ascii "foo '")) := by
  have hread : readAll asciiHost 4 0 (ascii "foo '") = .error (.noForm "'") := rfl
  refine ⟨hread, ?_, scanBalance_agrees asciiHost 4 0 (ascii "foo '") (fun e he => ?_) (by decide)⟩
  · rw [agrees_of_error hread]
    decide
  · rw [hread] at he
    cases he
    rfl

/-- A quote after a closing bracket, and a symbol with a `#!`, mislead the scan. -/
theorem scan_misled :
    (∀ e, readAll asciiHost 4 0 (ascii "()'") = .error e → e.outOfInput = true) ∧
    ¬ Agrees asciiHost 4 0 (ascii "()'") ∧
    (readAll asciiHost 4 0 (ascii "(a#!)")).isOk = true ∧
    ¬ Agrees asciiHost 4 0 (ascii "(a#!)") := by
  have hquote : readAll asciiHost 4 0 (ascii "()'") = .error (.noForm "'") := rfl
  have hsymbol : (readAll asciiHost 4 0 (ascii "(a#!)")).isOk = true := by decide
  refine ⟨fun e he => ?_, ?_, hsymbol, ?_⟩
  · rw [hquote] at he
    cases he
    rfl
  · rw [agrees_of_error hquote]
    decide
  · cases hall : readAll asciiHost 4 0 (ascii "(a#!)") with
    | error e =>
      rw [hall] at hsymbol
      cases hsymbol
    | ok forms =>
      rw [agrees_of_ok hall]
      decide

end ProtoClojure.Repl
