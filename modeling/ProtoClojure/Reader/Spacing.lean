import ProtoClojure.Reader.Forms
import ProtoClojure.Reader.NextToken

/-! Blanks beside a token that ends itself: the text reads the same with and without them. -/
namespace ProtoClojure.Reader
open Decimal

/-! ### The first byte of a token -/

section
variable {letters : Nat → Bool} {prev t u : Token} {spaceBefore : Bool} {c : UInt8}
  {r s p q y w w' rest : Bytes} {ts : List Token}

theorem punctuation_low (h : punctuation c = some t) : c < 0x80 := by
  unfold punctuation at h
  split_ifs at h with h₁ h₂ h₃ h₄ h₅ h₆ h₇
  · rw [h₁]
    decide
  · rw [h₂]
    decide
  · rw [h₃]
    decide
  · rw [h₄]
    decide
  · rw [h₅]
    decide
  · rw [h₆]
    decide
  · rw [h₇]
    decide

theorem punctuation_symbol (h : punctuation c = some t) : t.isSymbol = false := by
  unfold punctuation at h
  split_ifs at h <;> cases h <;> rfl

theorem lexNumber_symbol {negative : Bool} (h : lexNumber letters negative s = (t, r))
    (ht : t.isLast = false) : t.isSymbol = false := by
  obtain ⟨N, rfl, -⟩ := exists_parts h ht
  unfold NumberParts.token numberToken
  split <;> rfl

theorem lexString_symbol (s : Bytes) : (lexString s).1.isSymbol = false := by
  unfold lexString
  cases stringBody 0 s <;> rfl

theorem lexRegex_symbol (s : Bytes) : (lexRegex s).1.isSymbol = false := by
  unfold lexRegex
  cases regexBody false s <;> rfl

theorem lexDispatch_symbol (s : Bytes) : (lexDispatch letters s).1.isSymbol = false := by
  cases s with
  | nil => rfl
  | cons la s =>
    unfold lexDispatch lexSymbolicValue
    dsimp only
    split_ifs
    · rfl
    · rfl
    · rfl
    · rfl
    · rfl
    · rfl
    · exact lexRegex_symbol s
    · rfl
    · rfl
    · rfl
    · rfl
    · rfl

/-- Where a symbol is read. -/
theorem lexToken_cases (h : lexToken letters prev spaceBefore (c :: s) = (t, r))
    (ht : t.isLast = false) : (c < 0x80 ∧ t.isSymbol = false) ∨
      ∃ n, symbolCharLength letters (c :: s) = n + 1 ∧ lexSymbol letters c n s = (t, r) := by
  unfold lexToken at h
  dsimp only at h
  cases hp : punctuation c with
  | some u =>
    rw [hp] at h
    cases h
    exact .inl ⟨punctuation_low hp, punctuation_symbol hp⟩
  | none =>
    rw [hp] at h
    dsimp only at h
    split_ifs at h with hquote hdigit hneg
    · have hs := lexString_symbol s
      rw [h] at hs
      exact .inl ⟨hquote ▸ by decide, hs⟩
    · exact .inl ⟨alnum_low (by rw [isAlnum, hdigit, Bool.true_or]), lexNumber_symbol h ht⟩
    · have hdash : c = dash := by
        cases s with
        | nil => cases (Bool.and_eq_true_iff.mp hneg).1
        | cons d s =>
          have hboth := (Bool.and_eq_true_iff.mp hneg).1
          exact beq_iff_eq.mp (Bool.and_eq_true_iff.mp hboth).1
      exact .inl ⟨hdash ▸ by decide, lexNumber_symbol h ht⟩
    · unfold lexSymbolOrPunct at h
      split_ifs at h with h₁ h₂ h₃ h₄ h₅
      · cases h
        exact .inl ⟨h₁ ▸ by decide, rfl⟩
      · cases h
        exact .inl ⟨h₂ ▸ by decide, rfl⟩
      · have htilde : t.isSymbol = false := by
          cases s with
          | nil =>
            cases h
            rfl
          | cons d s =>
            dsimp only at h
            split at h <;> cases h <;> rfl
        exact .inl ⟨h₃ ▸ by decide, htilde⟩
      · cases h
        cases ht
      · have hs : (lexDispatch letters s).1.isSymbol = false := lexDispatch_symbol s
        rw [h] at hs
        exact .inl ⟨h₅ ▸ by decide, hs⟩
      · cases hn : symbolCharLength letters (c :: s) with
        | zero =>
          rw [hn] at h
          have hlast := unexpected_last c s
          dsimp only at h
          rw [h, ht] at hlast
          cases hlast
        | succ n =>
          rw [hn] at h
          exact .inr ⟨n, rfl, h⟩

theorem next_cases (h : next letters prev s = (t, r)) (ht : t.isLast = false) :
    ∃ c s', skipWhitespaceAndComments s = c :: s' ∧ ((c < 0x80 ∧ t.isSymbol = false) ∨
      ∃ n, symbolCharLength letters (c :: s') = n + 1 ∧ lexSymbol letters c n s' = (t, r)) := by
  unfold next at h
  dsimp only at h
  cases hs : skipWhitespaceAndComments s with
  | nil =>
    rw [hs] at h
    cases h
    cases ht
  | cons c s' =>
    rw [hs] at h
    exact ⟨c, s', rfl, lexToken_cases h ht⟩

/-- A token that is no symbol has an ASCII byte, its first. -/
theorem next_low (h : next letters prev s = (t, r)) (ht : t.isLast = false)
    (hsymbol : t.isSymbol = false) : ∃ b ∈ s, b < 0x80 := by
  obtain ⟨c, s', hskip, ⟨hc, -⟩ | ⟨n, -, hlex⟩⟩ := next_cases h ht
  · have hs : c :: s' <:+ s := hskip ▸ skipBlank_suffix false s
    exact ⟨c, hs.subset List.mem_cons_self, hc⟩
  · cases hlex
    cases hsymbol

/-- A symbol ends where none of its characters follows. -/
theorem next_symbol_end (h : next letters prev s = (t, r)) (ht : t.isSymbol = true) :
    symbolNextLength letters r = 0 := by
  have hlast : t.isLast = false := by
    cases t <;> first | rfl | cases ht
  obtain ⟨c, s', -, ⟨-, hsymbol⟩ | ⟨n, hn, hlex⟩⟩ := next_cases h hlast
  · rw [ht] at hsymbol
    cases hsymbol
  · cases hlex
    have hend := takeChars_end (measures_symbolNext : Measures (symbolNextLength letters))
      (Nat.le_of_succ_le_succ (symbolCharLength_le hn))
    rcases hend with hend | hend
    · exact hend
    · rw [hend]
      rfl

/-- Between a symbol and the next token stands an ASCII byte. -/
theorem low_after_symbol (h : next letters prev s = (t, r)) (ht : t.isSymbol = true)
    (hu : next letters t r = (u, rest)) (hmore : u.isLast = false) : ∃ b ∈ r, b < 0x80 := by
  have hend := next_symbol_end h ht
  obtain ⟨d, r', hskip, ⟨hd, -⟩ | ⟨m, hm, -⟩⟩ := next_cases hu hmore
  · have hs : d :: r' <:+ r := hskip ▸ skipBlank_suffix false r
    exact ⟨d, hs.subset List.mem_cons_self, hd⟩
  · by_contra hnone
    cases r with
    | nil => cases hskip
    | cons b r =>
      have hb : ¬ b < 0x80 := fun hb => hnone ⟨b, List.mem_cons_self, hb⟩
      have hblank : ¬ isBlank b = true := by
        intro hblank
        have hlow : ∀ e ∈ blanks, e < 0x80 := by decide
        exact hb (hlow b (List.contains_iff_mem.mp hblank))
      have hcomment : ¬ (b = 0x3B ∨ (b = hash ∧ r.head? = some 0x21)) := by
        rintro (rfl | ⟨rfl, -⟩)
        · exact hb (by decide)
        · exact hb (by decide)
      unfold skipWhitespaceAndComments at hskip
      rw [skipBlank, if_neg hblank, if_neg hcomment] at hskip
      cases hskip
      have hhash : ¬ (d :: r').head? = some hash := by
        intro h
        obtain rfl : d = hash := Option.some.inj h
        exact hb (by decide)
      rw [symbolNextLength, if_neg hhash, hm] at hend
      cases hend

/-! ### Runs of tokens in a longer text -/

theorem selfDelimiting_symbol (h : t.selfDelimiting = true) : t.isSymbol = false := by
  cases t <;> first | rfl | cases h

theorem stopsAt_other (h : t.stopsAt c = true) (hu : u.isSymbol = false) : u.stopsAt c = true := by
  rw [Token.stopsAt, Bool.or_eq_true] at h ⊢
  refine h.imp_right fun h => ?_
  rw [Bool.and_eq_true] at h ⊢
  exact ⟨h.1, by rw [hu]; rfl⟩

theorem Lexes.low (h : Lexes letters prev s ts t rest) (hts : ts ≠ [])
    (ht : t.isSymbol = false) : ∃ b ∈ s, b < 0x80 := by
  induction h with
  | nil => exact absurd rfl hts
  | @cons prev u t s r rest ts head more tail ih =>
    cases ts with
    | nil =>
      cases tail
      exact next_low head more ht
    | cons v ts =>
      obtain ⟨b, hb, hlow⟩ := ih (List.cons_ne_nil v ts) ht
      exact ⟨b, (next_shorter head more).1.subset hb, hlow⟩

theorem kept_before (h : next letters prev s = (u, r)) (htail : Lexes letters u r ts t rest)
    (hk : Kept t rest y) : Kept u r y := by
  cases htail with
  | nil => exact hk
  | @cons _ v _ _ r' _ ts head more tail =>
    cases hu : u.isSymbol with
    | true => exact .inr (.inl (low_after_symbol h hu head more))
    | false =>
      rcases hk with hself | ⟨b, hb, hlow⟩ | hstop
      · exact .inr (.inl ((tail.cons head more).low (List.cons_ne_nil v ts)
          (selfDelimiting_symbol hself)))
      · exact .inr (.inl ⟨b, (tail.cons head more).suffix.subset hb, hlow⟩)
      · exact .inr (.inr fun d hd => stopsAt_other (hstop d hd) hu)

theorem Lexes.append (h : Lexes letters prev s ts t rest) (hk : Kept t rest y) :
    Lexes letters prev (s ++ y) ts t (rest ++ y) := by
  induction h with
  | nil prev s => exact .nil prev (s ++ y)
  | cons head more tail ih =>
    exact .cons (next_append head more (kept_before head tail hk)) more (ih hk)

/-- All that matters of the token before is whether it ends an operand. -/
theorem next_prev (h : prev.endsOperand = u.endsOperand) :
    next letters prev s = next letters u s := by
  unfold next
  dsimp only
  cases skipWhitespaceAndComments s with
  | nil => rfl
  | cons c s' =>
    unfold lexToken
    rw [h]

theorem Lexes.after (h : Lexes letters prev s ts t rest) (hts : ts ≠ [])
    (hprev : prev.endsOperand = u.endsOperand) : Lexes letters u s ts t rest := by
  cases h with
  | nil => exact absurd rfl hts
  | cons head more tail => exact .cons (next_prev hprev ▸ head) more tail

/-! ### Blanks between two tokens -/

/-- The bytes at the front of `q` make one token with what stands before them, a blank between
them two: a `-` and a digit after an operand, a `#` after a symbol. -/
def Joins (t : Token) (q : Bytes) : Prop :=
  (t.endsOperand = true ∧ startsNegative q = true) ∨ (t.isSymbol = true ∧ q.head? = some hash)

theorem lexToken_space (h : ¬ (t.endsOperand = true ∧ startsNegative s = true)) :
    lexToken letters t true s = lexToken letters t false s := by
  cases s with
  | nil => rfl
  | cons c s =>
    unfold lexToken
    dsimp only
    cases ht : t.endsOperand with
    | false => rfl
    | true =>
      cases hs : startsNegative (c :: s) with
      | false => rfl
      | true => exact absurd ⟨ht, hs⟩ h

theorem next_blanks (hw : ∀ c ∈ w, isBlank c = true) : next letters t (w ++ q) =
    lexToken letters t (decide (w ≠ []) || decide ((skipWhitespaceAndComments q).length ≠ q.length))
      (skipWhitespaceAndComments q) := by
  have hskip : skipWhitespaceAndComments (w ++ q) = skipWhitespaceAndComments q :=
    skipBlank_blanks hw q
  have hle : (skipWhitespaceAndComments q).length ≤ q.length := (skipBlank_suffix false q).length_le
  unfold next
  dsimp only
  rw [hskip]
  congr 1
  rw [Bool.eq_iff_iff, Bool.or_eq_true, decide_eq_true_eq, decide_eq_true_eq, decide_eq_true_eq,
    List.length_append, ← List.length_pos_iff]
  omega

/-- Blanks before a token change nothing where there were blanks, or where it does not matter. -/
theorem next_layout (hw : ∀ c ∈ w, isBlank c = true) (hw' : ∀ c ∈ w', isBlank c = true)
    (h : (w = [] ↔ w' = []) ∨ ¬ (t.endsOperand = true ∧ startsNegative q = true)) :
    next letters t (w ++ q) = next letters t (w' ++ q) := by
  rw [next_blanks hw, next_blanks hw']
  by_cases hiff : w = [] ↔ w' = []
  · rw [decide_eq_decide.mpr (not_congr hiff)]
  · by_cases hskip : (skipWhitespaceAndComments q).length = q.length
    · have hq : skipWhitespaceAndComments q = q := (skipBlank_suffix false q).eq_of_length hskip
      rw [hq]
      have hspace : lexToken letters t true q = _ := lexToken_space (h.resolve_left hiff)
      cases decide (w ≠ []) <;> cases decide (w' ≠ []) <;> simp [hspace]
    · rw [decide_eq_true hskip, Bool.or_true, Bool.or_true]

theorem tokensFrom_layout (hw : ∀ c ∈ w, isBlank c = true) (hw' : ∀ c ∈ w', isBlank c = true)
    (h : (w = [] ↔ w' = []) ∨ ¬ (t.endsOperand = true ∧ startsNegative q = true)) :
    tokensFrom letters t (w ++ q) = tokensFrom letters t (w' ++ q) := by
  rw [tokensFrom_eq, tokensFrom_eq t (w' ++ q), next_layout hw hw' h]

/-! ### A token that ends itself, before or after the blanks -/

/-- What a token that ends itself starts with. -/
def selfStarts : Bytes := [0x29, 0x5D, 0x7D, doubleQuote, hash]

theorem selfDelimiting_more (h : t.selfDelimiting = true) : t.isLast = false := by
  cases t <;> first | rfl | cases h

theorem lexToken_self (h : lexToken letters prev spaceBefore (c :: s) = (t, r))
    (ht : t.selfDelimiting = true) : c ∈ selfStarts := by
  unfold lexToken at h
  dsimp only at h
  cases hp : punctuation c with
  | some u =>
    rw [hp] at h
    cases h
    unfold punctuation at hp
    split_ifs at hp with h₁ h₂ h₃ h₄ h₅ h₆ h₇ <;> cases hp
    · cases ht
    · rw [h₂]
      decide
    · cases ht
    · rw [h₄]
      decide
    · cases ht
    · rw [h₆]
      decide
    · cases ht
  | none =>
    have hnumber : ∀ {negative : Bool} {s : Bytes},
        lexNumber letters negative s ≠ (t, r) := by
      intro negative s h
      obtain ⟨N, rfl, -⟩ := exists_parts h (selfDelimiting_more ht)
      unfold NumberParts.token numberToken at ht
      split at ht <;> cases ht
    rw [hp] at h
    dsimp only at h
    split_ifs at h with hquote
    · rw [hquote]
      decide
    · exact absurd h hnumber
    · exact absurd h hnumber
    · unfold lexSymbolOrPunct at h
      split_ifs at h with h₁ h₂ h₃ h₄ h₅
      · cases h
        cases ht
      · cases h
        cases ht
      · cases s with
        | nil =>
          cases h
          cases ht
        | cons d s =>
          dsimp only at h
          split at h <;> cases h <;> cases ht
      · cases h
        cases ht
      · rw [h₅]
        decide
      · cases hn : symbolCharLength letters (c :: s) with
        | zero =>
          rw [hn] at h
          have hlast := unexpected_last c s
          dsimp only at h
          rw [h, selfDelimiting_more ht] at hlast
          cases hlast
        | succ n =>
          rw [hn] at h
          cases h
          cases ht

/-- What stands before a token that ends itself ends the token before. -/
theorem next_self_head (ht : (next letters prev q).1.selfDelimiting = true) :
    ∀ d ∈ q.head?, d ∈ hash :: stops := by
  intro d hd
  cases q with
  | nil => cases hd
  | cons c s =>
    obtain rfl : c = d := Option.some.inj hd
    by_cases hblank : isBlank c = true
    · have hsub : ∀ e ∈ blanks, e ∈ hash :: stops := by decide
      exact hsub c (List.contains_iff_mem.mp hblank)
    · by_cases hcomment : c = 0x3B ∨ (c = hash ∧ s.head? = some 0x21)
      · rcases hcomment with rfl | ⟨rfl, -⟩
        · decide
        · decide
      · have hskip : skipWhitespaceAndComments (c :: s) = c :: s := by
          unfold skipWhitespaceAndComments
          rw [skipBlank, if_neg hblank, if_neg hcomment]
        have hsub : ∀ e ∈ selfStarts, e ∈ hash :: stops := by decide
        unfold next at ht
        rw [hskip] at ht
        exact hsub c (lexToken_self rfl ht)

theorem stopsAt_of_mem (h : c ∈ hash :: stops)
    (hc : ¬ (t.isSymbol = true ∧ c = hash)) : t.stopsAt c = true := by
  have hsplit : stops.contains c = true ∨ c = hash :=
    (List.mem_cons.mp h).symm.imp_left List.contains_iff_mem.mpr
  rw [Token.stopsAt, Bool.or_eq_true]
  refine hsplit.imp_right fun heq => ?_
  rw [Bool.and_eq_true, beq_iff_eq]
  refine ⟨heq, ?_⟩
  cases hs : t.isSymbol with
  | false => rfl
  | true => exact absurd ⟨hs, heq⟩ hc

theorem kept_blanks (hw : ∀ c ∈ w, isBlank c = true)
    (hself : t.selfDelimiting = true ∨ (next letters t q).1.selfDelimiting = true)
    (hjoin : w = [] → ¬ Joins t q) : Kept t [] (w ++ q) := by
  rcases hself with hself | hself
  · exact .inl hself
  · refine .inr (.inr fun d hd => ?_)
    cases w with
    | nil =>
      refine stopsAt_of_mem (next_self_head hself d hd) ?_
      rintro ⟨hsymbol, rfl⟩
      exact hjoin rfl (.inr ⟨hsymbol, hd⟩)
    | cons c w =>
      obtain rfl : c = d := Option.some.inj hd
      have hsub : ∀ e ∈ blanks, stops.contains e = true := by decide
      rw [Token.stopsAt, hsub c (List.contains_iff_mem.mp (hw c List.mem_cons_self)),
        Bool.true_or]

/-- Blanks after the tokens of `p`, where the last of them or the next one ends itself. -/
theorem tokens_layout (hp : Lexes letters .endOfFile p ts t [])
    (hself : t.selfDelimiting = true ∨ (next letters t q).1.selfDelimiting = true)
    (hw : ∀ c ∈ w, isBlank c = true) (hw' : ∀ c ∈ w', isBlank c = true)
    (hjoin : (w = [] ↔ w' = []) ∨ ¬ Joins t q) :
    tokens letters (p ++ w ++ q) = tokens letters (p ++ w' ++ q) := by
  by_cases hnil : w = [] ∧ w' = []
  · rw [hnil.1, hnil.2]
  · have hjoins : w = [] ∨ w' = [] → ¬ Joins t q := by
      intro hor
      rcases hjoin with hiff | hjoin
      · rcases hor with h | h
        · exact absurd ⟨h, hiff.mp h⟩ hnil
        · exact absurd ⟨hiff.mpr h, h⟩ hnil
      · exact hjoin
    have htokens : ∀ {v : Bytes}, (∀ c ∈ v, isBlank c = true) → (v = [] → ¬ Joins t q) →
        tokens letters (p ++ v ++ q) = ts ++ tokensFrom letters t (v ++ q) := by
      intro v hv hvjoin
      rw [List.append_assoc]
      exact (hp.append (kept_blanks hv hself hvjoin)).tokens_eq
    rw [htokens hw fun h => hjoins (.inl h), htokens hw' fun h => hjoins (.inr h),
      tokensFrom_layout hw hw' (hjoin.imp_right fun h hneg => h (.inl hneg))]

/-- The tokens of the text end with `t`, which ends itself, at the end of the text. -/
def EndsClosed (letters : Nat → Bool) (a : Bytes) (t : Token) : Prop :=
  ∃ ts, Lexes letters .endOfFile a ts t [] ∧ t.selfDelimiting = true

theorem lexes_vector (ha : EndsClosed letters p t) :
    ∃ ts, Lexes letters .endOfFile (ascii "[" ++ p) ts t [] := by
  obtain ⟨ts, hlex, hself⟩ := ha
  have hts : ts ≠ [] := by
    rintro rfl
    cases hlex
    cases hself
  have hhead : next letters .endOfFile (ascii "[" ++ p) = (.lbracket, p) := by
    rfl
  exact ⟨.lbracket :: ts, .cons hhead rfl (hlex.after hts rfl)⟩

theorem readAll_spacing (H : ReaderHost) (stack gensymId : Nat) :
    (∀ (a b : Bytes) (t : Token), EndsClosed H.letters a t →
      ¬ (t.endsOperand = true ∧ startsNegative b = true) →
      readAll H stack gensymId (ascii "[" ++ a ++ b ++ ascii "]") =
        readAll H stack gensymId (ascii "[" ++ a ++ ascii " " ++ b ++ ascii "]")) ∧
    ∀ (p w w' q : Bytes) (ts : List Token) (t : Token), Lexes H.letters .endOfFile p ts t [] →
      (t.selfDelimiting = true ∨ (next H.letters t q).1.selfDelimiting = true) →
      (∀ c ∈ w, isBlank c = true) → (∀ c ∈ w', isBlank c = true) →
      ((w = [] ↔ w' = []) ∨ ¬ Joins t q) →
      readAll H stack gensymId (p ++ w ++ q) = readAll H stack gensymId (p ++ w' ++ q) := by
  constructor
  · intro a b t ha hneg
    obtain ⟨ts, hlex⟩ := lexes_vector ha
    obtain ⟨-, -, hself⟩ := ha
    have hnone : ∀ c ∈ ([] : Bytes), isBlank c = true := fun c hc => by cases hc
    have hspace : ∀ c ∈ ascii " ", isBlank c = true := by
      intro c hc
      obtain rfl : c = 0x20 := List.mem_singleton.mp hc
      rfl
    have hjoin : ¬ Joins t (b ++ ascii "]") := by
      rintro (⟨hoperand, hstart⟩ | ⟨hsymbol, -⟩)
      · refine hneg ⟨hoperand, ?_⟩
        obtain _ | ⟨c, _ | ⟨d, b⟩⟩ := b
        · cases hstart
        · rw [← hstart]
          exact (startsNegative_append fun _ d hd => by
            cases hd
            rfl).symm
        · exact hstart
      · rw [selfDelimiting_symbol hself] at hsymbol
        cases hsymbol
    have htokens := tokens_layout hlex (.inl hself) hnone hspace (.inr hjoin)
    unfold readAll
    rw [List.append_nil, ← List.append_assoc, ← List.append_assoc] at htokens
    rw [htokens]
  · intro p w w' q ts t hp hself hw hw' hjoin
    unfold readAll
    rw [tokens_layout hp hself hw hw' hjoin]

end

/-- A reader of ASCII that finds no two keys equal. -/
def asciiHost : ReaderHost where
  letters _ := false
  text s := String.ofList (s.map fun b => Char.ofNat b.toNat)
  double _ := 0
  patternError _ := none
  mapCount kv := kv.length / 2
  setCount items := items.length
  keyEquals _ _ := false
  resolver := none
  edn := false

theorem endsClosed_string : EndsClosed asciiHost.letters (ascii "\"a\"") (.string (ascii "a")) :=
  ⟨[.string (ascii "a")], .cons rfl rfl (.nil _ _), rfl⟩

theorem readAll_spacing_string :
    readAll asciiHost 4 0 (ascii "[" ++ ascii "\"a\"" ++ ascii "b" ++ ascii "]") =
      readAll asciiHost 4 0 (ascii "[" ++ ascii "\"a\"" ++ ascii " " ++ ascii "b" ++ ascii "]") ∧
    readAll asciiHost 4 0 (ascii "x" ++ [] ++ ascii "\"a\"") =
      readAll asciiHost 4 0 (ascii "x" ++ [0x2C, LF] ++ ascii "\"a\"") :=
  ⟨(readAll_spacing asciiHost 4 0).1 (ascii "\"a\"") (ascii "b") _ endsClosed_string
      (by decide),
    (readAll_spacing asciiHost 4 0).2 (ascii "x") [] [0x2C, LF] (ascii "\"a\"")
      [.symbol (ascii "x")] (.symbol (ascii "x")) (.cons rfl rfl (.nil _ _)) (.inr rfl)
      (fun c hc => by cases hc) (by decide)
      (.inr (by unfold Joins; decide))⟩

/-- A `-` after an operand, and a `#` after a symbol, go on where a blank would end them. -/
theorem spacing_matters :
    (∃ a b f g t, readAll asciiHost 4 0 a = .ok [f] ∧ readAll asciiHost 4 0 b = .ok [g] ∧
      EndsClosed asciiHost.letters a t ∧
      readAll asciiHost 4 0 (ascii "[" ++ a ++ b ++ ascii "]") ≠
        readAll asciiHost 4 0 (ascii "[" ++ a ++ ascii " " ++ b ++ ascii "]")) ∧
    readAll asciiHost 4 0 (ascii "x#\"a\"") ≠ readAll asciiHost 4 0 (ascii "x #\"a\"") := by
  constructor
  · refine ⟨ascii "\"a\"", ascii "-1", .str "a", .int (-1), _, rfl, rfl, endsClosed_string, ?_⟩
    have hjoined : readAll asciiHost 4 0 (ascii "[" ++ ascii "\"a\"" ++ ascii "-1" ++ ascii "]") =
        .ok [.vector [.str "a", .name "-1"]] := rfl
    have hspaced : readAll asciiHost 4 0
        (ascii "[" ++ ascii "\"a\"" ++ ascii " " ++ ascii "-1" ++ ascii "]") =
        .ok [.vector [.str "a", .int (-1)]] := rfl
    rw [hjoined, hspaced]
    intro h
    injection h with h
    injection h with h
    injection h with h
    injection h with _ h
    injection h with h
    cases h
  · have hjoined : readAll asciiHost 4 0 (ascii "x#\"a\"") = .ok [.name "x#", .str "a"] := rfl
    have hspaced : readAll asciiHost 4 0 (ascii "x #\"a\"") =
        .ok [.name "x", .pattern "a"] := rfl
    rw [hjoined, hspaced]
    intro h
    injection h with h
    injection h with _ h
    injection h with h
    cases h

end ProtoClojure.Reader
