import ProtoClojure.Collections.NameSupply
import ProtoClojure.Reader.Arguments
import ProtoClojure.Reader.Gensym

/-! `#(body)`: the arguments that the body names, and the form that is read. -/
namespace ProtoClojure.Reader
open Decimal NameSupply Unwinding

/-! ### Symbols asked for -/

def FnLiteral.symbol (lit : FnLiteral) : Arg → Option String
  | .param i => (lit.params[i]?).getD none
  | .rest => lit.rest

def argName (a : Arg) (n : Nat) : String := generated a.stem n

theorem generated_number {s t : String} {m n : Nat} (h : generated s m = generated t n) : m = n := by
  have hlist := congrArg String.toList h
  simp only [generated, String.toList_append] at hlist
  exact number_text (List.append_cancel_right hlist)

theorem argName_number (a b : Arg) (m n : Nat) (h : argName a m = argName b n) : m = n :=
  generated_number h

/-- A symbol was there, or was made from the next number. -/
structure Asked (lit lit' : FnLiteral) (g g' : Nat) (a : Arg) (symbol : String) : Prop where
  answer : lit'.symbol a = some symbol
  length : lit'.params.length = max lit.params.length a.index
  rest : lit'.rest.isSome = (lit.rest.isSome || a = .rest)
  drawn : lit'.symbol = lit.symbol ∧ g' = g ∨ lit.symbol a = none ∧ g' = g + 1 ∧
    lit'.symbol = Function.update lit.symbol a (some (argName a (g + 1)))

section
variable {lit : FnLiteral} {σ σ' : ReadState} {symbol : String}

/-- More places, with no symbol yet. -/
theorem symbol_padded (lit : FnLiteral) (k : Nat) :
    FnLiteral.symbol { lit with params := lit.params ++ List.replicate k none } = lit.symbol := by
  funext a
  cases a with
  | rest => rfl
  | param i =>
    show ((lit.params ++ List.replicate k none)[i]?).getD none = (lit.params[i]?).getD none
    by_cases hi : i < lit.params.length
    · rw [List.getElem?_append_left hi]
    · have hle : lit.params.length ≤ i := Nat.le_of_not_lt hi
      rw [List.getElem?_append_right hle, List.getElem?_eq_none hle, List.getElem?_replicate]
      split <;> rfl

theorem symbol_set {params : List (Option String)} {i : Nat} (hi : i < params.length)
    (rest : Option String) (s : String) :
    FnLiteral.symbol { params := params.set i (some s), rest } =
      Function.update (FnLiteral.symbol { params, rest }) (.param i) (some s) := by
  funext a
  by_cases ha : a = .param i
  · subst ha
    rw [Function.update_self]
    show ((params.set i (some s))[i]?).getD none = some s
    rw [List.getElem?_set_self hi]
    rfl
  · rw [Function.update_of_ne ha]
    cases a with
    | rest => rfl
    | param j =>
      show ((params.set i (some s))[j]?).getD none = (params[j]?).getD none
      rw [List.getElem?_set_ne fun h => ha (by rw [h])]

theorem fnParam_asked (i : Nat) (h : fnParam lit (i + 1) σ = .ok symbol σ') :
    ∃ lit', σ' = { σ with fnLiteral := some lit', gensymId := σ'.gensymId } ∧
      Asked lit lit' σ.gensymId σ'.gensymId (.param i) symbol := by
  unfold fnParam at h
  dsimp only at h
  rw [Nat.add_sub_cancel] at h
  have hlen : (lit.params ++ List.replicate (i + 1 - lit.params.length) none).length =
      max lit.params.length (i + 1) := by
    rw [List.length_append, List.length_replicate]
    omega
  have hpad := symbol_padded lit (i + 1 - lit.params.length)
  have hsymbol := congrFun hpad (.param i)
  cases hat : ((lit.params ++ List.replicate (i + 1 - lit.params.length) none)[i]?).getD none with
  | some s =>
    rw [hat] at h
    cases h
    refine ⟨_, rfl, hat, hlen, (Bool.or_false _).symm, .inl ⟨hpad, rfl⟩⟩
  | none =>
    rw [hat] at h
    cases h
    have hset := symbol_set (i := i) (by rw [hlen]; omega) lit.rest
      (argName (.param i) (σ.gensymId + 1))
    refine ⟨_, rfl, ?_, ?_, (Bool.or_false _).symm, .inr ⟨?_, rfl, ?_⟩⟩
    · exact (congrFun hset (.param i)).trans (Function.update_self _ _ _)
    · rw [List.length_set, hlen]
      rfl
    · rw [← hsymbol]
      exact hat
    · rw [← hpad]
      exact hset

/-- The digits of an index are read from the left. -/
theorem argIndex_some {n : Nat} {s : Bytes} {m : Nat} (h : argIndex n s = .ok (some m)) :
    s.all isDigit = true ∧ m = n * 10 ^ s.length + digitsValue s ∧ (n ≤ 20 → m ≤ 20) := by
  induction s generalizing n with
  | nil =>
    cases h
    exact ⟨rfl, by simp, id⟩
  | cons c s ih =>
    unfold argIndex at h
    split at h
    · cases h
    · rename_i hc
      dsimp only at h
      split at h
      · cases h
      · rename_i hle
        obtain ⟨hall, hm, h20⟩ := ih h
        refine ⟨?_, ?_, fun _ => h20 (Nat.le_of_not_lt hle)⟩
        · rw [List.all_cons, hall, Bool.and_true]
          simpa using hc
        · rw [hm, digitsValue_cons, List.length_cons]
          ring

theorem argIndex_none {n : Nat} {s : Bytes} (h : argIndex n s = .ok none) :
    s.all isDigit = false := by
  induction s generalizing n with
  | nil => cases h
  | cons c s ih =>
    unfold argIndex at h
    split at h
    · rename_i hc
      rw [List.all_cons]
      simp only [Bool.not_eq_true'] at hc
      rw [hc, Bool.false_and]
    · dsimp only at h
      split at h
      · cases h
      · rw [List.all_cons, ih h, Bool.and_false]

theorem head_of_argOf {text : Bytes} {a : Arg} (h : argOf text = some a) :
    text.head? = some 0x25 := by
  unfold argOf at h
  split at h
  · rename_i hrest
    rw [hrest]
    rfl
  · split at h
    · rename_i hfirst
      rw [hfirst]
      rfl
    · split at h
      · rename_i hindex
        exact hindex.1
      · cases h

theorem argOf_index {text : Bytes} {n : Nat} (hhead : text.head? = some 0x25)
    (hlen : text.length ≠ 1) (h : argIndex 0 text.tail = .ok (some n)) (hn : n ≠ 0) :
    argOf text = some (.param (n - 1)) := by
  obtain ⟨hall, hvalue, h20⟩ := argIndex_some h
  rw [Nat.zero_mul, Nat.zero_add] at hvalue
  unfold argOf
  rw [if_neg, if_neg, if_pos, ← hvalue]
  · refine ⟨hhead, hall, ?_, ?_⟩
    · omega
    · exact hvalue ▸ h20 (Nat.zero_le _)
  · rintro rfl
    exact hlen rfl
  · rintro rfl
    cases hall

theorem argOf_none {text : Bytes} (hrest : text ≠ ascii "%&") (hlen : text.length ≠ 1)
    (h : argIndex 0 text.tail = .ok none) : argOf text = none := by
  unfold argOf
  rw [if_neg hrest, if_neg, if_neg]
  · rw [argIndex_none h]
    rintro ⟨-, hfalse, -⟩
    cases hfalse
  · rintro rfl
    exact hlen rfl

/-- An argument's symbol is found or made; another symbol of the text is left alone. -/
theorem fnLiteralArg_asked {text : Bytes} {answer : Option String}
    (hlit : σ.fnLiteral = some lit) (hhead : text.head? = some 0x25)
    (h : fnLiteralArg lit text σ = .ok answer σ') :
    (∃ a symbol lit', argOf text = some a ∧ answer = some symbol ∧
      σ' = { σ with fnLiteral := some lit', gensymId := σ'.gensymId } ∧
      Asked lit lit' σ.gensymId σ'.gensymId a symbol) ∨
    argOf text = none ∧ answer = none ∧ σ' = σ := by
  unfold fnLiteralArg at h
  split at h
  · rename_i hrest
    have harg : argOf text = some .rest := by rw [hrest]; rfl
    cases hat : lit.rest with
    | some s =>
      rw [hat] at h
      cases h
      refine .inl ⟨.rest, s, lit, harg, rfl, by rw [← hlit], hat, (Nat.max_zero _).symm, ?_,
        .inl ⟨rfl, rfl⟩⟩
      rw [hat]
      rfl
    | none =>
      rw [hat] at h
      cases h
      refine .inl ⟨.rest, _, { lit with rest := some (argName .rest (σ.gensymId + 1)) }, harg, rfl,
        rfl, rfl, (Nat.max_zero _).symm, ?_, .inr ⟨hat, rfl, ?_⟩⟩
      · rw [hat]
        rfl
      · funext a
        cases a with
        | rest =>
          rw [Function.update_self]
          rfl
        | param i =>
          have hne : Arg.param i ≠ .rest := by
            intro h
            cases h
          rw [Function.update_of_ne hne]
          rfl
  · rename_i hrest
    split at h
    · rename_i hlen
      have htext : text = ascii "%" := by
        cases text with
        | nil => cases hhead
        | cons c text =>
          obtain rfl := List.length_eq_zero_iff.mp (Nat.succ.inj hlen)
          cases hhead
          rfl
      obtain ⟨symbol, hparam, rfl⟩ := map_ok.mp h
      obtain ⟨lit', hσ, hasked⟩ := fnParam_asked 0 hparam
      have harg : argOf text = some (.param 0) := by rw [htext]; rfl
      exact .inl ⟨.param 0, symbol, lit', harg, rfl, hσ, hasked⟩
    · rename_i hlen
      cases hindex : argIndex 0 text.tail with
      | error e =>
        rw [hindex] at h
        cases h
      | ok index =>
        rw [hindex] at h
        cases index with
        | none =>
          cases h
          exact .inr ⟨argOf_none hrest hlen hindex, rfl, rfl⟩
        | some n =>
          replace h : (if n = 0 then fail "Arg literal must be %, %& or %integer"
            else some <$> fnParam lit n : Read (Option String)) σ = .ok answer σ' := h
          split at h
          · cases h
          · rename_i hn
            obtain ⟨symbol, hparam, rfl⟩ := map_ok.mp h
            have harg := argOf_index hhead hlen hindex hn
            obtain ⟨i, rfl⟩ := Nat.exists_eq_succ_of_ne_zero hn
            obtain ⟨lit', hσ, hasked⟩ := fnParam_asked i hparam
            exact .inl ⟨.param i, symbol, lit', harg, rfl, hσ, hasked⟩

end

/-! ### Inside a literal -/

/-- Between two states of a literal, when the arguments `used` have been read. -/
structure Extends (lit lit' : FnLiteral) (used : List Arg) : Prop where
  keeps : ∀ a s, lit.symbol a = some s → lit'.symbol a = some s
  named : ∀ a ∈ used, (lit'.symbol a).isSome
  length : lit'.params.length = max lit.params.length (highest used)
  rest : lit'.rest.isSome = true ↔ lit.rest.isSome = true ∨ .rest ∈ used

theorem Extends.refl (lit : FnLiteral) : Extends lit lit [] where
  keeps a s h := h
  named a h := by cases h
  length := (Nat.max_zero _).symm
  rest := by simp

theorem Extends.trans {lit lit' lit'' : FnLiteral} {used used' : List Arg}
    (h : Extends lit lit' used) (h' : Extends lit' lit'' used') :
    Extends lit lit'' (used ++ used') where
  keeps a s hs := h'.keeps a s (h.keeps a s hs)
  named a ha := by
    rcases List.mem_append.mp ha with ha | ha
    · obtain ⟨s, hs⟩ := Option.isSome_iff_exists.mp (h.named a ha)
      rw [h'.keeps a s hs]
      rfl
    · exact h'.named a ha
  length := by rw [h'.length, h.length, highest_append, Nat.max_assoc]
  rest := by rw [h'.rest, h.rest, List.mem_append, or_assoc]

theorem Asked.extends {lit lit' : FnLiteral} {g g' : Nat} {a : Arg} {symbol : String}
    (h : Asked lit lit' g g' a symbol) : Extends lit lit' [a] where
  keeps b s hs := by
    rcases h.drawn with ⟨hsame, -⟩ | ⟨hnone, -, hdrawn⟩
    · rw [hsame]
      exact hs
    · rw [hdrawn, Function.update_of_ne]
      · exact hs
      · rintro rfl
        rw [hnone] at hs
        cases hs
  named b hb := by
    rw [List.mem_singleton.mp hb, h.answer]
    rfl
  length := by rw [h.length, highest_cons, highest_nil, Nat.max_zero]
  rest := by
    rw [h.rest, Bool.or_eq_true, decide_eq_true_iff, List.mem_singleton]
    exact or_congr Iff.rfl eq_comm

theorem Asked.drawn_symbols {lit lit' : FnLiteral} {base g g' : Nat} {a : Arg} {symbol : String}
    (h : Asked lit lit' g g' a symbol) (hle : base ≤ g)
    (hdrawn : Drawn argName base g lit.symbol) :
    g ≤ g' ∧ Drawn argName base g' lit'.symbol := by
  rcases h.drawn with ⟨hsame, rfl⟩ | ⟨-, rfl, hsymbol⟩
  · rw [hsame]
    exact ⟨le_refl _, hdrawn⟩
  · rw [hsymbol]
    exact ⟨Nat.le_succ _, hdrawn.draw argName_number hle a⟩

/-- The symbols drawn for a literal, read from `base` on. -/
structure Inside (base : Nat) (σ : ReadState) (lit : FnLiteral) : Prop where
  current : σ.fnLiteral = some lit
  le : base ≤ σ.gensymId
  drawn : Drawn argName base σ.gensymId lit.symbol

/-- `sym` is what the literal says, where it says something. -/
def Agrees (sym : Arg → String) (lit : FnLiteral) : Prop := ∀ a s, lit.symbol a = some s → sym a = s

theorem Agrees.before {sym : Arg → String} {lit lit' : FnLiteral} {used : List Arg}
    (h : Agrees sym lit') (hext : Extends lit lit' used) : Agrees sym lit :=
  fun a s hs => h a s (hext.keeps a s hs)

/-- Inside a literal, the tokens `front` taken already, `m` reads tokens and answers what they
are related to by `P` under any symbols that agree with the literal's at the end. -/
def InBody {α : Type} (front : List Token) (P : (Arg → String) → List Token → α → Prop)
    (m : Read α) (σ : ReadState) : Prop :=
  ∀ base lit, Inside base σ lit → ∀ a σ', m σ = .ok a σ' → ∃ used lit',
    σ.tokens = used ++ σ'.tokens ∧ Inside base σ' lit' ∧
    Extends lit lit' (argsOf (front ++ used)) ∧
    ∀ sym, Agrees sym lit' → P sym (front ++ used) a

section
variable {α β : Type} {front : List Token} {P Q : (Arg → String) → List Token → α → Prop}
  {R : (Arg → String) → List Token → β → Prop} {m : Read α} {f : α → Read β} {σ : ReadState}
  {tok : Token}

theorem InBody.imp (h : InBody front P m σ) (hPQ : ∀ sym toks a, P sym toks a → Q sym toks a) :
    InBody front Q m σ := by
  intro base lit hin a σ' ha
  obtain ⟨used, lit', htokens, hin', hext, hP⟩ := h base lit hin a σ' ha
  exact ⟨used, lit', htokens, hin', hext, fun sym hsym => hPQ sym _ a (hP sym hsym)⟩

/-- The tokens and the literal stay, whatever numbers are given. -/
theorem inBody_quiet (h : ∀ a σ', m σ = .ok a σ' → σ'.tokens = σ.tokens ∧
    σ'.fnLiteral = σ.fnLiteral ∧ σ.gensymId ≤ σ'.gensymId ∧ ∀ sym, P sym [] a) :
    InBody [] P m σ := by
  intro base lit hin a σ' ha
  obtain ⟨htokens, hlit, hle, hP⟩ := h a σ' ha
  refine ⟨[], lit, htokens.symm, ⟨hlit.trans hin.current, ?_, ?_⟩, Extends.refl lit,
    fun sym _ => hP sym⟩
  · exact Nat.le_trans hin.le hle
  · exact hin.drawn.mono hle

theorem inBody_pure {a : α} (h : ∀ sym, P sym [] a) : InBody [] P (pure a) σ := by
  refine inBody_quiet fun a' σ' ha => ?_
  cases ha
  exact ⟨rfl, rfl, le_refl _, h⟩

theorem inBody_fail (h : ∀ a σ', m σ ≠ .ok a σ') : InBody front P m σ :=
  fun _ _ _ a σ' ha => absurd ha (h a σ')

theorem inBody_bind {Q : α → (Arg → String) → List Token → β → Prop} (h : InBody front P m σ)
    (hf : ∀ a σ', m σ = .ok a σ' → σ'.tokens.length ≤ σ.tokens.length → InBody [] (Q a) (f a) σ')
    (hR : ∀ sym ts us a b, P sym ts a → Q a sym us b → R sym (ts ++ us) b) :
    InBody front R (m >>= f) σ := by
  intro base lit hin b σ' hb
  obtain ⟨a, σ₁, ha, hb⟩ := bind_ok.mp hb
  obtain ⟨used, lit₁, htokens, hin₁, hext, hP⟩ := h base lit hin a σ₁ ha
  have hlen : σ₁.tokens.length ≤ σ.tokens.length := by
    rw [htokens, List.length_append]
    exact Nat.le_add_left _ _
  obtain ⟨more, lit', htokens', hin', hext', hQ⟩ := hf a σ₁ ha hlen base lit₁ hin₁ b σ' hb
  refine ⟨used ++ more, lit', by rw [htokens, htokens', List.append_assoc], hin', ?_, ?_⟩
  · rw [← List.append_assoc, argsOf_append]
    exact hext.trans hext'
  · intro sym hsym
    rw [← List.append_assoc]
    exact hR sym _ _ a b (hP sym (hsym.before hext')) (hQ sym hsym)

theorem inBody_map {g : α → β} (h : InBody front P m σ)
    (hR : ∀ sym ts a, P sym ts a → R sym ts (g a)) : InBody front R (g <$> m) σ := by
  intro base lit hin b σ' hb
  obtain ⟨a, ha, rfl⟩ := map_ok.mp hb
  obtain ⟨used, lit', htokens, hin', hext, hP⟩ := h base lit hin a σ' ha
  exact ⟨used, lit', htokens, hin', hext, fun sym hsym => hR sym _ a (hP sym hsym)⟩

/-- The first token is read, which names no argument. -/
theorem inBody_next {f : Token → Read β} (hend : ∀ σ' b σ'', f .endOfFile σ' ≠ .ok b σ'')
    (h : ∀ tok toks, tok ≠ .endOfFile → σ.tokens = tok :: toks →
      InBody [tok] R (f tok) { σ with tokens := toks }) : InBody [] R (nextToken >>= f) σ := by
  intro base lit hin b σ' hb
  cases htoks : σ.tokens with
  | nil =>
    have hnext : nextToken σ = .ok .endOfFile σ := by rw [nextToken, htoks]
    rw [run_bind hnext] at hb
    exact absurd hb (hend σ b σ')
  | cons tok toks =>
    have hnext : nextToken σ = .ok tok { σ with tokens := toks } := by rw [nextToken, htoks]
    rw [run_bind hnext] at hb
    by_cases htok : tok = .endOfFile
    · subst htok
      exact absurd hb (hend _ b σ')
    · obtain ⟨used, lit', hused, hin', hext, hR⟩ :=
        h tok toks htok htoks base lit ⟨hin.current, hin.le, hin.drawn⟩ b σ' hb
      exact ⟨tok :: used, lit', congrArg (tok :: ·) hused, hin', hext, hR⟩

end

/-! ### The reader -/

section
variable (H : ReaderHost)

/-- The tokens are those of one form. -/
def IsForm (sym : Arg → String) (ts : List Token) (form : Form) : Prop :=
  ∀ toks forms, ReadsAs H sym toks forms → ReadsAs H sym (ts ++ toks) (form :: forms)

/-- The tokens are those of forms and the end of their collection. -/
def IsClosed (close : Closing) (sym : Arg → String) (ts : List Token) (items : List Form) : Prop :=
  ∃ body closing, ts = body ++ [closing] ∧ closing.closing = some close ∧
    ReadsAs H sym body items

def FormInBody (form : Token → Read Form) : Prop :=
  ∀ tok σ, InBody [tok] (IsForm H) (form tok) σ

variable {H} {form : Token → Read Form} {σ : ReadState}

theorem inBody_nextForm (hform : FormInBody H form) (macroTok : Token) :
    InBody [] (IsForm H) (readNextForm form macroTok) σ := by
  refine inBody_next (fun σ' b σ'' h => by cases h) fun tok toks htok _ => ?_
  have hread := hform tok { σ with tokens := toks }
  cases tok <;> first | exact absurd rfl htok | exact hread

theorem inBody_discard (hform : FormInBody H form) (macroTok : Token) :
    InBody [] (fun sym ts _ => ∃ form, IsForm H sym ts form) (discardNextForm form macroTok) σ := by
  refine inBody_bind (Q := fun _ _ us _ => us = []) (inBody_nextForm hform macroTok)
    (fun _ _ _ _ => inBody_pure fun _ => rfl) fun sym ts us a b hts hus => ?_
  rw [hus, List.append_nil]
  exact ⟨a, hts⟩

theorem inBody_listLoop (hform : FormInBody H form) {close : Closing} {what : String} :
    ∀ (fuel : Nat) (items : List Form) (σ : ReadState), σ.tokens.length < fuel →
    InBody [] (fun sym ts items' => ∃ more, items' = items ++ more ∧ IsClosed H close sym ts more)
      (readListLoop form close what fuel items) σ := by
  intro fuel
  induction fuel with
  | zero => exact fun items σ h => absurd h (Nat.not_lt_zero _)
  | succ fuel ih =>
    intro items σ hlen
    refine inBody_next (fun σ' b σ'' h => by cases h) fun tok toks htok htoks => ?_
    have hlt : toks.length < fuel := by
      rw [htoks, List.length_cons] at hlen
      omega
    by_cases hdiscard : tok = .hashUnderscore
    · subst hdiscard
      intro base lit hin b σ' hb
      have hbody : InBody [] (fun sym ts items' => ∃ more, items' = items ++ more ∧
          IsClosed H close sym (.hashUnderscore :: ts) more) (do
            discardNextForm form .hashUnderscore
            readListLoop form close what fuel items) { σ with tokens := toks } := by
        refine inBody_bind (inBody_discard hform _) (fun _ σ₁ _ hle => ih items σ₁ ?_) ?_
        · exact Nat.lt_of_le_of_lt hle hlt
        · rintro sym ts us - items' ⟨dropped, hdropped⟩ ⟨more, rfl, body, closing, rfl, hclose, hus⟩
          refine ⟨more, rfl, .hashUnderscore :: ts ++ body, closing, ?_, hclose, ?_⟩
          · rw [List.cons_append, List.cons_append, List.append_assoc]
          · exact .discarded (hdropped body more hus)
      obtain ⟨used, lit', htokens, hin', hext, hR⟩ := hbody base lit hin b σ' hb
      exact ⟨used, lit', htokens, hin', hext, hR⟩
    · cases hclosing : tok.closing with
      | some c =>
        have hrun : InBody [tok] (fun sym ts items' => ∃ more, items' = items ++ more ∧
            IsClosed H close sym ts more)
            (if c = close then pure items else fail ("mismatched " ++ c.kindName))
            { σ with tokens := toks } := by
          split
          · rename_i hc
            intro base lit hin b σ' hb
            cases hb
            refine ⟨[], lit, rfl, hin, ?_, fun sym _ => ⟨[], (List.append_nil _).symm, [], tok, rfl,
              hclosing.trans (congrArg some hc), .nil⟩⟩
            cases tok <;> cases hclosing <;> exact Extends.refl lit
          · exact inBody_fail fun _ _ h => by cases h
        cases tok <;> first | exact absurd rfl htok | exact absurd rfl hdiscard | skip
        all_goals
          cases hclosing <;> exact hrun
      | none =>
        have hrun : InBody [tok] (fun sym ts items' => ∃ more, items' = items ++ more ∧
            IsClosed H close sym ts more) (do
              let item ← form tok
              readListLoop form close what fuel (items ++ [item])) { σ with tokens := toks } := by
          refine inBody_bind (hform tok _) (fun item σ₁ _ hle => ih (items ++ [item]) σ₁ ?_) ?_
          · exact Nat.lt_of_le_of_lt hle hlt
          · rintro sym ts us item items' hitem ⟨more, rfl, body, closing, rfl, hclose, hus⟩
            refine ⟨item :: more, by rw [List.append_assoc]; rfl, ts ++ body, closing, ?_, hclose,
              hitem body more hus⟩
            rw [List.append_assoc]
        cases tok <;> first | exact absurd rfl htok | exact absurd rfl hdiscard | skip
        all_goals
          first | cases hclosing; done | exact hrun

theorem inBody_list (hform : FormInBody H form) (close : Closing) (what : String) :
    InBody [] (IsClosed H close) (readList form close what) σ := by
  refine inBody_bind (P := fun _ ts _ => ts = []) (Q := fun _ => IsClosed H close)
    (inBody_quiet fun a σ' ha => ?_) (fun τ σ' hget _ => ?_) ?_
  · cases ha
    exact ⟨rfl, rfl, le_refl _, fun _ => rfl⟩
  · cases hget
    refine (inBody_listLoop hform _ [] σ (Nat.lt_succ_self _)).imp fun sym ts items h => ?_
    obtain ⟨more, rfl, hclosed⟩ := h
    exact hclosed
  · rintro sym ts us τ items rfl hclosed
    exact hclosed

/-- A collection between its opening token and the end it reads. -/
theorem isForm_collection {opening : Token} {close : Closing} {make : List Form → Form}
    {sym : Arg → String} {ts : List Token} {items : List Form}
    (hopening : opening.collection = some (close, make)) (h : IsClosed H close sym ts items) :
    IsForm H sym (opening :: ts) (make items) := by
  obtain ⟨body, closing, rfl, hclosing, hbody⟩ := h
  intro toks forms htoks
  rw [List.cons_append, List.append_assoc]
  exact .collection hopening hclosing hbody htoks

/-- A token that names no argument has been taken. -/
theorem inBody_front {α : Type} {P Q : (Arg → String) → List Token → α → Prop} {m : Read α}
    {tok : Token} (htok : tok.arg = none) (h : InBody [] P m σ)
    (hPQ : ∀ sym ts a, P sym ts a → Q sym (tok :: ts) a) : InBody [tok] Q m σ := by
  intro base lit hin a σ' ha
  obtain ⟨used, lit', htokens, hin', hext, hP⟩ := h base lit hin a σ' ha
  refine ⟨used, lit', htokens, hin', ?_, fun sym hsym => hPQ sym used a (hP sym hsym)⟩
  have hargs : argsOf ([tok] ++ used) = argsOf ([] ++ used) := List.filterMap_cons_none htok
  rw [hargs]
  exact hext

theorem noDuplicate_ok {keys : List Form} {σ' : ReadState} {u : Unit}
    (h : noDuplicate H keys σ = .ok u σ') : σ' = σ := by
  unfold noDuplicate at h
  cases hkey : firstRepeated H [] keys with
  | some k =>
    rw [hkey] at h
    cases h
  | none =>
    rw [hkey] at h
    cases h
    rfl

theorem inBody_mapLiteral (hform : FormInBody H form) :
    InBody [.lbrace] (IsForm H) (readMap H form) σ := by
  refine inBody_front rfl (P := fun sym ts f => ∃ kv, f = .map kv ∧ IsClosed H .brace sym ts kv)
    (inBody_bind (Q := fun kv _ us f => f = .map kv ∧ us = []) (inBody_list hform .brace _)
      (fun kv σ' _ _ => inBody_quiet fun f σ'' hf => ?_) ?_) ?_
  · dsimp only at hf
    split at hf
    · cases hf
    · split at hf
      · obtain ⟨u, σ₁, hu, hf⟩ := bind_ok.mp hf
        cases hf
        rw [noDuplicate_ok hu]
        exact ⟨rfl, rfl, le_refl _, fun _ => ⟨rfl, rfl⟩⟩
      · cases hf
        exact ⟨rfl, rfl, le_refl _, fun _ => ⟨rfl, rfl⟩⟩
  · rintro sym ts us kv f hclosed ⟨rfl, rfl⟩
    rw [List.append_nil]
    exact ⟨kv, rfl, hclosed⟩
  · rintro sym ts f ⟨kv, rfl, hclosed⟩
    exact isForm_collection rfl hclosed

theorem inBody_setLiteral (hform : FormInBody H form) :
    InBody [.hashLBrace] (IsForm H) (readSet H form) σ := by
  refine inBody_front rfl (P := fun sym ts f => ∃ items, f = .set items ∧
      IsClosed H .brace sym ts items)
    (inBody_bind (Q := fun items _ us f => f = .set items ∧ us = []) (inBody_list hform .brace _)
      (fun items σ' _ _ => inBody_quiet fun f σ'' hf => ?_) ?_) ?_
  · dsimp only at hf
    split at hf
    · obtain ⟨u, σ₁, hu, hf⟩ := bind_ok.mp hf
      cases hf
      rw [noDuplicate_ok hu]
      exact ⟨rfl, rfl, le_refl _, fun _ => ⟨rfl, rfl⟩⟩
    · cases hf
      exact ⟨rfl, rfl, le_refl _, fun _ => ⟨rfl, rfl⟩⟩
  · rintro sym ts us items f hclosed ⟨rfl, rfl⟩
    rw [List.append_nil]
    exact ⟨items, rfl, hclosed⟩
  · rintro sym ts f ⟨items, rfl, hclosed⟩
    exact isForm_collection rfl hclosed

theorem inBody_sequence (hform : FormInBody H form) {opening : Token} {close : Closing}
    {make : List Form → Form} (hopening : opening.collection = some (close, make))
    (what : String) : InBody [opening] (IsForm H) (make <$> readList form close what) σ := by
  have harg : opening.arg = none := by
    cases opening <;> first | rfl | cases hopening
  refine inBody_front harg (P := fun sym ts f => ∃ items, f = make items ∧
      IsClosed H close sym ts items)
    (inBody_map (inBody_list hform close what) fun sym ts items h => ⟨items, rfl, h⟩) ?_
  rintro sym ts f ⟨items, rfl, hclosed⟩
  exact isForm_collection hopening hclosed

theorem inBody_wrapped (hform : FormInBody H form) {tok : Token} {head : String}
    (htok : tok.wrapper = some head) :
    InBody [tok] (IsForm H) (readWrapped form tok head) σ := by
  have harg : tok.arg = none := by
    cases tok <;> first | rfl | cases htok
  refine inBody_front harg (P := fun sym ts f => ∃ item, f = .list [.name head, item] ∧
      IsForm H sym ts item)
    (inBody_bind (Q := fun item _ us f => f = .list [.name head, item] ∧ us = [])
      (inBody_nextForm hform tok) (fun item σ' _ _ => inBody_pure fun _ => ⟨rfl, rfl⟩) ?_) ?_
  · rintro sym ts us item f hitem ⟨rfl, rfl⟩
    rw [List.append_nil]
    exact ⟨item, rfl, hitem⟩
  · rintro sym ts f ⟨item, rfl, hitem⟩ toks forms htoks
    exact .wrapped htok (hitem toks forms htoks)

theorem inBody_backtick (hform : FormInBody H form) :
    InBody [.backtick] (IsForm H) (readBacktick H form .backtick) σ := by
  refine inBody_front rfl (P := fun sym ts f => ∃ item ids x, IsForm H sym ts item ∧
      readSyntaxQuote H.resolver ids item = .ok (f, x))
    (inBody_bind (Q := fun item _ us f => us = [] ∧ ∃ ids x,
        readSyntaxQuote H.resolver ids item = .ok (f, x))
      (inBody_nextForm hform .backtick) (fun item σ' _ _ => inBody_quiet fun f σ'' hf => ?_) ?_) ?_
  · obtain ⟨τ, σ₁, hget, hf⟩ := bind_ok.mp hf
    cases hget
    cases hquote : readSyntaxQuote H.resolver (fun k => σ'.gensymId + k + 1) item with
    | error message =>
      rw [hquote] at hf
      cases hf
    | ok p =>
      obtain ⟨expanded, x⟩ := p
      rw [hquote] at hf
      cases hf
      exact ⟨rfl, rfl, Nat.le_add_right _ _, fun _ => ⟨rfl, _, x, hquote⟩⟩
  · rintro sym ts us item f hitem ⟨rfl, ids, x, hquote⟩
    rw [List.append_nil]
    exact ⟨item, ids, x, hitem, hquote⟩
  · rintro sym ts f ⟨item, ids, x, hitem, hquote⟩ toks forms htoks
    exact .syntaxQuoted hquote (hitem toks forms htoks)

theorem isForm_atom {tok : Token} {sym : Arg → String} {f : Form}
    (h : atomForm H sym tok = some f) : IsForm H sym [tok] f :=
  fun _ _ htoks => .atom h htoks

theorem plainSymbol_eq {text : Bytes} (hnil : text ≠ ascii "nil") (htrue : text ≠ ascii "true")
    (hfalse : text ≠ ascii "false") : plainSymbol H text = .name (H.text text) := by
  unfold plainSymbol
  rw [if_neg hnil, if_neg htrue, if_neg hfalse]

theorem argOf_special {text : Bytes} (h : text.head? ≠ some 0x25) : argOf text = none := by
  cases harg : argOf text with
  | none => rfl
  | some a => exact absurd (head_of_argOf harg) h

theorem inBody_symbol (text : Bytes) :
    InBody [.symbol text] (IsForm H) (readSymbol H text) σ := by
  have hplain : ∀ {f : Form}, argOf text = none → plainSymbol H text = f →
      InBody [.symbol text] (IsForm H) (pure f) σ := by
    intro f harg hf
    refine inBody_front (P := fun _ ts f' => ts = [] ∧ f' = f) harg
      (inBody_pure fun _ => ⟨rfl, rfl⟩) ?_
    rintro sym ts f' ⟨rfl, rfl⟩
    refine isForm_atom (congrArg some ?_)
    rw [symbolForm, harg]
    exact hf
  unfold readSymbol
  split
  · rename_i h
    exact hplain (argOf_special (by rw [h]; decide)) (by rw [plainSymbol, if_pos h])
  · rename_i hnil
    split
    · rename_i h
      exact hplain (argOf_special (by rw [h]; decide)) (by rw [plainSymbol, if_neg hnil, if_pos h])
    · rename_i htrue
      split
      · rename_i h
        exact hplain (argOf_special (by rw [h]; decide))
          (by rw [plainSymbol, if_neg hnil, if_neg htrue, if_pos h])
      · rename_i hfalse
        have hname := plainSymbol_eq (H := H) hnil htrue hfalse
        intro base lit hin f σ' hf
        obtain ⟨τ, σ₁, hget, hf⟩ := bind_ok.mp hf
        cases hget
        rw [hin.current] at hf
        dsimp only at hf
        split at hf
        · rename_i hhead
          obtain ⟨answer, σ₁, hrun, hanswer⟩ := bind_ok.mp hf
          rcases fnLiteralArg_asked hin.current hhead hrun with
            ⟨a, symbol, lit', harg, rfl, hσ, hasked⟩ | ⟨harg, rfl, rfl⟩
          · cases hanswer
            obtain ⟨hle, hdrawn⟩ := hasked.drawn_symbols hin.le hin.drawn
            have htoken : (Token.symbol text).arg = some a := harg
            refine ⟨[], lit', by rw [hσ]; rfl, ⟨by rw [hσ], Nat.le_trans hin.le hle, hdrawn⟩, ?_,
              fun sym hsym => isForm_atom (congrArg some ?_)⟩
            · rw [List.append_nil, argsOf, List.filterMap_cons_some htoken]
              exact hasked.extends
            · rw [symbolForm, harg, ← hsym a symbol hasked.answer]
          · exact hplain harg hname base lit hin f σ' hanswer
        · rename_i hhead
          exact hplain (argOf_special hhead) hname base lit hin f σ' hf

/-- Inside a literal every form that is read is what its tokens stand for. -/
theorem inBody_fromToken (H : ReaderHost) (stack : Nat) : FormInBody H (readFromToken H stack) := by
  induction stack with
  | zero => exact fun tok σ => inBody_fail fun _ _ h => by cases h
  | succ stack ih =>
    intro tok σ
    unfold readFromToken
    cases hedn : ednRefuses H tok with
    | some message => exact inBody_fail fun _ _ h => by cases h
    | none =>
      dsimp only
      have hatom : ∀ {f : Form} {tok : Token}, tok.arg = none →
          (∀ sym, atomForm H sym tok = some f) → InBody [tok] (IsForm H) (pure f) σ := by
        intro f tok harg hf
        refine inBody_front (P := fun _ ts f' => ts = [] ∧ f' = f) harg
          (inBody_pure fun _ => ⟨rfl, rfl⟩) ?_
        rintro sym ts f' ⟨rfl, rfl⟩
        exact isForm_atom (hf sym)
      cases tok with
      | integer digits => exact hatom rfl fun _ => rfl
      | float literal => exact hatom rfl fun _ => rfl
      | string text => exact hatom rfl fun _ => rfl
      | symbol text => exact inBody_symbol text
      | lparen => exact inBody_sequence ih rfl _
      | lbracket => exact inBody_sequence ih rfl _
      | lbrace => exact inBody_mapLiteral ih
      | hashLBrace => exact inBody_setLiteral ih
      | hashLParen =>
        intro base lit hin f σ' hf
        obtain ⟨τ, σ₁, hget, hf⟩ := bind_ok.mp hf
        cases hget
        rw [hin.current] at hf
        cases hf
      | regex source =>
        dsimp only
        cases hpattern : H.patternError source with
        | some message => exact inBody_fail fun _ _ h => by cases h
        | none => exact hatom rfl fun _ => rfl
      | quote => exact inBody_wrapped ih rfl
      | deref => exact inBody_wrapped ih rfl
      | tilde => exact inBody_wrapped ih rfl
      | tildeAt => exact inBody_wrapped ih rfl
      | backtick => exact inBody_backtick ih
      | hashUnderscore =>
        refine inBody_front (P := fun sym ts f => ∃ ds us dropped, ts = ds ++ us ∧
            IsForm H sym ds dropped ∧ IsForm H sym us f) rfl
          (inBody_bind (Q := fun _ => IsForm H) (inBody_discard ih _)
            (fun _ _ _ _ => inBody_nextForm ih _) ?_) ?_
        · rintro sym ds us - f ⟨dropped, hdropped⟩ hf
          exact ⟨ds, us, dropped, rfl, hdropped, hf⟩
        · rintro sym ts f ⟨ds, us, dropped, rfl, hdropped, hf⟩ toks forms htoks
          rw [List.cons_append, List.append_assoc]
          exact .discarded (hdropped _ _ (hf toks forms htoks))
      | rparen => exact inBody_fail fun _ _ h => by cases h
      | rbracket => exact inBody_fail fun _ _ h => by cases h
      | rbrace => exact inBody_fail fun _ _ h => by cases h
      | endOfFile => exact inBody_fail fun _ _ h => by cases h
      | error e => exact inBody_fail fun _ _ h => by cases h

end
end ProtoClojure.Reader
