import ProtoClojure.Reader.Forms

/-! What the tokens read so far still wait for: the ends of collections, and the forms of reader
macros. The reader runs out of input just where something is still waited for. -/
namespace ProtoClojure.Reader
open Unwinding

/-! ### What is waited for -/

/-- The forms that macros wait for in the innermost collection, and the closing of each open
collection with the forms waited for around it. -/
structure Pending where
  owed : Nat := 0
  outer : List (Closing × Nat) := []
deriving DecidableEq

/-- A form has ended. -/
def Pending.form (p : Pending) : Pending := { p with owed := p.owed - 1 }

def Pending.opened (p : Pending) (close : Closing) : Pending := ⟨0, (close, p.owed) :: p.outer⟩

def Pending.closed (p : Pending) (close : Closing) : Option Pending :=
  match p.owed, p.outer with
  | 0, (c, n) :: outer => if c = close then some ⟨n - 1, outer⟩ else none
  | _, _ => none

def Pending.advance (p : Pending) : Token → Option Pending
  | .integer _ | .float _ | .string _ | .symbol _ | .regex _ => some p.form
  | .lparen | .hashLParen => some (p.opened .paren)
  | .lbracket => some (p.opened .bracket)
  | .lbrace | .hashLBrace => some (p.opened .brace)
  | .rparen => p.closed .paren
  | .rbracket => p.closed .bracket
  | .rbrace => p.closed .brace
  | .quote | .backtick | .tilde | .tildeAt | .deref => some { p with owed := max p.owed 1 }
  | .hashUnderscore => some { p with owed := p.owed + 1 }
  | .endOfFile | .error _ => none

def Pending.after (p : Pending) : List Token → Option Pending
  | [] => some p
  | t :: ts => (p.advance t).bind (Pending.after · ts)

def Pending.isOpen (p : Pending) : Prop := p.outer ≠ [] ∨ 0 < p.owed

theorem Pending.after_append (p : Pending) (ts us : List Token) :
    p.after (ts ++ us) = (p.after ts).bind (Pending.after · us) := by
  induction ts generalizing p with
  | nil => rfl
  | cons t ts ih =>
    rw [List.cons_append, Pending.after, Pending.after]
    cases p.advance t with
    | none => rfl
    | some q => exact ih q

theorem Pending.after_trans {p q r : Pending} {ts us : List Token} (h : p.after ts = some q)
    (h' : q.after us = some r) : p.after (ts ++ us) = some r := by
  rw [Pending.after_append, h]
  exact h'

theorem Pending.after_one {p q : Pending} {t : Token} (h : p.advance t = some q) :
    p.after [t] = some q := by
  rw [Pending.after, h]
  rfl

/-! ### Reading -/

/-- The input ends at `rest`, with something waited for, or ends inside the next token. -/
def EndsAt (p : Pending) (rest : List Token) : Prop :=
  ((rest = [] ∨ ∃ post, rest = .endOfFile :: post) ∧ p.isOpen) ∨
    ∃ e post, rest = .error e :: post ∧ (ReadError.lexer e).outOfInput = true

def RunsOut (p : Pending) (toks : List Token) : Prop :=
  ∃ pre rest q, toks = pre ++ rest ∧ p.after pre = some q ∧ EndsAt q rest

/-- From `p` on, the tokens `front` taken already, `m` reads tokens that lead to `q`, or the input
ends with something waited for. -/
structure Reads {α : Type} (front : List Token) (p : Pending) (m : Read α) (q : Pending)
    (σ : ReadState) : Prop where
  ok : ∀ a σ', m σ = .ok a σ' →
    ∃ used, σ.tokens = used ++ σ'.tokens ∧ p.after (front ++ used) = some q
  out : ∀ e σ', m σ = .error e σ' → e.outOfInput = true → RunsOut p (front ++ σ.tokens)

/-- No token is read. -/
structure Quiet {α : Type} (m : Read α) : Prop where
  ok : ∀ σ a σ', m σ = .ok a σ' → σ'.tokens = σ.tokens
  out : ∀ σ e σ', m σ = .error e σ' → e.outOfInput = false

section
variable {α β : Type} {m : Read α} {f : α → Read β} {p q r : Pending} {σ : ReadState}
  {front : List Token} {tok : Token} {e : ReadError}

theorem quiet_pure (a : α) : Quiet (pure a : Read α) where
  ok σ a' σ' h := by
    cases h
    rfl
  out σ e σ' h := by cases h

theorem quiet_bind (h : Quiet m) (hf : ∀ a, Quiet (f a)) : Quiet (m >>= f) where
  ok σ b σ' hb := by
    obtain ⟨a, σ₁, ha, hb⟩ := bind_ok.mp hb
    exact ((hf a).ok σ₁ b σ' hb).trans (h.ok σ a σ₁ ha)
  out σ e σ' he := by
    rcases bind_error.mp he with he | ⟨a, σ₁, -, he⟩
    · exact h.out σ e σ' he
    · exact (hf a).out σ₁ e σ' he

theorem quiet_map (h : Quiet m) (g : α → β) : Quiet (g <$> m) := by
  rw [← bind_pure_comp]
  exact quiet_bind h fun a => quiet_pure (g a)

theorem quiet_throw (h : e.outOfInput = false) : Quiet (throw e : Read α) where
  ok σ a σ' ha := by cases ha
  out σ e' σ' he := by
    cases he
    exact h

theorem quiet_fail (message : String) : Quiet (fail message : Read α) := quiet_throw rfl

theorem quiet_get : Quiet (get : Read ReadState) where
  ok σ a σ' h := by
    cases h
    rfl
  out σ e σ' h := by cases h

theorem quiet_modify {g : ReadState → ReadState} (h : ∀ σ, (g σ).tokens = σ.tokens) :
    Quiet (modify g : Read Unit) where
  ok σ a σ' ha := by
    cases ha
    exact h σ
  out σ e σ' he := by cases he

theorem quiet_gensym : Quiet nextGensymId where
  ok σ a σ' h := by
    cases h
    rfl
  out σ e σ' h := by cases h

theorem quiet_ite {c : Prop} [Decidable c] {m' : Read α} (h : Quiet m) (h' : Quiet m') :
    Quiet (if c then m else m') := by
  split
  · exact h
  · exact h'

theorem reads_quiet (h : Quiet m) : Reads [] p m p σ where
  ok a σ' ha := ⟨[], (h.ok σ a σ' ha).symm, rfl⟩
  out e σ' he hout := by
    rw [h.out σ e σ' he] at hout
    cases hout

/-- What always fails, though not for want of input. -/
theorem reads_fail (h : Quiet m) (hfail : ∀ a σ', m σ ≠ .ok a σ') : Reads front p m q σ where
  ok a σ' ha := absurd ha (hfail a σ')
  out e σ' he hout := by
    rw [h.out σ e σ' he] at hout
    cases hout

theorem runsOut_front {ts : List Token} (h : p.after front = some q) (hout : RunsOut q ts) :
    RunsOut p (front ++ ts) := by
  obtain ⟨pre, rest, r, rfl, hpre, hends⟩ := hout
  exact ⟨front ++ pre, rest, r, (List.append_assoc front pre rest).symm,
    Pending.after_trans h hpre, hends⟩

theorem reads_bind (h : Reads front p m q σ)
    (hf : ∀ a σ', m σ = .ok a σ' → Reads [] q (f a) r σ') : Reads front p (m >>= f) r σ where
  ok b σ' hb := by
    obtain ⟨a, σ₁, ha, hb⟩ := bind_ok.mp hb
    obtain ⟨used, hused, hq⟩ := h.ok a σ₁ ha
    obtain ⟨more, hmore, hr⟩ := (hf a σ₁ ha).ok b σ' hb
    refine ⟨used ++ more, by rw [hused, hmore, List.append_assoc], ?_⟩
    rw [← List.append_assoc]
    exact Pending.after_trans hq hr
  out e σ' he hout := by
    rcases bind_error.mp he with he | ⟨a, σ₁, ha, he⟩
    · exact h.out e σ' he hout
    · obtain ⟨used, hused, hq⟩ := h.ok a σ₁ ha
      rw [hused, ← List.append_assoc]
      exact runsOut_front hq ((hf a σ₁ ha).out e σ' he hout)

theorem reads_map (h : Reads front p m q σ) (g : α → β) : Reads front p (g <$> m) q σ := by
  rw [← bind_pure_comp]
  exact reads_bind h fun a σ' _ => reads_quiet (quiet_pure (g a))

theorem reads_guarded {enter leave : ReadState → ReadState}
    (henter : (enter σ).tokens = σ.tokens) (hleave : ∀ σ, (leave σ).tokens = σ.tokens)
    (h : Reads front p m q (enter σ)) : Reads front p (guarded enter leave m) q σ where
  ok a σ' ha := by
    obtain ⟨σ₁, hin, rfl⟩ := guarded_ok.mp ha
    rw [hleave, ← henter]
    exact h.ok a σ₁ hin
  out e σ' he hout := by
    obtain ⟨σ₁, hin, rfl⟩ := guarded_error.mp he
    rw [← henter]
    exact h.out e σ₁ hin hout

/-- A token has been taken. -/
theorem reads_front (hp : p.advance tok = some q) (h : Reads [] q m r σ) :
    Reads [tok] p m r σ where
  ok a σ' ha := by
    obtain ⟨used, hused, hr⟩ := h.ok a σ' ha
    exact ⟨used, hused, Pending.after_trans (Pending.after_one hp) hr⟩
  out e σ' he hout := runsOut_front (Pending.after_one hp) (h.out e σ' he hout)

/-- A token is taken; at the end of the input, `f` decides. -/
theorem reads_next {f : Token → Read β}
    (hend : ∀ σ', f .endOfFile σ' = .error e σ') (hopen : e.outOfInput = true → p.isOpen)
    (h : ∀ tok toks, tok ≠ .endOfFile → σ.tokens = tok :: toks →
      Reads [tok] p (f tok) q { σ with tokens := toks }) : Reads [] p (nextToken >>= f) q σ := by
  cases htoks : σ.tokens with
  | nil =>
    have hrun : (nextToken >>= f) σ = .error e σ := by
      rw [run_bind (show nextToken σ = .ok .endOfFile σ by rw [nextToken, htoks])]
      exact hend σ
    refine ⟨fun a σ' ha => ?_, fun e' τ he hout => ?_⟩
    · rw [hrun] at ha
      cases ha
    · rw [hrun] at he
      cases he
      rw [htoks]
      exact ⟨[], [], p, rfl, rfl, .inl ⟨.inl rfl, hopen hout⟩⟩
  | cons tok toks =>
    have hrun : (nextToken >>= f) σ = f tok { σ with tokens := toks } := by
      rw [run_bind (show nextToken σ = .ok tok { σ with tokens := toks } by
        rw [nextToken, htoks])]
    by_cases htok : tok = .endOfFile
    · refine ⟨fun a σ' ha => ?_, fun e' τ he hout => ?_⟩
      · rw [hrun, htok, hend] at ha
        cases ha
      · rw [hrun, htok, hend] at he
        cases he
        rw [htoks]
        exact ⟨[], tok :: toks, p, rfl, rfl, .inl ⟨.inr ⟨toks, by rw [htok]⟩, hopen hout⟩⟩
    · have hreads := h tok toks htok htoks
      refine ⟨fun a σ' ha => ?_, fun e' τ he hout => ?_⟩
      · rw [hrun] at ha
        obtain ⟨used, hused, hq⟩ := hreads.ok a σ' ha
        exact ⟨tok :: used, htoks.trans (congrArg (tok :: ·) hused), hq⟩
      · rw [hrun] at he
        rw [htoks]
        exact hreads.out e' τ he hout

/-! ### The reader -/

/-- The rest of a form whose first token has been taken. A discarded form is followed by another
one where a form is waited for. -/
def ReadsForm (form : Token → Read Form) : Prop :=
  ∀ (tok : Token) (p : Pending) (σ : ReadState), (tok = .hashUnderscore → 0 < p.owed) →
    Reads [tok] p (form tok) p.form σ

section
variable {H : ReaderHost} {form : Token → Read Form}

theorem reads_nextForm (hform : ReadsForm form) (macroTok : Token) (hp : 0 < p.owed) :
    Reads [] p (readNextForm form macroTok) p.form σ := by
  apply reads_next (e := .noForm (macroText macroTok))
  · exact fun σ' => rfl
  · exact fun _ => .inr hp
  · intro tok toks htok _
    have hrest : Reads [tok] p (form tok) p.form { σ with tokens := toks } :=
      hform tok p _ fun _ => hp
    cases tok <;> first | exact absurd rfl htok | exact hrest

theorem reads_discard (hform : ReadsForm form) (macroTok : Token) (hp : 0 < p.owed) :
    Reads [] p (discardNextForm form macroTok) p.form σ :=
  reads_bind (reads_nextForm hform macroTok hp) fun _ _ _ => reads_quiet (quiet_pure ())

theorem Reads.length_le {a : α} {σ' : ReadState} (h : Reads front p m q σ)
    (ha : m σ = .ok a σ') : σ'.tokens.length ≤ σ.tokens.length := by
  obtain ⟨used, hused, -⟩ := h.ok a σ' ha
  rw [hused, List.length_append]
  exact Nat.le_add_left _ _

theorem advance_closing {close c : Closing} {n : Nat} {outer : List (Closing × Nat)}
    (h : tok.closing = some c) (hc : c = close) :
    Pending.advance ⟨0, (close, n) :: outer⟩ tok = some ⟨n - 1, outer⟩ := by
  subst hc
  have hclosed : Pending.closed ⟨0, (c, n) :: outer⟩ c = some ⟨n - 1, outer⟩ := by
    show (if c = c then _ else _) = _
    rw [if_pos rfl]
  cases tok <;> cases h <;> exact hclosed

theorem reads_listLoop (hform : ReadsForm form) {close : Closing} {what : String} {n : Nat}
    {outer : List (Closing × Nat)} : ∀ (fuel : Nat) (items : List Form) (σ : ReadState),
    σ.tokens.length < fuel → Reads [] ⟨0, (close, n) :: outer⟩
      (readListLoop form close what fuel items) ⟨n - 1, outer⟩ σ := by
  intro fuel
  induction fuel with
  | zero => exact fun items σ h => absurd h (Nat.not_lt_zero _)
  | succ fuel ih =>
    intro items σ hlen
    apply reads_next (e := .unterminated what)
    · exact fun σ' => rfl
    · exact fun _ => .inl (List.cons_ne_nil _ _)
    · intro tok toks htok htoks
      have hlt : toks.length < fuel := by
        rw [htoks, List.length_cons] at hlen
        omega
      have hloop : ∀ (items : List Form) (σ' : ReadState), σ'.tokens.length ≤ toks.length →
          Reads [] ⟨0, (close, n) :: outer⟩ (readListLoop form close what fuel items)
            ⟨n - 1, outer⟩ σ' := fun items σ' hle => ih items σ' (Nat.lt_of_le_of_lt hle hlt)
      by_cases hdiscard : tok = .hashUnderscore
      · subst hdiscard
        have hone : Pending.advance ⟨0, (close, n) :: outer⟩ .hashUnderscore =
            some ⟨1, (close, n) :: outer⟩ := rfl
        have hskip : Reads [] ⟨1, (close, n) :: outer⟩ (discardNextForm form .hashUnderscore)
            ⟨0, (close, n) :: outer⟩ { σ with tokens := toks } :=
          reads_discard hform _ Nat.one_pos
        exact reads_front hone (reads_bind hskip fun _ σ' hrun =>
          hloop items σ' (hskip.length_le hrun))
      · cases hclosing : tok.closing with
        | some c =>
          have hrun : Reads [tok] ⟨0, (close, n) :: outer⟩
              (if c = close then pure items else fail ("mismatched " ++ c.kindName))
              ⟨n - 1, outer⟩ { σ with tokens := toks } := by
            split
            · rename_i hc
              exact reads_front (advance_closing hclosing hc) (reads_quiet (quiet_pure items))
            · exact reads_fail (quiet_fail _) fun _ _ h => by cases h
          cases tok <;> first | exact absurd rfl htok | exact absurd rfl hdiscard | skip
          all_goals
            cases hclosing <;> exact hrun
        | none =>
          have hform' := hform tok ⟨0, (close, n) :: outer⟩ { σ with tokens := toks }
            fun h => absurd h hdiscard
          have hrun : Reads [tok] ⟨0, (close, n) :: outer⟩ (do
              let item ← form tok
              readListLoop form close what fuel (items ++ [item])) ⟨n - 1, outer⟩
              { σ with tokens := toks } :=
            reads_bind hform' fun item σ' hitem => hloop _ σ' (hform'.length_le hitem)
          cases tok <;> first | exact absurd rfl htok | exact absurd rfl hdiscard | skip
          all_goals
            first | cases hclosing; done | exact hrun

theorem reads_list (hform : ReadsForm form) (close : Closing) (what : String) (p : Pending)
    (σ : ReadState) : Reads [] (p.opened close) (readList form close what) p.form σ := by
  refine reads_bind (reads_quiet quiet_get) fun τ σ' hget => ?_
  cases hget
  exact reads_listLoop hform _ [] σ (Nat.lt_succ_self _)

theorem quiet_noDuplicate (keys : List Form) : Quiet (noDuplicate H keys) := by
  unfold noDuplicate
  cases firstRepeated H [] keys with
  | none => exact quiet_pure ()
  | some k => exact quiet_fail _

theorem reads_mapLiteral (hform : ReadsForm form) (p : Pending) (σ : ReadState) :
    Reads [] (p.opened .brace) (readMap H form) p.form σ := by
  refine reads_bind (reads_list hform .brace _ p σ) fun kv σ' _ => reads_quiet ?_
  split
  · exact quiet_fail _
  · split
    · exact quiet_bind (quiet_noDuplicate _) fun _ => quiet_pure _
    · exact quiet_pure _

theorem reads_setLiteral (hform : ReadsForm form) (p : Pending) (σ : ReadState) :
    Reads [] (p.opened .brace) (readSet H form) p.form σ := by
  refine reads_bind (reads_list hform .brace _ p σ) fun items σ' _ => reads_quiet ?_
  split
  · exact quiet_bind (quiet_noDuplicate _) fun _ => quiet_pure _
  · exact quiet_pure _

theorem quiet_nameParams (n : Nat) (params : List (Option String)) :
    Quiet (nameParams n params) := by
  induction params generalizing n with
  | nil => exact quiet_pure []
  | cons param params ih =>
    cases param with
    | some symbol => exact quiet_bind (ih (n + 1)) fun _ => quiet_pure _
    | none =>
      exact quiet_bind quiet_gensym fun _ => quiet_bind (ih (n + 1)) fun _ => quiet_pure _

theorem reads_fnLiteral (hform : ReadsForm form) (p : Pending) (σ : ReadState) :
    Reads [] (p.opened .paren) (readFnLiteral form) p.form σ := by
  refine reads_bind (reads_quiet quiet_get) fun τ σ' hget => ?_
  dsimp only
  split
  · exact reads_fail (quiet_fail _) fun _ _ h => by cases h
  · refine reads_guarded (by cases hget; rfl) (fun _ => rfl) ?_
    refine reads_bind (reads_list hform .paren _ p _) fun body σ₁ _ => reads_quiet ?_
    refine quiet_bind quiet_get fun τ => ?_
    exact quiet_bind (quiet_nameParams 1 _) fun params => quiet_pure _

theorem reads_wrapped (hform : ReadsForm form) (macroTok : Token) (head : String)
    (hp : 0 < p.owed) : Reads [] p (readWrapped form macroTok head) p.form σ :=
  reads_bind (reads_nextForm hform macroTok hp) fun _ _ _ => reads_quiet (quiet_pure _)

theorem reads_backtick (hform : ReadsForm form) (macroTok : Token) (hp : 0 < p.owed) :
    Reads [] p (readBacktick H form macroTok) p.form σ := by
  refine reads_bind (reads_nextForm hform macroTok hp) fun item _ _ => reads_quiet ?_
  refine quiet_bind quiet_get fun τ => ?_
  dsimp only
  cases readSyntaxQuote H.resolver (fun k => τ.gensymId + k + 1) item with
  | error message => exact quiet_fail message
  | ok x => exact quiet_bind (quiet_modify fun _ => rfl) fun _ => quiet_pure _

theorem quiet_fnParam (lit : FnLiteral) (n : Nat) : Quiet (fnParam lit n) := by
  unfold fnParam
  dsimp only
  cases ((lit.params ++ List.replicate (n - lit.params.length) none)[n - 1]?).getD none with
  | some symbol => exact quiet_bind (quiet_modify fun _ => rfl) fun _ => quiet_pure _
  | none =>
    exact quiet_bind quiet_gensym fun _ =>
      quiet_bind (quiet_modify fun _ => rfl) fun _ => quiet_pure _

theorem argIndex_error {n : Nat} {s : Bytes} (h : argIndex n s = .error e) :
    e.outOfInput = false := by
  induction s generalizing n with
  | nil => cases h
  | cons c s ih =>
    unfold argIndex at h
    split at h
    · cases h
    · dsimp only at h
      split at h
      · cases h
        rfl
      · exact ih h

theorem quiet_ofExcept {x : Except ReadError α}
    (h : ∀ e, x = .error e → e.outOfInput = false) : Quiet (ofExcept x : Read α) := by
  cases x with
  | error e => exact quiet_throw (h e rfl)
  | ok a => exact quiet_pure a

theorem quiet_fnLiteralArg (lit : FnLiteral) (text : Bytes) : Quiet (fnLiteralArg lit text) := by
  unfold fnLiteralArg
  split
  · cases lit.rest with
    | some symbol => exact quiet_pure _
    | none =>
      exact quiet_bind quiet_gensym fun _ =>
        quiet_bind (quiet_modify fun _ => rfl) fun _ => quiet_pure _
  · split
    · exact quiet_map (quiet_fnParam lit 1) some
    · refine quiet_bind (quiet_ofExcept fun e h => argIndex_error h) fun index => ?_
      cases index with
      | none => exact quiet_pure none
      | some n => exact quiet_ite (quiet_fail _) (quiet_map (quiet_fnParam lit n) some)

theorem quiet_symbol (text : Bytes) : Quiet (readSymbol H text) := by
  unfold readSymbol
  split
  · exact quiet_pure _
  · split
    · exact quiet_pure _
    · split
      · exact quiet_pure _
      · refine quiet_bind quiet_get fun τ => ?_
        cases τ.fnLiteral with
        | none => exact quiet_pure _
        | some lit =>
          dsimp only
          split
          · refine quiet_bind (quiet_fnLiteralArg lit text) fun arg => ?_
            cases arg with
            | some symbol => exact quiet_pure _
            | none => exact quiet_pure _
          · exact quiet_pure _

/-- Every form reads the tokens that it waits for. -/
theorem reads_fromToken (H : ReaderHost) (stack : Nat) : ReadsForm (readFromToken H stack) := by
  induction stack with
  | zero => exact fun tok p σ _ => reads_fail (quiet_throw rfl) fun _ _ h => by cases h
  | succ stack ih =>
    intro tok p σ hdiscard
    unfold readFromToken
    cases hedn : ednRefuses H tok with
    | some message => exact reads_fail (quiet_fail message) fun _ _ h => by cases h
    | none =>
      dsimp only
      have hatom : ∀ {m : Read Form}, p.advance tok = some p.form → Quiet m →
          Reads [tok] p m p.form σ := fun hp hm => reads_front hp (reads_quiet hm)
      have hmacro : ∀ {m : Read Form}, p.advance tok = some { p with owed := max p.owed 1 } →
          Reads [] { p with owed := max p.owed 1 } m
            (Pending.form { p with owed := max p.owed 1 }) σ →
          Reads [tok] p m p.form σ := by
        intro m hp hm
        have hform : Pending.form { p with owed := max p.owed 1 } = p.form := by
          unfold Pending.form
          congr 1
          show max p.owed 1 - 1 = p.owed - 1
          omega
        rw [hform] at hm
        exact reads_front hp hm
      have howed : 0 < max p.owed 1 := by omega
      cases tok with
      | integer digits => exact hatom rfl (quiet_pure _)
      | float literal => exact hatom rfl (quiet_pure _)
      | string text => exact hatom rfl (quiet_pure _)
      | symbol text => exact hatom rfl (quiet_symbol text)
      | lparen => exact reads_front rfl (reads_map (reads_list ih .paren _ p σ) _)
      | rparen => exact reads_fail (quiet_fail _) fun _ _ h => by cases h
      | lbracket => exact reads_front rfl (reads_map (reads_list ih .bracket _ p σ) _)
      | rbracket => exact reads_fail (quiet_fail _) fun _ _ h => by cases h
      | lbrace => exact reads_front rfl (reads_mapLiteral ih p σ)
      | rbrace => exact reads_fail (quiet_fail _) fun _ _ h => by cases h
      | hashLBrace => exact reads_front rfl (reads_setLiteral ih p σ)
      | hashLParen => exact reads_front rfl (reads_fnLiteral ih p σ)
      | regex source =>
        refine hatom rfl ?_
        dsimp only
        cases H.patternError source with
        | some message => exact quiet_fail _
        | none => exact quiet_pure _
      | quote => exact hmacro rfl (reads_wrapped ih _ _ howed)
      | backtick => exact hmacro rfl (reads_backtick ih _ howed)
      | tilde => exact hmacro rfl (reads_wrapped ih _ _ howed)
      | tildeAt => exact hmacro rfl (reads_wrapped ih _ _ howed)
      | deref => exact hmacro rfl (reads_wrapped ih _ _ howed)
      | hashUnderscore =>
        have hskip : Reads [] { p with owed := p.owed + 1 }
            (discardNextForm (readFromToken H stack) .hashUnderscore) p σ :=
          reads_discard ih _ (Nat.succ_pos _)
        exact reads_front rfl (reads_bind hskip fun _ _ _ =>
          reads_nextForm ih _ (hdiscard rfl))
      | endOfFile => exact reads_fail (quiet_fail _) fun _ _ h => by cases h
      | error le =>
        refine ⟨fun a σ' h => (by cases h), fun e σ' h hout => ?_⟩
        cases h
        exact ⟨[], _, p, rfl, rfl, .inr ⟨le, σ.tokens, rfl, hout⟩⟩

/-- How the whole text is read: to the end of the input, with nothing waited for, or it runs out
before. -/
theorem readAllForms_spec {stack : Nat} : ∀ (fuel : Nat) (forms : List Form) (σ : ReadState),
    σ.tokens.length < fuel →
    (∀ r σ', readAllForms H stack fuel forms σ = .ok r σ' → ∃ pre rest, σ.tokens = pre ++ rest ∧
      Pending.after {} pre = some {} ∧ (rest = [] ∨ ∃ post, rest = .endOfFile :: post)) ∧
    ∀ e σ', readAllForms H stack fuel forms σ = .error e σ' → e.outOfInput = true →
      RunsOut {} σ.tokens := by
  intro fuel
  induction fuel with
  | zero => exact fun forms σ h => absurd h (Nat.not_lt_zero _)
  | succ fuel ih =>
    intro forms σ hlen
    cases htoks : σ.tokens with
    | nil =>
      have hrun : readAllForms H stack (fuel + 1) forms σ = .ok forms σ := by
        unfold readAllForms
        rw [run_bind (show nextToken σ = .ok .endOfFile σ by rw [nextToken, htoks])]
        rfl
      rw [hrun]
      exact ⟨fun r σ' _ => ⟨[], [], rfl, rfl, .inl rfl⟩, fun e σ' h => by cases h⟩
    | cons tok toks =>
      have hnext : nextToken σ = .ok tok { σ with tokens := toks } := by
        rw [nextToken, htoks]
      have hlt : toks.length < fuel := by
        rw [htoks, List.length_cons] at hlen
        omega
      -- what a form or a discarded one reads, and the loop after it
      have hgo : ∀ {α : Type} {m : Read α} {f : α → List Form},
          Reads [tok] {} m {} { σ with tokens := toks } →
          (∀ r σ', (m >>= fun a => readAllForms H stack fuel (f a)) { σ with tokens := toks } =
            .ok r σ' → ∃ pre rest, tok :: toks = pre ++ rest ∧ Pending.after {} pre = some {} ∧
              (rest = [] ∨ ∃ post, rest = .endOfFile :: post)) ∧
          ∀ e σ', (m >>= fun a => readAllForms H stack fuel (f a)) { σ with tokens := toks } =
            .error e σ' → e.outOfInput = true → RunsOut {} (tok :: toks) := by
        intro α m f hm
        constructor
        · intro r σ' h
          obtain ⟨a, σ₁, ha, h⟩ := bind_ok.mp h
          obtain ⟨used, hused, hafter⟩ := hm.ok a σ₁ ha
          have hlen₁ : σ₁.tokens.length < fuel := Nat.lt_of_le_of_lt (hm.length_le ha) hlt
          obtain ⟨pre, rest, htail, hpre, hrest⟩ := (ih (f a) σ₁ hlen₁).1 r σ' h
          have hused : toks = used ++ σ₁.tokens := hused
          refine ⟨tok :: used ++ pre, rest, ?_, Pending.after_trans hafter hpre, hrest⟩
          rw [hused, htail, List.cons_append, List.cons_append, List.append_assoc]
        · intro e σ' h hout
          rcases bind_error.mp h with h | ⟨a, σ₁, ha, h⟩
          · exact hm.out e σ' h hout
          · obtain ⟨used, hused, hafter⟩ := hm.ok a σ₁ ha
            have hlen₁ : σ₁.tokens.length < fuel := Nat.lt_of_le_of_lt (hm.length_le ha) hlt
            have hused : toks = used ++ σ₁.tokens := hused
            rw [hused]
            exact runsOut_front hafter ((ih (f a) σ₁ hlen₁).2 e σ' h hout)
      unfold readAllForms
      rw [run_bind hnext]
      by_cases hend : tok = .endOfFile
      · subst hend
        refine ⟨fun r σ' _ => ⟨[], _, rfl, rfl, .inr ⟨toks, rfl⟩⟩, fun e σ' h => (by cases h)⟩
      · by_cases hdiscard : tok = .hashUnderscore
        · subst hdiscard
          have hskip : Reads [] ⟨1, []⟩ (discardNextForm (readFromToken H stack) .hashUnderscore) {}
              { σ with tokens := toks } := reads_discard (reads_fromToken H stack) _ Nat.one_pos
          exact hgo (f := fun _ => forms) (reads_front rfl hskip)
        · have hform := hgo (f := fun form => forms ++ [form])
            (reads_fromToken H stack tok {} { σ with tokens := toks } fun h => absurd h hdiscard)
          cases tok <;> first | exact absurd rfl hend | exact absurd rfl hdiscard | exact hform

end
end
end ProtoClojure.Reader
