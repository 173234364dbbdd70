import ProtoClojure.Reader.Forms

/-! What a call of the reader leaves, whether it answers or fails: no literal left open, and no
number to be given twice. -/
namespace ProtoClojure.Reader
open Unwinding

structure Settles (σ σ' : ReadState) : Prop where
  counted : σ.gensymId ≤ σ'.gensymId
  closed : σ.fnLiteral = none → σ'.fnLiteral = none

theorem Settles.refl (σ : ReadState) : Settles σ σ := ⟨Nat.le_refl _, id⟩

theorem Settles.trans {σ σ' σ'' : ReadState} (h : Settles σ σ') (h' : Settles σ' σ'') :
    Settles σ σ'' := ⟨Nat.le_trans h.counted h'.counted, h'.closed ∘ h.closed⟩

section
variable {α β : Type} {m : Read α} {f : α → Read β} {σ : ReadState}

theorem settles_bind (hm : Keeps Settles m σ)
    (hf : ∀ a σ', m σ = .ok a σ' → Keeps Settles (f a) σ') : Keeps Settles (m >>= f) σ :=
  keeps_bind Settles.trans hm hf

theorem settles_pure (a : α) : Keeps Settles (pure a : Read α) σ := keeps_pure Settles.refl a

theorem settles_throw (e : ReadError) : Keeps Settles (throw e : Read α) σ :=
  keeps_throw Settles.refl e

theorem settles_get : Keeps Settles (get : Read ReadState) σ := Settles.refl σ

theorem settles_next : Keeps Settles nextToken σ := by
  unfold Keeps nextToken
  cases σ.tokens with
  | nil => exact Settles.refl σ
  | cons tok toks => exact ⟨Nat.le_refl _, id⟩

theorem settles_gensym : Keeps Settles nextGensymId σ := ⟨Nat.le_succ _, id⟩

/-- Inside a literal only the numbers count. -/
theorem settles_inside {lit : FnLiteral} (hlit : σ.fnLiteral = some lit)
    (h : σ.gensymId ≤ (left (m σ)).gensymId) : Keeps Settles m σ where
  counted := h
  closed hnone := by
    rw [hlit] at hnone
    cases hnone

/-! ### Symbols -/

variable {lit : FnLiteral}

theorem settles_fnParam (hlit : σ.fnLiteral = some lit) (n : Nat) :
    Keeps Settles (fnParam lit n) σ := by
  apply settles_inside hlit
  unfold fnParam
  dsimp only
  cases ((lit.params ++ List.replicate (n - lit.params.length) none)[n - 1]?).getD none with
  | some symbol => exact Nat.le_refl _
  | none => exact Nat.le_succ _

theorem settles_fnLiteralArg (hlit : σ.fnLiteral = some lit) (text : Bytes) :
    Keeps Settles (fnLiteralArg lit text) σ := by
  unfold fnLiteralArg
  split
  · apply settles_inside hlit
    cases lit.rest with
    | some symbol => exact Nat.le_refl _
    | none => exact Nat.le_succ _
  · split
    · exact keeps_map (settles_fnParam hlit 1) some
    · cases argIndex 0 text.tail with
      | error e => exact settles_throw e
      | ok index =>
        refine settles_bind (settles_pure index) fun index' σ' h => ?_
        cases h
        cases index with
        | none => exact settles_pure none
        | some n =>
          dsimp only
          split
          · exact settles_throw _
          · exact keeps_map (settles_fnParam hlit n) some

theorem settles_symbol (H : ReaderHost) (text : Bytes) : Keeps Settles (readSymbol H text) σ := by
  unfold readSymbol
  split
  · exact settles_pure _
  · split
    · exact settles_pure _
    · split
      · exact settles_pure _
      · refine settles_bind settles_get fun τ σ' h => ?_
        cases h
        cases hlit : σ.fnLiteral with
        | none => exact settles_pure _
        | some lit =>
          dsimp only
          split
          · refine settles_bind (settles_fnLiteralArg hlit text) fun arg σ' _ => ?_
            cases arg with
            | some symbol => exact settles_pure _
            | none => exact settles_pure _
          · exact settles_pure _

/-! ### Forms -/

def FormSettles (form : Token → Read Form) : Prop := ∀ tok σ, Keeps Settles (form tok) σ

variable {H : ReaderHost} {form : Token → Read Form}

theorem settles_nextForm (hform : FormSettles form) (macroTok : Token) :
    Keeps Settles (readNextForm form macroTok) σ := by
  refine settles_bind settles_next fun tok σ' _ => ?_
  cases tok <;> first | exact settles_throw _ | exact hform _ σ'

theorem settles_discard (hform : FormSettles form) (macroTok : Token) :
    Keeps Settles (discardNextForm form macroTok) σ :=
  settles_bind (settles_nextForm hform macroTok) fun _ _ _ => settles_pure ()

theorem settles_listLoop (hform : FormSettles form) (close : Closing) (what : String) :
    ∀ (fuel : Nat) (items : List Form) (σ : ReadState),
      Keeps Settles (readListLoop form close what fuel items) σ := by
  intro fuel
  induction fuel with
  | zero => exact fun items σ => settles_pure items
  | succ fuel ih =>
    intro items σ
    refine settles_bind settles_next fun tok σ' _ => ?_
    have hclosed : ∀ c : Closing, Keeps Settles
        (if c = close then pure items else fail ("mismatched " ++ c.kindName)) σ' := by
      intro c
      split
      · exact settles_pure items
      · exact settles_throw _
    have hitem : ∀ tok : Token, Keeps Settles (do
        let item ← form tok
        readListLoop form close what fuel (items ++ [item])) σ' :=
      fun tok => settles_bind (hform tok σ') fun item σ'' _ => ih _ σ''
    cases tok with
    | endOfFile => exact settles_throw _
    | hashUnderscore => exact settles_bind (settles_discard hform _) fun _ σ'' _ => ih items σ''
    | rparen => exact hclosed .paren
    | rbracket => exact hclosed .bracket
    | rbrace => exact hclosed .brace
    | _ => exact hitem _

theorem settles_list (hform : FormSettles form) (close : Closing) (what : String) :
    Keeps Settles (readList form close what) σ := by
  refine settles_bind settles_get fun τ σ' _ => ?_
  exact settles_listLoop hform close what _ [] σ'

theorem settles_noDuplicate (keys : List Form) : Keeps Settles (noDuplicate H keys) σ := by
  unfold noDuplicate
  cases firstRepeated H [] keys with
  | none => exact settles_pure ()
  | some k => exact settles_throw _

theorem settles_mapLiteral (hform : FormSettles form) : Keeps Settles (readMap H form) σ := by
  refine settles_bind (settles_list hform .brace _) fun kv σ' _ => ?_
  split
  · exact settles_throw _
  · split
    · exact settles_bind (settles_noDuplicate _) fun _ _ _ => settles_pure _
    · exact settles_pure _

theorem settles_setLiteral (hform : FormSettles form) : Keeps Settles (readSet H form) σ := by
  refine settles_bind (settles_list hform .brace _) fun items σ' _ => ?_
  split
  · exact settles_bind (settles_noDuplicate _) fun _ _ _ => settles_pure _
  · exact settles_pure _

theorem settles_nameParams (n : Nat) (params : List (Option String)) :
    ∀ σ, Keeps Settles (nameParams n params) σ := by
  induction params generalizing n with
  | nil => exact fun σ => settles_pure []
  | cons param params ih =>
    intro σ
    cases param with
    | some symbol => exact settles_bind (ih (n + 1) σ) fun _ _ _ => settles_pure _
    | none =>
      exact settles_bind settles_gensym fun _ σ' _ =>
        settles_bind (ih (n + 1) σ') fun _ _ _ => settles_pure _

/-- The guard closes the literal however its body ends. -/
theorem settles_guarded (h : Keeps Settles m { σ with fnLiteral := some lit }) :
    Keeps Settles (guarded (fun σ => { σ with fnLiteral := some lit })
      (fun σ => { σ with fnLiteral := none }) m) σ := by
  unfold Keeps
  rw [left_guarded]
  exact ⟨h.counted, fun _ => rfl⟩

theorem settles_fnLiteral (hform : FormSettles form) : Keeps Settles (readFnLiteral form) σ := by
  refine settles_bind settles_get fun τ σ' h => ?_
  cases h
  split
  · exact settles_throw _
  · refine settles_guarded (settles_bind (settles_list hform _ _) fun body σ₁ _ => ?_)
    refine settles_bind settles_get fun τ σ₂ _ => ?_
    exact settles_bind (settles_nameParams _ _ σ₂) fun _ _ _ => settles_pure _

theorem settles_wrapped (hform : FormSettles form) (macroTok : Token) (head : String) :
    Keeps Settles (readWrapped form macroTok head) σ :=
  settles_bind (settles_nextForm hform macroTok) fun _ _ _ => settles_pure _

theorem settles_backtick (hform : FormSettles form) (macroTok : Token) :
    Keeps Settles (readBacktick H form macroTok) σ := by
  refine settles_bind (settles_nextForm hform macroTok) fun item σ' _ => ?_
  refine settles_bind settles_get fun τ σ'' h => ?_
  cases h
  dsimp only
  cases readSyntaxQuote H.resolver (fun k => σ'.gensymId + k + 1) item with
  | error message => exact settles_throw _
  | ok r => exact ⟨Nat.le_add_right _ _, id⟩

theorem settles_fromToken (H : ReaderHost) (stack : Nat) : FormSettles (readFromToken H stack) := by
  induction stack with
  | zero => exact fun tok σ => settles_throw _
  | succ stack ih =>
    intro tok σ
    unfold readFromToken
    cases ednRefuses H tok with
    | some message => exact settles_throw _
    | none =>
      cases tok with
      | hashUnderscore =>
        exact settles_bind (settles_discard ih _) fun _ _ _ => settles_nextForm ih _
      | integer digits => exact settles_pure _
      | float literal => exact settles_pure _
      | string text => exact settles_pure _
      | symbol text => exact settles_symbol H text
      | hashLParen => exact settles_fnLiteral ih
      | lparen => exact keeps_map (settles_list ih .paren _) _
      | lbracket => exact keeps_map (settles_list ih .bracket _) _
      | lbrace => exact settles_mapLiteral ih
      | hashLBrace => exact settles_setLiteral ih
      | deref => exact settles_wrapped ih _ _
      | quote => exact settles_wrapped ih _ _
      | tilde => exact settles_wrapped ih _ _
      | tildeAt => exact settles_wrapped ih _ _
      | backtick => exact settles_backtick ih _
      | regex source =>
        dsimp only
        cases H.patternError source with
        | some message => exact settles_throw _
        | none => exact settles_pure _
      | error e => exact settles_throw _
      | rparen => exact settles_throw _
      | rbracket => exact settles_throw _
      | rbrace => exact settles_throw _
      | endOfFile => exact settles_throw _

theorem settles_readOne (H : ReaderHost) (stack : Nat) :
    ∀ (fuel : Nat) (σ : ReadState), Keeps Settles (readOne H stack fuel) σ := by
  intro fuel
  induction fuel with
  | zero => exact fun σ => settles_pure none
  | succ fuel ih =>
    intro σ
    refine settles_bind settles_next fun tok σ' _ => ?_
    cases tok with
    | endOfFile => exact settles_pure none
    | hashUnderscore =>
      exact settles_bind (settles_discard (settles_fromToken H stack) _) fun _ σ'' _ => ih σ''
    | _ => exact keeps_map (settles_fromToken H stack _ σ') some

end

/-! ### One call after another -/

/-- The state after some calls of `readOne`, each from where the one before it answered or
failed. -/
def afterCalls (H : ReaderHost) (stack : Nat) : Nat → ReadState → ReadState
  | 0, σ => σ
  | n + 1, σ => afterCalls H stack n (left (readOne H stack (σ.tokens.length + 1) σ))

theorem afterCalls_settles (H : ReaderHost) (stack n : Nat) :
    ∀ σ, Settles σ (afterCalls H stack n σ) := by
  induction n with
  | zero => exact Settles.refl
  | succ n ih => exact fun σ => (settles_readOne H stack _ σ).trans (ih _)

end ProtoClojure.Reader
