import ProtoClojure.Reader.FnForms

/-! Bodies that are read, whatever symbols their arguments get. -/
namespace ProtoClojure.Reader
open NameSupply Unwinding

/-- An index is not 0 and not beyond 20. -/
def goodIndex (text : Bytes) : Bool :=
  text.length = 1 ||
    match argIndex 0 text.tail with
    | .ok (some n) => n ≠ 0
    | .ok none => true
    | .error _ => false

def readableAtom (H : ReaderHost) : Token → Bool
  | .integer _ | .float _ | .string _ => true
  | .symbol text => text.head? ≠ some 0x25 || goodIndex text
  | .regex source => (H.patternError source).isNone
  | _ => false

/-- The keys of a map are paired and not repeated, nor are the elements of a set. -/
def NoRepeat (H : ReaderHost) : Token → List Form → Prop
  | .lbrace, kv => kv.length % 2 = 0 ∧
      (H.mapCount kv = kv.length / 2 ∨ firstRepeated H [] ((pairUp kv).map Prod.fst) = none)
  | .hashLBrace, items => H.setCount items = items.length ∨ firstRepeated H [] items = none
  | _, _ => True

/-- Symbols that a literal may give its arguments. -/
def Fresh (sym : Arg → String) : Prop := ∀ a, ∃ n, sym a = argName a n

inductive Part where
  | form
  | forms

/-- The tokens of one form or of several that a body may hold. -/
inductive Readable (H : ReaderHost) : Part → List Token → Prop
  | atom {tok : Token} : readableAtom H tok = true → Readable H .form [tok]
  | collection {opening closing : Token} {close : Closing} {make : List Form → Form}
    {body : List Token} :
    opening.collection = some (close, make) → closing.closing = some close →
    Readable H .forms body →
    (∀ sym items, Fresh sym → ReadsAs H sym body items → NoRepeat H opening items) →
    Readable H .form (opening :: body ++ [closing])
  | wrapped {tok : Token} {head : String} {ts : List Token} :
    tok.wrapper = some head → Readable H .form ts → Readable H .form (tok :: ts)
  | syntaxQuoted {ts : List Token} : Readable H .form ts →
    (∀ sym ids form, Fresh sym → ReadsAs H sym ts [form] →
      ∃ r, readSyntaxQuote H.resolver ids form = .ok r) →
    Readable H .form (.backtick :: ts)
  | discarding {ts us : List Token} : Readable H .form ts → Readable H .form us →
    Readable H .form (.hashUnderscore :: ts ++ us)
  | none : Readable H .forms []
  | item {ts us : List Token} : ts.head? ≠ some .hashUnderscore → Readable H .form ts →
    Readable H .forms us → Readable H .forms (ts ++ us)
  | discarded {ts us : List Token} : Readable H .form ts → Readable H .forms us →
    Readable H .forms (.hashUnderscore :: ts ++ us)

/-- Inside a literal `m` answers, and reads just these tokens. -/
def Takes {α : Type} (ts : List Token) (m : Read α) : Prop :=
  ∀ base lit σ rest, Inside base σ lit → σ.tokens = ts ++ rest →
    ∃ a σ', m σ = .ok a σ' ∧ σ'.tokens = rest

section
variable {α β : Type} {ts us : List Token} {m : Read α} {f : α → Read β}

theorem takes_pure (a : α) : Takes [] (pure a : Read α) :=
  fun _ _ σ _ _ htokens => ⟨a, σ, rfl, htokens⟩

theorem fresh_name {base : Nat} {σ : ReadState} {lit : FnLiteral} (h : Inside base σ lit) :
    Fresh lit.name := by
  intro a
  cases hs : lit.symbol a with
  | none => exact ⟨0, by rw [FnLiteral.name, hs]; rfl⟩
  | some s =>
    obtain ⟨n, -, -, hn⟩ := h.drawn.numbered a s hs
    exact ⟨n, by rw [FnLiteral.name, hs, ← hn]; rfl⟩

/-- What `m` answers is what its tokens stand for, and `f` may rely on it. -/
theorem takes_bind {front : List Token} {P : (Arg → String) → List Token → α → Prop}
    (hm : Takes ts m) (hbody : ∀ σ, InBody front P m σ)
    (hf : ∀ a sym, Fresh sym → P sym (front ++ ts) a → Takes us (f a)) :
    Takes (ts ++ us) (m >>= f) := by
  intro base lit σ rest hin htokens
  rw [List.append_assoc] at htokens
  obtain ⟨a, σ₁, ha, htokens₁⟩ := hm base lit σ (us ++ rest) hin htokens
  obtain ⟨used, lit', hused, hin', -, hP⟩ := hbody σ base lit hin a σ₁ ha
  rw [htokens, htokens₁] at hused
  obtain rfl := List.append_cancel_right hused
  obtain ⟨b, σ', hb, htokens'⟩ :=
    hf a lit'.name (fresh_name hin') (hP _ (agrees_name lit')) base lit' σ₁ rest hin' htokens₁
  exact ⟨b, σ', (run_bind ha).trans hb, htokens'⟩

theorem takes_then {front : List Token} {P : (Arg → String) → List Token → α → Prop}
    (hm : Takes ts m) (hbody : ∀ σ, InBody front P m σ)
    (hf : ∀ a sym, Fresh sym → P sym (front ++ ts) a → Takes [] (f a)) :
    Takes ts (m >>= f) := by
  have hbind := takes_bind hm hbody hf
  rwa [List.append_nil] at hbind

theorem takes_map (hm : Takes ts m) (g : α → β) : Takes ts (g <$> m) := by
  intro base lit σ rest hin htokens
  obtain ⟨a, σ', ha, htokens'⟩ := hm base lit σ rest hin htokens
  exact ⟨g a, σ', map_ok.mpr ⟨a, ha, rfl⟩, htokens'⟩

end

/-! ### Symbols -/

section
variable {H : ReaderHost}

theorem fnParam_answers (lit : FnLiteral) (σ : ReadState) (n : Nat) :
    ∃ symbol σ', fnParam lit n σ = .ok symbol σ' ∧ σ'.tokens = σ.tokens := by
  unfold fnParam
  dsimp only
  cases ((lit.params ++ List.replicate (n - lit.params.length) none)[n - 1]?).getD none with
  | some symbol => exact ⟨symbol, _, rfl, rfl⟩
  | none => exact ⟨_, _, rfl, rfl⟩

theorem fnLiteralArg_answers (lit : FnLiteral) (σ : ReadState) {text : Bytes}
    (h : goodIndex text = true) :
    ∃ answer σ', fnLiteralArg lit text σ = .ok answer σ' ∧ σ'.tokens = σ.tokens := by
  unfold fnLiteralArg
  split
  · cases lit.rest with
    | some symbol => exact ⟨_, _, rfl, rfl⟩
    | none => exact ⟨_, _, rfl, rfl⟩
  · split
    · obtain ⟨symbol, σ', hrun, htokens⟩ := fnParam_answers lit σ 1
      exact ⟨some symbol, σ', map_ok.mpr ⟨symbol, hrun, rfl⟩, htokens⟩
    · rename_i hlen
      unfold goodIndex at h
      rw [decide_eq_false hlen, Bool.false_or] at h
      cases hindex : argIndex 0 text.tail with
      | error e =>
        rw [hindex] at h
        cases h
      | ok index =>
        rw [hindex] at h
        cases index with
        | none => exact ⟨none, σ, rfl, rfl⟩
        | some n =>
          have hn : n ≠ 0 := of_decide_eq_true h
          obtain ⟨symbol, σ', hrun, htokens⟩ := fnParam_answers lit σ n
          refine ⟨some symbol, σ', ?_, htokens⟩
          show (if n = 0 then fail "Arg literal must be %, %& or %integer"
            else some <$> fnParam lit n : Read (Option String)) σ = _
          rw [if_neg hn]
          exact map_ok.mpr ⟨symbol, hrun, rfl⟩

theorem takes_symbol {text : Bytes} (h : readableAtom H (.symbol text) = true) :
    Takes [] (readSymbol H text) := by
  intro base lit σ rest hin htokens
  unfold readSymbol
  split
  · exact ⟨_, σ, rfl, htokens⟩
  · split
    · exact ⟨_, σ, rfl, htokens⟩
    · split
      · exact ⟨_, σ, rfl, htokens⟩
      · rw [run_bind (show (get : Read ReadState) σ = .ok σ σ from rfl), hin.current]
        dsimp only
        split
        · rename_i hhead
          have hgood : goodIndex text = true := by
            have hor : (decide (text.head? ≠ some 0x25) || goodIndex text) = true := h
            rw [hhead] at hor
            simpa using hor
          obtain ⟨answer, σ', hrun, htokens'⟩ := fnLiteralArg_answers lit σ hgood
          rw [run_bind hrun]
          cases answer with
          | some symbol => exact ⟨_, σ', rfl, htokens'.trans htokens⟩
          | none => exact ⟨_, σ', rfl, htokens'.trans htokens⟩
        · exact ⟨_, σ, rfl, htokens⟩

end

/-! ### Forms -/

section
variable (H : ReaderHost) (stack : Nat)

/-- The first token starts a form that ends with the last. -/
def ReadsOne (ts : List Token) : Prop :=
  ∃ tok us, ts = tok :: us ∧ tok.closing = none ∧ tok ≠ .endOfFile ∧
    Takes us (readFromToken H stack tok)

/-- The forms of a collection are read, to its end. -/
def ReadsAll (ts : List Token) : Prop :=
  ∀ close closing what items fuel, closing.closing = some close → ts.length + 1 ≤ fuel →
    Takes (ts ++ [closing]) (readListLoop (readFromToken H stack) close what fuel items)

variable {H stack} {ts us : List Token}

theorem takes_next {β : Type} {tok : Token} {f : Token → Read β} (h : Takes us (f tok)) :
    Takes (tok :: us) (nextToken >>= f) := by
  intro base lit σ rest hin htokens
  have hnext : nextToken σ = .ok tok { σ with tokens := us ++ rest } := by
    rw [nextToken, htokens]
    rfl
  rw [run_bind hnext]
  exact h base lit _ rest ⟨hin.current, hin.le, hin.drawn⟩ rfl

theorem takes_nextForm (h : ReadsOne H stack ts) (macroTok : Token) :
    Takes ts (readNextForm (readFromToken H stack) macroTok) := by
  obtain ⟨tok, us, rfl, -, hend, htakes⟩ := h
  refine takes_next ?_
  cases tok <;> first | exact absurd rfl hend | exact htakes

theorem takes_discard (h : ReadsOne H stack ts) (macroTok : Token) :
    Takes ts (discardNextForm (readFromToken H stack) macroTok) :=
  takes_then (takes_nextForm h macroTok)
    (fun _ => inBody_nextForm (inBody_fromToken H stack) macroTok)
    fun _ _ _ _ => takes_pure ()

theorem readsAll_nil : ReadsAll H stack [] := by
  intro close closing what items fuel hclosing hfuel
  obtain ⟨fuel, rfl⟩ := Nat.exists_eq_add_of_le' hfuel
  refine takes_next ?_
  have hrun : Takes [] (if close = close then pure items
      else fail ("mismatched " ++ close.kindName) : Read (List Form)) := by
    rw [if_pos rfl]
    exact takes_pure items
  cases closing <;> cases hclosing <;> exact hrun

theorem readsAll_item (hts : ReadsOne H stack ts) (hdiscard : ts.head? ≠ some .hashUnderscore)
    (hus : ReadsAll H stack us) : ReadsAll H stack (ts ++ us) := by
  intro close closing what items fuel hclosing hfuel
  obtain ⟨fuel, rfl⟩ := Nat.exists_eq_add_of_le' (Nat.le_of_add_left_le hfuel)
  obtain ⟨tok, vs, rfl, hnone, hend, htakes⟩ := hts
  rw [List.append_assoc, List.cons_append]
  refine takes_next ?_
  have hlen : us.length + 1 ≤ fuel := by
    simp only [List.length_append, List.length_cons] at hfuel
    omega
  have hrun : Takes (vs ++ (us ++ [closing])) (do
      let item ← readFromToken H stack tok
      readListLoop (readFromToken H stack) close what fuel (items ++ [item])) :=
    takes_bind htakes (inBody_fromToken H stack tok) fun item _ _ _ =>
      hus close closing what _ fuel hclosing hlen
  cases tok <;> first | exact absurd rfl hend | exact absurd rfl hdiscard | skip
  all_goals
    first | cases hnone; done | exact hrun

theorem readsAll_discarded (hts : ReadsOne H stack ts) (hus : ReadsAll H stack us) :
    ReadsAll H stack (.hashUnderscore :: ts ++ us) := by
  intro close closing what items fuel hclosing hfuel
  obtain ⟨fuel, rfl⟩ := Nat.exists_eq_add_of_le' (Nat.le_of_add_left_le hfuel)
  rw [List.cons_append, List.cons_append, List.append_assoc]
  refine takes_next ?_
  have hlen : us.length + 1 ≤ fuel := by
    simp only [List.length_append, List.length_cons] at hfuel
    omega
  exact takes_bind (takes_discard hts _)
    (fun _ => inBody_discard (inBody_fromToken H stack) _)
    fun _ _ _ _ => hus close closing what _ fuel hclosing hlen

theorem takes_list (hts : ReadsAll H stack ts) {close : Closing} {closing : Token}
    (hclosing : closing.closing = some close) (what : String) :
    Takes (ts ++ [closing]) (readList (readFromToken H stack) close what) := by
  intro base lit σ rest hin htokens
  unfold readList
  rw [run_bind (show (get : Read ReadState) σ = .ok σ σ from rfl)]
  refine hts close closing what [] _ hclosing ?_ base lit σ rest hin htokens
  rw [htokens, List.length_append, List.length_append]
  simp only [List.length_cons, List.length_nil]
  omega

/-- What follows the tokens of a list that has been read. -/
theorem takes_collection {β : Type} {f : List Form → Read β} (hts : ReadsAll H stack ts)
    {close : Closing} {closing : Token} (hclosing : closing.closing = some close) (what : String)
    (hf : ∀ sym items, Fresh sym → ReadsAs H sym ts items → Takes [] (f items)) :
    Takes (ts ++ [closing]) (readList (readFromToken H stack) close what >>= f) := by
  refine takes_then (takes_list hts hclosing what)
    (fun _ => inBody_list (inBody_fromToken H stack) close what)
    fun items sym hsym hclosed => ?_
  obtain ⟨body, closing', hused, -, hitems⟩ := hclosed
  have hsame : ts ++ [closing] = body ++ [closing'] := hused
  obtain ⟨rfl, -⟩ := List.append_inj' hsame rfl
  exact hf sym items hsym hitems

theorem takes_noDuplicate {keys : List Form} (h : firstRepeated H [] keys = none) :
    Takes [] (noDuplicate H keys) := by
  unfold noDuplicate
  rw [h]
  exact takes_pure ()

theorem takes_checked {keys : List Form} {repeats : Prop} [Decidable repeats] (form : Form)
    (h : ¬ repeats ∨ firstRepeated H [] keys = none) :
    Takes [] (do
      if repeats then noDuplicate H keys
      return form : Read Form) := by
  by_cases hrepeats : repeats
  · intro base lit σ rest hin htokens
    obtain ⟨u, σ', hrun, htokens'⟩ :=
      takes_noDuplicate (h.resolve_left fun hn => hn hrepeats) base lit σ rest hin htokens
    rw [if_pos hrepeats]
    exact ⟨form, σ', by rw [run_bind hrun]; rfl, htokens'⟩
  · rw [if_neg hrepeats]
    exact takes_pure form

theorem readsOne_collection {body : List Token} (hbody : ReadsAll H stack body)
    (hcode : H.edn = false) {opening closing : Token} {close : Closing} {make : List Form → Form}
    (hopening : opening.collection = some (close, make)) (hclosing : closing.closing = some close)
    (hrepeat : ∀ sym items, Fresh sym → ReadsAs H sym body items → NoRepeat H opening items) :
    ReadsOne H (stack + 1) (opening :: body ++ [closing]) := by
  refine ⟨opening, body ++ [closing], rfl, ?_, ?_, ?_⟩
  · cases opening <;> first | rfl | cases hopening
  · rintro rfl
    cases hopening
  · unfold readFromToken ednRefuses
    rw [hcode]
    cases opening with
    | lparen =>
      cases hopening
      exact takes_map (takes_list hbody hclosing _) _
    | lbracket =>
      cases hopening
      exact takes_map (takes_list hbody hclosing _) _
    | lbrace =>
      cases hopening
      refine takes_collection hbody hclosing _ fun sym items hsym hitems => ?_
      obtain ⟨heven, hcheck⟩ := hrepeat sym items hsym hitems
      rw [if_neg (not_not_intro heven)]
      exact takes_checked _ (hcheck.imp_left not_not_intro)
    | hashLBrace =>
      cases hopening
      refine takes_collection hbody hclosing _ fun sym items hsym hitems => ?_
      exact takes_checked _ ((hrepeat sym items hsym hitems).imp_left not_not_intro)
    | _ => cases hopening

theorem readsOne_atom (hcode : H.edn = false) {tok : Token} (h : readableAtom H tok = true) :
    ReadsOne H (stack + 1) [tok] := by
  refine ⟨tok, [], rfl, ?_, ?_, ?_⟩
  · cases tok <;> first | rfl | cases h
  · rintro rfl
    cases h
  · unfold readFromToken ednRefuses
    rw [hcode]
    cases tok with
    | integer digits => exact takes_pure _
    | float literal => exact takes_pure _
    | string text => exact takes_pure _
    | symbol text => exact takes_symbol h
    | regex source =>
      dsimp only
      cases hpattern : H.patternError source with
      | some message =>
        rw [readableAtom, hpattern] at h
        cases h
      | none => exact takes_pure _
    | _ => cases h

theorem readsOne_wrapped (hcode : H.edn = false) (hts : ReadsOne H stack ts) {tok : Token}
    {head : String} (htok : tok.wrapper = some head) : ReadsOne H (stack + 1) (tok :: ts) := by
  have hwrapped : Takes ts (readWrapped (readFromToken H stack) tok head) :=
    takes_then (takes_nextForm hts tok)
      (fun _ => inBody_nextForm (inBody_fromToken H stack) tok) fun item _ _ _ => takes_pure _
  refine ⟨tok, ts, rfl, ?_, ?_, ?_⟩
  · cases tok <;> first | rfl | cases htok
  · rintro rfl
    cases htok
  · unfold readFromToken ednRefuses
    rw [hcode]
    cases tok <;> cases htok <;> exact hwrapped

theorem readsOne_syntaxQuoted (hcode : H.edn = false) (hts : ReadsOne H stack ts)
    (hquote : ∀ sym ids form, Fresh sym → ReadsAs H sym ts [form] →
      ∃ r, readSyntaxQuote H.resolver ids form = .ok r) :
    ReadsOne H (stack + 1) (.backtick :: ts) := by
  refine ⟨.backtick, ts, rfl, rfl, fun h => (by cases h), ?_⟩
  unfold readFromToken ednRefuses
  rw [hcode]
  refine takes_then (takes_nextForm hts .backtick)
    (fun _ => inBody_nextForm (inBody_fromToken H stack) .backtick)
    fun item sym hsym hitem => ?_
  intro base lit σ rest hin htokens
  have hitems := hitem [] [] .nil
  rw [List.append_nil] at hitems
  obtain ⟨r, hr⟩ := hquote sym (fun k => σ.gensymId + k + 1) item hsym hitems
  rw [run_bind (show (get : Read ReadState) σ = .ok σ σ from rfl), hr]
  exact ⟨_, _, rfl, htokens⟩

theorem readsOne_discarding (hcode : H.edn = false) (hts : ReadsOne H stack ts)
    (hus : ReadsOne H stack us) : ReadsOne H (stack + 1) (.hashUnderscore :: ts ++ us) := by
  refine ⟨.hashUnderscore, ts ++ us, rfl, rfl, fun h => (by cases h), ?_⟩
  unfold readFromToken ednRefuses
  rw [hcode]
  exact takes_bind (takes_discard hts _)
    (fun _ => inBody_discard (inBody_fromToken H stack) _)
    fun _ _ _ _ => takes_nextForm hus _

/-- Deep enough a stack reads the tokens. -/
theorem Readable.reads (hcode : H.edn = false) {part : Part} (h : Readable H part ts) :
    ∃ depth, ∀ stack, depth ≤ stack →
      (part = .form → ReadsOne H stack ts) ∧ (part = .forms → ReadsAll H stack ts) := by
  induction h with
  | atom hatom =>
    refine ⟨1, fun stack hle => ⟨fun _ => ?_, fun h => by cases h⟩⟩
    obtain ⟨stack, rfl⟩ := Nat.exists_eq_add_of_le' hle
    exact readsOne_atom hcode hatom
  | collection hopening hclosing _ hrepeat ih =>
    obtain ⟨depth, hbody⟩ := ih
    refine ⟨depth + 1, fun stack hle => ⟨fun _ => ?_, fun h => by cases h⟩⟩
    obtain ⟨stack, rfl⟩ := Nat.exists_eq_add_of_le' (Nat.le_of_add_left_le hle)
    exact readsOne_collection ((hbody stack (by omega)).2 rfl) hcode hopening hclosing hrepeat
  | wrapped htok _ ih =>
    obtain ⟨depth, hform⟩ := ih
    refine ⟨depth + 1, fun stack hle => ⟨fun _ => ?_, fun h => by cases h⟩⟩
    obtain ⟨stack, rfl⟩ := Nat.exists_eq_add_of_le' (Nat.le_of_add_left_le hle)
    exact readsOne_wrapped hcode ((hform stack (by omega)).1 rfl) htok
  | syntaxQuoted _ hquote ih =>
    obtain ⟨depth, hform⟩ := ih
    refine ⟨depth + 1, fun stack hle => ⟨fun _ => ?_, fun h => by cases h⟩⟩
    obtain ⟨stack, rfl⟩ := Nat.exists_eq_add_of_le' (Nat.le_of_add_left_le hle)
    exact readsOne_syntaxQuoted hcode ((hform stack (by omega)).1 rfl) hquote
  | discarding _ _ ihts ihus =>
    obtain ⟨depth, hts⟩ := ihts
    obtain ⟨depth', hus⟩ := ihus
    refine ⟨max depth depth' + 1, fun stack hle => ⟨fun _ => ?_, fun h => by cases h⟩⟩
    obtain ⟨stack, rfl⟩ := Nat.exists_eq_add_of_le' (Nat.le_of_add_left_le hle)
    exact readsOne_discarding hcode ((hts stack (by omega)).1 rfl) ((hus stack (by omega)).1 rfl)
  | none => exact ⟨0, fun stack _ => ⟨fun h => (by cases h), fun _ => readsAll_nil⟩⟩
  | item hhead _ _ ihts ihus =>
    obtain ⟨depth, hts⟩ := ihts
    obtain ⟨depth', hus⟩ := ihus
    refine ⟨max depth depth', fun stack hle => ⟨fun h => (by cases h), fun _ => ?_⟩⟩
    exact readsAll_item ((hts stack (by omega)).1 rfl) hhead ((hus stack (by omega)).2 rfl)
  | discarded _ _ ihts ihus =>
    obtain ⟨depth, hts⟩ := ihts
    obtain ⟨depth', hus⟩ := ihus
    refine ⟨max depth depth', fun stack hle => ⟨fun h => (by cases h), fun _ => ?_⟩⟩
    exact readsAll_discarded ((hts stack (by omega)).1 rfl) ((hus stack (by omega)).2 rfl)

theorem nameParams_answers (n : Nat) (params : List (Option String)) : ∀ σ : ReadState,
    ∃ forms σ', nameParams n params σ = .ok forms σ' ∧ σ'.tokens = σ.tokens := by
  induction params generalizing n with
  | nil => exact fun σ => ⟨[], σ, rfl, rfl⟩
  | cons param params ih =>
    intro σ
    cases param with
    | some symbol =>
      obtain ⟨forms, σ', hrun, htokens⟩ := ih (n + 1) σ
      exact ⟨_, σ', (run_bind hrun).trans rfl, htokens⟩
    | none =>
      obtain ⟨forms, σ', hrun, htokens⟩ :=
        ih (n + 1) { σ with gensymId := σ.gensymId + 1 }
      exact ⟨_, σ', (run_bind hrun).trans rfl, htokens⟩

/-- The body and the parameters have been read. -/
theorem readFnLiteral_run {form : Token → Read Form} {σ σ₁ σ₂ : ReadState}
    {items params : List Form} (hnone : σ.fnLiteral = none)
    (hitems : readList form .paren "unterminated list — missing `)`"
      { σ with fnLiteral := some {} } = .ok items σ₁)
    (hparams : nameParams 1 (σ₁.fnLiteral.getD {}).params σ₁ = .ok params σ₂) :
    readFnLiteral form σ = .ok (.list [.name "fn*",
        .vector (params ++ restForms (σ₁.fnLiteral.getD {}).rest), .list items])
      { σ₂ with fnLiteral := none } := by
  have hget : (get : Read ReadState) σ₁ = .ok σ₁ σ₁ := rfl
  unfold readFnLiteral
  rw [run_bind (show (get : Read ReadState) σ = .ok σ σ from rfl), hnone,
    if_neg (show ¬ (none : Option FnLiteral).isSome = true by decide)]
  exact guarded_ok.mpr ⟨σ₂, (run_bind hitems).trans ((run_bind hget).trans
    ((run_bind hparams).trans rfl)), rfl⟩

/-- A literal whose body may be read is read, where none is open. -/
theorem fnLiteral_answers (hcode : H.edn = false) {body : List Token}
    (h : Readable H .forms body) : ∃ depth, ∀ stack, depth ≤ stack → ∀ (σ : ReadState) rest,
      σ.fnLiteral = none → σ.tokens = body ++ .rparen :: rest →
      ∃ form σ', readFromToken H stack .hashLParen σ = .ok form σ' ∧ σ'.tokens = rest := by
  obtain ⟨depth, hbody⟩ := h.reads hcode
  refine ⟨depth + 1, fun stack hle σ rest hnone htokens => ?_⟩
  obtain ⟨stack, rfl⟩ := Nat.exists_eq_add_of_le' (Nat.le_of_add_left_le hle)
  have hlist := takes_list ((hbody stack (by omega)).2 rfl) (show Token.closing .rparen = some .paren from rfl)
    "unterminated list — missing `)`"
  have hstart : Inside σ.gensymId { σ with fnLiteral := some {} } {} := inside_start σ
  obtain ⟨items, σ₁, hitems, htokens₁⟩ :=
    hlist _ _ _ rest hstart (by rw [List.append_assoc]; exact htokens)
  obtain ⟨params, σ₂, hparams, htokens₂⟩ :=
    nameParams_answers 1 (σ₁.fnLiteral.getD {}).params σ₁
  unfold readFromToken ednRefuses
  rw [hcode]
  exact ⟨_, _, readFnLiteral_run hnone hitems hparams, htokens₂.trans htokens₁⟩

end
end ProtoClojure.Reader
