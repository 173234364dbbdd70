import ProtoClojure.Reader.FnLiterals

/-! The `fn*` form that `#(body)` is read as. -/
namespace ProtoClojure.Reader
open NameSupply Unwinding

/-- The arguments that are parameters of the function. -/
def isParam (args : List Arg) : Arg → Bool
  | .param i => i < highest args
  | .rest => args.contains .rest

/-- `p1 ... pN & rest`. -/
def paramForms (sym : Arg → String) (args : List Arg) : List Form :=
  (List.range (highest args)).map (fun i => .name (sym (.param i))) ++
    if args.contains .rest then [.name "&", .name (sym .rest)] else []

/-- The symbols of a function's parameters. -/
def paramSymbols (sym : Arg → String) (args : List Arg) (a : Arg) : Option String :=
  if isParam args a then some (sym a) else none

/-- `(fn* [p1 ... pN & rest] (body))`, with symbols of their own for the parameters, made from
numbers after `lo` and up to `hi`. -/
structure FnForm (H : ReaderHost) (sym : Arg → String) (body : List Token) (lo hi : Nat)
    (form : Form) : Prop where
  reads : ∃ items, ReadsAs H sym body items ∧
    form = .list [.name "fn*", .vector (paramForms sym (argsOf body)), .list items]
  drawn : Drawn argName lo hi (paramSymbols sym (argsOf body))

/-- No literal is inside another. -/
theorem ReadsAs.flat {H : ReaderHost} {sym : Arg → String} {toks : List Token}
    {forms : List Form} (h : ReadsAs H sym toks forms) : .hashLParen ∉ toks := by
  induction h with
  | nil => exact List.not_mem_nil
  | atom hatom _ ih =>
    rw [List.mem_cons, not_or]
    refine ⟨?_, ih⟩
    rintro rfl
    cases hatom
  | collection hopening hclosing _ _ ihbody ih =>
    rw [List.cons_append, List.mem_cons, List.mem_append, List.mem_cons, not_or, not_or, not_or]
    refine ⟨?_, ihbody, ?_, ih⟩
    · rintro rfl
      cases hopening
    · rintro rfl
      cases hclosing
  | wrapped hwrapper _ ih =>
    rw [List.mem_cons, not_or]
    refine ⟨?_, ih⟩
    rintro rfl
    cases hwrapper
  | syntaxQuoted _ _ ih =>
    rw [List.mem_cons, not_or]
    exact ⟨fun h => (by cases h), ih⟩
  | discarded _ ih =>
    rw [List.mem_cons, not_or]
    exact ⟨fun h => (by cases h), ih⟩

section
variable {σ σ' : ReadState}

/-- Every parameter gets a symbol: those that have one keep it. -/
theorem nameParams_full {todo : List (Option String)} :
    ∀ {done : List (Option String)} {rest : Option String} {base : Nat} {σ : ReadState}
      {params : List Form}, base ≤ σ.gensymId →
      Drawn argName base σ.gensymId (FnLiteral.symbol { params := done ++ todo, rest }) →
      nameParams (done.length + 1) todo σ = .ok params σ' →
      ∃ full : List String, params = full.map .name ∧ full.length = todo.length ∧
        σ' = { σ with gensymId := σ'.gensymId } ∧ σ.gensymId ≤ σ'.gensymId ∧
        Drawn argName base σ'.gensymId
          (FnLiteral.symbol { params := done ++ full.map some, rest }) ∧
        ∀ (i : Nat) (s : String), todo[i]? = some (some s) → full[i]? = some s := by
  induction todo with
  | nil =>
    intro done rest base σ params hle hdrawn h
    cases h
    exact ⟨[], rfl, rfl, rfl, le_refl _, hdrawn, fun i s hi => by cases hi⟩
  | cons param todo ih =>
    intro done rest base σ params hle hdrawn h
    cases param with
    | some s =>
      obtain ⟨later, hrun, rfl⟩ := map_ok.mp h
      have happend : done ++ some s :: todo = (done ++ [some s]) ++ todo := by
        rw [List.append_assoc]
        rfl
      have hlen : done.length + 1 = (done ++ [some s]).length := by
        rw [List.length_append]
        rfl
      rw [happend] at hdrawn
      rw [hlen] at hrun
      obtain ⟨full, rfl, hfull, hσ, hle', hdrawn', hkept⟩ := ih hle hdrawn hrun
      refine ⟨s :: full, rfl, congrArg (· + 1) hfull, hσ, hle', ?_, ?_⟩
      · rw [List.map_cons]
        rw [List.append_assoc] at hdrawn'
        exact hdrawn'
      · intro i t hi
        cases i with
        | zero =>
          cases hi
          rfl
        | succ i => exact hkept i t hi
    | none =>
      have hlast : done.length < (done ++ none :: todo).length := by
        rw [List.length_append, List.length_cons]
        omega
      have hset := symbol_set hlast rest (argName (.param done.length) (σ.gensymId + 1))
      have happend : (done ++ none :: todo).set done.length
          (some (argName (.param done.length) (σ.gensymId + 1))) =
          (done ++ [some (argName (.param done.length) (σ.gensymId + 1))]) ++ todo := by
        rw [List.set_append_right _ _ (le_refl _), Nat.sub_self, List.set_cons_zero,
          List.append_assoc]
        rfl
      have hstep := hdrawn.draw argName_number hle (.param done.length)
      rw [← hset, happend] at hstep
      obtain ⟨g, σ₁, hgensym, h⟩ := bind_ok.mp h
      cases hgensym
      obtain ⟨later, hrun, rfl⟩ := map_ok.mp h
      have hlen : done.length + 1 =
          (done ++ [some (argName (.param done.length) (σ.gensymId + 1))]).length := by
        rw [List.length_append]
        rfl
      rw [hlen] at hrun
      obtain ⟨full, rfl, hfull, hσ, hle', hdrawn', hkept⟩ :=
        ih (show base ≤ ReadState.gensymId { σ with gensymId := σ.gensymId + 1 } from
          Nat.le_succ_of_le hle) hstep hrun
      refine ⟨argName (.param done.length) (σ.gensymId + 1) :: full, ?_,
        congrArg (· + 1) hfull, hσ, Nat.le_trans (Nat.le_succ _) hle', ?_, ?_⟩
      · rfl
      · rw [List.map_cons]
        rw [List.append_assoc] at hdrawn'
        exact hdrawn'
      · intro i t hi
        cases i with
        | zero => cases hi
        | succ i => exact hkept i t hi

theorem rparen_of_closing {tok : Token} (h : tok.closing = some .paren) : tok = .rparen := by
  cases tok <;> first | rfl | cases h

/-- A symbol for every argument, where the literal has none too. -/
def FnLiteral.name (lit : FnLiteral) (a : Arg) : String := (lit.symbol a).getD (argName a 0)

theorem agrees_name (lit : FnLiteral) : Agrees lit.name lit := by
  intro a s hs
  rw [FnLiteral.name, hs]
  rfl

def restForms : Option String → List Form
  | some symbol => [.name "&", .name symbol]
  | none => []

theorem paramForms_eq {sym : Arg → String} {args : List Arg} {names : List String}
    {rest : Option String} (hlen : names.length = highest args)
    (hnames : ∀ i s, names[i]? = some s → sym (.param i) = s)
    (hrest : rest.isSome = true ↔ .rest ∈ args) (hsym : ∀ s, rest = some s → sym .rest = s) :
    names.map Form.name ++ restForms rest = paramForms sym args := by
  unfold paramForms
  congr 1
  · apply List.ext_getElem?
    intro i
    rw [List.getElem?_map, List.getElem?_map]
    by_cases hi : i < names.length
    · have hname : names[i]? = some names[i] := List.getElem?_eq_getElem hi
      have hrange : (List.range (highest args))[i]? = some i := by
        rw [List.getElem?_range (by omega)]
      rw [hname, hrange, Option.map_some, Option.map_some, hnames i _ hname]
    · have hnone : names[i]? = none := List.getElem?_eq_none (Nat.le_of_not_lt hi)
      have hrange : (List.range (highest args))[i]? = none := by
        rw [List.getElem?_eq_none]
        rw [List.length_range]
        omega
      rw [hnone, hrange]
      rfl
  · have hcontains : args.contains .rest = rest.isSome := by
      rw [Bool.eq_iff_iff, List.contains_iff_mem]
      exact hrest.symm
    rw [hcontains]
    cases rest with
    | none => rfl
    | some s =>
      rw [hsym s rfl]
      rfl

/-- A literal begins with no symbol. -/
theorem inside_start (σ : ReadState) :
    Inside σ.gensymId { σ with fnLiteral := some {} } {} := by
  refine ⟨rfl, le_refl _, ?_⟩
  have hnothing : FnLiteral.symbol {} = fun _ => none := by
    funext a
    cases a <;> rfl
  rw [hnothing]
  exact drawn_none argName σ.gensymId

/-- A literal that is read: the tokens of its body and the parenthesis after them. -/
theorem readFnLiteral_reads {H : ReaderHost} {stack : Nat} {form : Form}
    (hnone : σ.fnLiteral = none)
    (h : readFnLiteral (readFromToken H stack) σ = .ok form σ') :
    ∃ body sym, σ.tokens = body ++ .rparen :: σ'.tokens ∧ σ'.fnLiteral = none ∧
      σ.gensymId ≤ σ'.gensymId ∧ FnForm H sym body σ.gensymId σ'.gensymId form := by
  obtain ⟨τ, σ₁, hget, h⟩ := bind_ok.mp h
  cases hget
  rw [hnone, if_neg (show ¬ (none : Option FnLiteral).isSome = true by decide)] at h
  obtain ⟨σ₁, hin, rfl⟩ := guarded_ok.mp h
  obtain ⟨items, σ₂, hitems, hin⟩ := bind_ok.mp hin
  obtain ⟨used, lit, htokens, hinside, hext, hread⟩ :=
    inBody_list (inBody_fromToken H stack) _ _ _ _ (inside_start σ) _ _ hitems
  obtain ⟨body, closing, hused, hclosing, -⟩ := hread lit.name (agrees_name lit)
  obtain rfl := rparen_of_closing hclosing
  have hbody : used = body ++ [.rparen] := hused
  subst hbody
  have hargs : argsOf ([] ++ (body ++ [.rparen])) = argsOf body := by
    rw [List.nil_append, argsOf_append]
    exact List.append_nil _
  rw [hargs] at hext
  obtain ⟨τ, σ₃, hget, hin⟩ := bind_ok.mp hin
  cases hget
  rw [hinside.current] at hin
  obtain ⟨params, σ₃, hparams, hin⟩ := bind_ok.mp hin
  have hsymbols : Drawn argName σ.gensymId σ₂.gensymId
      (FnLiteral.symbol { params := [] ++ lit.params, rest := lit.rest }) := hinside.drawn
  obtain ⟨names, rfl, hlen, hσ, hle, hdrawn, hkept⟩ :=
    nameParams_full hinside.le hsymbols hparams
  cases hin
  have hhighest : lit.params.length = highest (argsOf body) :=
    hext.length.trans (Nat.zero_max _)
  have hrest : lit.rest.isSome = true ↔ .rest ∈ argsOf body := by
    rw [hext.rest]
    exact ⟨fun h => h.resolve_left fun h => (by cases h), .inr⟩
  -- the symbols at the end say what the literal said
  have hnamed : ∀ i s, names[i]? = some s →
      FnLiteral.name { params := names.map some, rest := lit.rest } (.param i) = s := by
    intro i s hs
    show (((names.map some)[i]?).getD none).getD _ = s
    rw [List.getElem?_map, hs]
    rfl
  have hagrees : Agrees (FnLiteral.name { params := names.map some, rest := lit.rest }) lit := by
    intro a s hs
    cases a with
    | rest =>
      show lit.rest.getD _ = s
      rw [show lit.rest = some s from hs]
      rfl
    | param i =>
      apply hnamed
      apply hkept
      cases hat : lit.params[i]? with
      | none =>
        rw [FnLiteral.symbol, hat] at hs
        cases hs
      | some p =>
        rw [FnLiteral.symbol, hat] at hs
        exact congrArg some hs
  refine ⟨body, FnLiteral.name { params := names.map some, rest := lit.rest }, ?_, rfl,
    Nat.le_trans hinside.le hle, ⟨items, ?_, ?_⟩, ?_⟩
  · rw [show σ.tokens = _ from htokens, hσ, List.append_assoc]
    rfl
  · obtain ⟨body', closing', hused', -, hitems⟩ := hread _ hagrees
    have hsame : body ++ [.rparen] = body' ++ [closing'] := hused'
    obtain ⟨rfl, -⟩ := List.append_inj' hsame rfl
    exact hitems
  · congr 4
    refine paramForms_eq (hlen.trans hhighest) hnamed hrest fun s hs => ?_
    show lit.rest.getD _ = s
    rw [show lit.rest = some s from hs]
    rfl
  · refine hdrawn.sub fun a s hs => ?_
    unfold paramSymbols at hs
    split at hs
    · rename_i hparam
      cases hs
      cases a with
      | rest =>
        have hsome := hrest.mpr (List.contains_iff_mem.mp hparam)
        obtain ⟨s, hs⟩ := Option.isSome_iff_exists.mp hsome
        show lit.rest = some (lit.rest.getD _)
        rw [hs]
        rfl
      | param i =>
        have hi : i < names.length := by
          rw [hlen, hhighest]
          exact of_decide_eq_true hparam
        have hname : names[i]? = some names[i] := List.getElem?_eq_getElem hi
        rw [hnamed i _ hname]
        show ((names.map some)[i]?).getD none = some names[i]
        rw [List.getElem?_map, hname]
        rfl
    · cases hs

end
end ProtoClojure.Reader
