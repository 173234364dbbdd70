import ProtoClojure.Collections.KeyedMap
import ProtoClojure.Compiler.Form
import ProtoClojure.Control.StateExcept
import ProtoClojure.Reader.Gensym
import ProtoClojure.Runtime.ExceptionClass

/-! Syntax-quote: the code that the reader expands a template to, and what it evaluates to. -/
namespace ProtoClojure.Reader
open KeyedMap StateExcept

/-! ### Symbols -/

def kSpecials : List String :=
  ["def", "loop*", "recur", "if", "case*", "let*", "letfn*", "do", "fn*", "quote", "var", "import*",
    ".", "set!", "deftype*", "reify*", "try", "throw", "monitor-enter", "monitor-exit", "catch",
    "finally", "new", "&"]

def kCompilerForms : List String :=
  ["let", "loop", "fn", "defn", "defmacro", "and", "or", "apply"]

/-- The globals are those of the call context, if there is one. -/
def qualifySyntaxQuoteSymbol {G : Type} [DecidableEq G] (coreNamespaceActive : Bool)
    (globals : Option (String → Option G)) (name : String) : String :=
  if kSpecials.contains name then name
  else if name = "/" then "clojure.core//"
  else if name.toList.contains '/' then name
  else if name.toList.contains '.' then name
  else if (exceptionClassId name).isSome || name == "Object" then name
  else if kCompilerForms.contains name then "clojure.core/" ++ name
  else if coreNamespaceActive then "clojure.core/" ++ name
  else match globals with
    | none => name
    | some globals =>
      match globals ("clojure.core/" ++ name) with
      | none => "user/" ++ name
      | some builtin =>
        match globals name with
        | none => "clojure.core/" ++ name
        | some own => if own = builtin then "clojure.core/" ++ name else "user/" ++ name

section Qualifying
variable {G : Type} [DecidableEq G] (coreNamespaceActive : Bool)
  (globals : Option (String → Option G))

/-- A name in a namespace stays as it is. -/
theorem qualify_of_slash {name : String} (h : '/' ∈ name.toList) (hname : name ≠ "/") :
    qualifySyntaxQuoteSymbol coreNamespaceActive globals name = name := by
  rw [qualifySyntaxQuoteSymbol.eq_def]
  by_cases hspecial : kSpecials.contains name = true
  · rw [if_pos hspecial]
  · rw [if_neg hspecial, if_neg hname, if_pos (List.contains_iff_mem.mpr h)]

/-- `name` itself, or in a namespace. -/
def Settled (name symbol : String) : Prop :=
  symbol = name ∨ '/' ∈ symbol.toList ∧ symbol ≠ "/"

theorem settled_append {ns : String} (hmem : '/' ∈ ns.toList) (hns : 1 < ns.toList.length)
    (name : String) : Settled name (ns ++ name) := by
  refine .inr ⟨?_, fun h => ?_⟩
  · rw [String.toList_append]
    exact List.mem_append_left _ hmem
  · have hlength := congrArg (fun s => s.toList.length) h
    simp only [String.toList_append, List.length_append] at hlength
    have hone : "/".toList.length = 1 := by decide
    omega

theorem qualify_settled (name : String) :
    Settled name (qualifySyntaxQuoteSymbol coreNamespaceActive globals name) := by
  have hcore : Settled name ("clojure.core/" ++ name) :=
    settled_append (by decide) (by decide) name
  have huser : Settled name ("user/" ++ name) := settled_append (by decide) (by decide) name
  rw [qualifySyntaxQuoteSymbol.eq_def]
  split_ifs
  · exact .inl rfl
  · exact .inr ⟨by decide, by decide⟩
  · exact .inl rfl
  · exact .inl rfl
  · exact .inl rfl
  · exact hcore
  · exact hcore
  · cases globals with
    | none => exact .inl rfl
    | some globals =>
      dsimp only
      cases globals ("clojure.core/" ++ name) with
      | none => exact huser
      | some builtin =>
        dsimp only
        cases globals name with
        | none => exact hcore
        | some own =>
          dsimp only
          split_ifs
          · exact hcore
          · exact huser

/-- What is qualified is not qualified again. -/
theorem qualify_idem (name : String) :
    qualifySyntaxQuoteSymbol coreNamespaceActive globals
        (qualifySyntaxQuoteSymbol coreNamespaceActive globals name) =
      qualifySyntaxQuoteSymbol coreNamespaceActive globals name := by
  rcases qualify_settled coreNamespaceActive globals name with h | ⟨h, hname⟩
  · rw [h, h]
  · exact qualify_of_slash coreNamespaceActive globals h hname

end Qualifying

/-- The table of one syntax-quote, and how many numbers it has drawn. -/
structure Expansion where
  gensyms : List (String × String) := []
  draws : Nat := 0

abbrev Expand := StateT Expansion (Except String)

section Reading
variable (resolver : Option (String → String)) (ids : Nat → Nat)

def resolve (spelling : String) : String :=
  match resolver with
  | some r => r spelling
  | none => spelling

/-- The symbol that `spelling` is replaced by. -/
def symbolFor (spelling : String) : Expand String := fun x =>
  if isAutoGensym spelling then
    match x.gensyms.lookup spelling with
    | some symbol => .ok (symbol, x)
    | none =>
      let fresh := autoGensym spelling (ids x.draws)
      .ok (fresh, ⟨(spelling, fresh) :: x.gensyms, x.draws + 1⟩)
  else .ok (resolve resolver spelling, x)

/-- `(head form)`. -/
def wrapped? (head : String) : Form → Option Form
  | .list [.name h, form] => if h = head then some form else none
  | _ => none

def headedBy (head : String) : List Form → Bool
  | .name h :: _ => h == head
  | _ => false

def unquote : String := "clojure.core/unquote"

def unquoteSplicing : String := "clojure.core/unquote-splicing"

def quoted (form : Form) : Form := .list [.name "quote", form]

/-- `(clojure.core/seq (clojure.core/concat piece...))`. -/
def seqForm (pieces : List Form) : Form :=
  .list [.name "clojure.core/seq", .list (.name "clojure.core/concat" :: pieces)]

/-- `(clojure.core/list form)`. -/
def onePiece (form : Form) : Form := .list [.name "clojure.core/list", form]

def applied (builder : String) (seq : Form) : Form :=
  .list [.name "clojure.core/apply", .name builder, seq]

mutual
/-- The entries of a map are in source order where the reader has recorded it. -/
def syntaxQuote : Form → Expand Form
  | .name spelling =>
    if isKeywordName spelling then pure (.name spelling)
    else do return quoted (.name (← symbolFor resolver ids spelling))
  | .list items =>
    if items.isEmpty then pure (.list [.name "clojure.core/list"])
    else if headedBy unquote items then
      match wrapped? unquote (.list items) with
      | some form => pure form
      | none => throw "unquote (~) takes exactly one form"
    else if headedBy unquoteSplicing items then throw "splice (~@) not in list"
    else do return seqForm (← syntaxQuotePieces items)
  | .vector items => do
    return applied "clojure.core/vector" (seqForm (← syntaxQuotePieces items))
  | .map entries => do
    return applied "clojure.core/hash-map" (seqForm (← syntaxQuotePieces entries))
  | .set elems => do
    return applied "clojure.core/hash-set" (seqForm (← syntaxQuotePieces elems))
  | .pattern source => pure (quoted (.pattern source))
  | .other id => pure (quoted (.other id))
  | form => pure form

/-- One piece of the sequence to build for each item. -/
def syntaxQuotePieces : List Form → Expand (List Form)
  | [] => pure []
  | item :: items => do
    let piece ← (match wrapped? unquoteSplicing item with
      | some form => pure form
      | none => match wrapped? unquote item with
        | some form => pure (onePiece form)
        | none => onePiece <$> syntaxQuote item : Expand Form)
    return piece :: (← syntaxQuotePieces items)
end

/-- A backtick's: each syntax-quote has its own table. -/
def readSyntaxQuote (form : Form) : Except String (Form × Expansion) :=
  syntaxQuote resolver ids form {}

end Reading

/-! ### What code evaluates to

A value that can be written is the form that writes it; every sequence is a list. -/

inductive CoreFn where
  | list | vector | hashMap | hashSet | seq | concat

def coreFn : String → Option CoreFn
  | "clojure.core/list" => some .list
  | "clojure.core/vector" => some .vector
  | "clojure.core/hash-map" => some .hashMap
  | "clojure.core/hash-set" => some .hashSet
  | "clojure.core/seq" => some .seq
  | "clojure.core/concat" => some .concat
  | _ => none

structure Env where
  value : Form → Option Form                 -- what calls none of the functions above
  elements : Nat → Option (List Form)        -- of a value that no form writes
  keys : KeySemantics Form

/-- The elements of what can be a sequence. -/
def Env.seq (env : Env) : Form → Option (List Form)
  | .nil => some []
  | .list items | .vector items => some items
  | .map entries => some ((pairUp entries).map fun e => .vector [e.1, e.2])
  | .set elems => some elems
  | .str s => some (s.toList.map fun c => .str (String.singleton c))
  | .other id => env.elements id
  | _ => none

/-- nil for no elements. -/
def seqValue (items : List Form) : Form := if items.isEmpty then .nil else .list items

def Env.hashMap (env : Env) (kvs : List Form) : Option Form :=
  if kvs.length % 2 ≠ 0 then none
  else
    let entries := (pairUp kvs).foldl (fun es e => insert env.keys es e.1 e.2) []
    some (.map (entries.flatMap fun e => [e.1, e.2]))

def Env.hashSet (env : Env) (elems : List Form) : Form :=
  .set ((elems.foldl (fun es e => insert env.keys es e ()) []).map Prod.fst)

def Env.call (env : Env) : CoreFn → List Form → Option Form
  | .list, args => some (.list args)
  | .vector, args => some (.vector args)
  | .hashMap, args => env.hashMap args
  | .hashSet, args => some (env.hashSet args)
  | .seq, [x] => (env.seq x).map seqValue
  | .seq, _ => none
  | .concat, args => (args.mapM env.seq).map fun parts => .list parts.flatten

mutual
def eval (env : Env) : Form → Option Form
  | .name spelling =>
    if isKeywordName spelling then some (.name spelling) else env.value (.name spelling)
  | .list (.name f :: args) =>
    if f = "quote" then
      match args with
      | [form] => some form
      | _ => none
    else if f = "clojure.core/apply" then
      match args with
      | [.name g, x] =>
        match coreFn g with
        | some fn => do env.call fn (← env.seq (← eval env x))
        | none => env.value (.list (.name f :: args))
      | _ => env.value (.list (.name f :: args))
    else match coreFn f with
      | some fn => (evalArgs env args).bind (env.call fn)
      | none => env.value (.list (.name f :: args))
  | .nil => some .nil
  | .bool b => some (.bool b)
  | .int i => some (.int i)
  | .float bits => some (.float bits)
  | .str s => some (.str s)
  | form => env.value form

def evalArgs (env : Env) : List Form → Option (List Form)
  | [] => some []
  | form :: forms => do return (← eval env form) :: (← evalArgs env forms)
end

/-! ### Templates -/

section Templates
variable (env : Env) (symbol : String → Option String) (sequence : List Form → Form)

mutual
/-- A template with its expressions replaced by their values, and its symbols by `symbol`'s; what
a list of items becomes is `sequence`'s. -/
def fill : Form → Option Form
  | .name spelling =>
    if isKeywordName spelling then some (.name spelling) else (symbol spelling).map .name
  | .list items =>
    if items.isEmpty then some (.list [])
    else match wrapped? unquote (.list items) with
      | some form => eval env form
      | none => (fillItems items).map sequence
  | .vector items => (fillItems items).map .vector
  | .map entries => (fillItems entries).bind env.hashMap
  | .set elems => (fillItems elems).map env.hashSet
  | form => some form

/-- A splice stands for the elements of its value. -/
def fillItems : List Form → Option (List Form)
  | [] => some []
  | item :: items => do
    let here ← (match wrapped? unquoteSplicing item with
      | some form => (eval env form).bind env.seq
      | none => (fill item).map ([·]) : Option (List Form))
    let rest ← fillItems items
    return here ++ rest
end

end Templates

/-- What the symbols of a template become. -/
def symbolIn (resolver : Option (String → String)) (gensyms : List (String × String))
    (spelling : String) : Option String :=
  if isAutoGensym spelling then gensyms.lookup spelling else some (resolve resolver spelling)

mutual
/-- No splice outside of a collection, and no `unquote` but of one form. -/
def IsTemplate : Form → Prop
  | .list items =>
    (headedBy unquote items = true → (wrapped? unquote (.list items)).isSome) ∧
      headedBy unquoteSplicing items = false ∧
        (headedBy unquote items = false → AreItems items)
  | .vector items | .map items | .set items => AreItems items
  | _ => True

def AreItems : List Form → Prop
  | [] => True
  | item :: items => ((wrapped? unquoteSplicing item).isSome ∨ IsTemplate item) ∧ AreItems items
end

/-! ### The evaluation of generated code -/

section Evaluation
variable {env : Env}

@[simp] theorem seq_seqValue (items : List Form) : env.seq (seqValue items) = some items := by
  cases items with
  | nil => rfl
  | cons x xs => rfl

@[simp] theorem eval_quoted (form : Form) : eval env (quoted form) = some form := by
  rw [quoted, eval, if_pos rfl]

theorem eval_call {f : String} {fn : CoreFn} (hf : coreFn f = some fn) (hquote : f ≠ "quote")
    (happly : f ≠ "clojure.core/apply") (args : List Form) :
    eval env (.list (.name f :: args)) = (evalArgs env args).bind (env.call fn) := by
  rw [eval.eq_def]
  dsimp only
  rw [if_neg hquote, if_neg happly, hf]

theorem eval_onePiece (form : Form) :
    (eval env (onePiece form)).bind env.seq = (eval env form).map ([·]) := by
  rw [onePiece, eval_call rfl (by decide) (by decide), evalArgs, evalArgs]
  cases eval env form <;> rfl

/-- The elements of the values of `forms`, one after the other. -/
def spliced (env : Env) (forms : List Form) : Option (List Form) := do
  let parts ← (← evalArgs env forms).mapM env.seq
  return parts.flatten

theorem spliced_cons (form : Form) (forms : List Form) :
    spliced env (form :: forms) =
      ((eval env form).bind env.seq).bind fun here =>
        (spliced env forms).bind fun rest => some (here ++ rest) := by
  rw [spliced, spliced, evalArgs]
  cases eval env form with
  | none => rfl
  | some v =>
    cases evalArgs env forms with
    | none => cases hv : env.seq v <;> simp [hv]
    | some vs =>
      cases hv : env.seq v with
      | none => simp [hv]
      | some here => cases hvs : vs.mapM env.seq <;> simp [hv, hvs]

theorem eval_seqForm (pieces : List Form) :
    eval env (seqForm pieces) = (spliced env pieces).map seqValue := by
  rw [seqForm, eval_call rfl (by decide) (by decide), spliced, evalArgs, evalArgs,
    eval_call rfl (by decide) (by decide)]
  cases evalArgs env pieces with
  | none => rfl
  | some vs => cases hvs : vs.mapM env.seq <;> simp [Env.call, Env.seq, hvs]

theorem eval_applied {builder : String} {fn : CoreFn} (hf : coreFn builder = some fn)
    (pieces : List Form) :
    eval env (applied builder (seqForm pieces)) = (spliced env pieces).bind (env.call fn) := by
  rw [applied, eval.eq_def]
  dsimp only
  rw [if_neg (by decide), if_pos rfl, hf, eval_seqForm]
  cases spliced env pieces with
  | none => rfl
  | some xs => simp

end Evaluation

/-! ### Expansions -/

section Expansions
variable {resolver : Option (String → String)} {ids : Nat → Nat}

/-- A later state of one expansion: what the table has stays, and each symbol of it comes from a
number of the expansion's own. -/
structure Grows (ids : Nat → Nat) (x x' : Expansion) : Prop where
  kept {spelling symbol : String} : x.gensyms.lookup spelling = some symbol →
    x'.gensyms.lookup spelling = some symbol
  drawn : (∀ {spelling symbol}, x.gensyms.lookup spelling = some symbol →
      ∃ k < x.draws, symbol = autoGensym spelling (ids k)) →
    ∀ {spelling symbol}, x'.gensyms.lookup spelling = some symbol →
      ∃ k < x'.draws, symbol = autoGensym spelling (ids k)

theorem Grows.refl (x : Expansion) : Grows ids x x := ⟨id, id⟩

theorem Grows.trans {x y z : Expansion} (h : Grows ids x y) (h' : Grows ids y z) :
    Grows ids x z := ⟨h'.kept ∘ h.kept, fun hx => h'.drawn (h.drawn hx)⟩

theorem symbolIn_kept {x x' : Expansion} (h : Grows ids x x') {spelling symbol : String}
    (hs : symbolIn resolver x.gensyms spelling = some symbol) :
    symbolIn resolver x'.gensyms spelling = some symbol := by
  unfold symbolIn at hs ⊢
  split_ifs at hs ⊢
  · exact h.kept hs
  · exact hs

/-- One symbol for a spelling from its first occurrence on. -/
theorem symbolFor_spec (spelling : String) (x : Expansion) : ∃ symbol x',
    symbolFor resolver ids spelling x = .ok (symbol, x') ∧ Grows ids x x' ∧
      symbolIn resolver x'.gensyms spelling = some symbol := by
  rw [symbolFor]
  by_cases hg : isAutoGensym spelling = true
  · rw [if_pos hg]
    cases hl : x.gensyms.lookup spelling with
    | some symbol => exact ⟨symbol, x, rfl, .refl x, by rw [symbolIn, if_pos hg, hl]⟩
    | none =>
      refine ⟨_, _, rfl, ⟨fun {s symbol} hs => ?_, fun hx s symbol hs => ?_⟩, ?_⟩
      · rw [List.lookup_cons]
        have hne : s ≠ spelling := by
          rintro rfl
          rw [hl] at hs
          cases hs
        rwa [beq_false_of_ne hne]
      · rw [List.lookup_cons] at hs
        cases hb : s == spelling with
        | true =>
          rw [hb] at hs
          obtain rfl := eq_of_beq hb
          exact ⟨x.draws, Nat.lt_succ_self _, (Option.some.inj hs).symm⟩
        | false =>
          rw [hb] at hs
          obtain ⟨k, hk, hsymbol⟩ := hx hs
          exact ⟨k, Nat.lt_succ_of_lt hk, hsymbol⟩
      · rw [symbolIn, if_pos hg]
        simp
  · rw [if_neg hg]
    exact ⟨_, x, rfl, .refl x, by rw [symbolIn, if_neg hg]⟩

/-! ### What an expansion builds -/

theorem wrapped?_of_not_headed {head : String} {items : List Form}
    (h : headedBy head items = false) : wrapped? head (.list items) = none := by
  cases hw : wrapped? head (.list items) with
  | none => rfl
  | some form =>
    rw [wrapped?.eq_def] at hw
    split at hw
    · split_ifs at hw with hname
      simp_all [headedBy]
    · cases hw

theorem headedBy_of_wrapped? {head : String} {items : List Form} {form : Form}
    (h : wrapped? head (.list items) = some form) : items.isEmpty = false := by
  cases items with
  | nil => cases h
  | cons => rfl

theorem fill_unquoted {env : Env} {symbol : String → Option String}
    {sequence : List Form → Form} {item form : Form} (h : wrapped? unquote item = some form) :
    fill env symbol sequence item = eval env form := by
  cases item with
  | list items =>
    rw [fill.eq_def]
    dsimp only
    rw [if_neg (by simp [headedBy_of_wrapped? h]), h]
  | _ => cases h

/-- The code of a template evaluates to the template filled in. -/
def Builds (resolver : Option (String → String)) (x : Expansion) (form code : Form) : Prop :=
  ∀ env : Env, eval env code = fill env (symbolIn resolver x.gensyms) seqValue form

/-- The pieces of some items are what the items stand for, one after the other. -/
def BuildsItems (resolver : Option (String → String)) (x : Expansion) (items pieces : List Form) :
    Prop :=
  ∀ env : Env, spliced env pieces = fillItems env (symbolIn resolver x.gensyms) seqValue items

/-- The code of a template that applies a builder to the sequence of its items. -/
theorem builds_applied {builder : String} {fn : CoreFn} {items : List Form} {x x' : Expansion}
    {code : Form} (hf : coreFn builder = some fn)
    (hitems : ∀ {pieces x₁}, syntaxQuotePieces resolver ids items x = .ok (pieces, x₁) →
      Grows ids x x₁ ∧ ∀ y, Grows ids x₁ y → BuildsItems resolver y items pieces)
    (h : (syntaxQuotePieces resolver ids items >>= fun pieces =>
      pure (applied builder (seqForm pieces))) x = .ok (code, x')) :
    Grows ids x x' ∧ ∀ y, Grows ids x' y → ∀ env : Env, eval env code =
      (fillItems env (symbolIn resolver y.gensyms) seqValue items).bind (env.call fn) := by
  obtain ⟨pieces, x₁, hpieces, hcode⟩ := bind_ok.mp h
  obtain ⟨rfl, rfl⟩ := pure_ok.mp hcode
  obtain ⟨hgrows, hbuilds⟩ := hitems hpieces
  refine ⟨hgrows, fun y hy env => ?_⟩
  rw [eval_applied hf, hbuilds y hy env]

mutual
theorem syntaxQuote_spec : ∀ (form : Form) {x x' : Expansion} {code : Form},
    syntaxQuote resolver ids form x = .ok (code, x') →
      Grows ids x x' ∧ ∀ y, Grows ids x' y → Builds resolver y form code
  | .name spelling, x, x', code, h => by
    rw [syntaxQuote] at h
    rcases ite_ok.mp h with ⟨hk, h⟩ | ⟨hk, h⟩
    · obtain ⟨rfl, rfl⟩ := pure_ok.mp h
      exact ⟨.refl _, fun y _ env => by rw [eval, fill, if_pos hk, if_pos hk]⟩
    · obtain ⟨symbol, x₁, hsymbol, hcode⟩ := bind_ok.mp h
      obtain ⟨rfl, rfl⟩ := pure_ok.mp hcode
      obtain ⟨symbol', x', hsymbol', hgrows, hin⟩ := symbolFor_spec spelling x
      obtain ⟨rfl, rfl⟩ := Prod.mk.inj (Except.ok.inj (hsymbol'.symm.trans hsymbol))
      refine ⟨hgrows, fun y hy env => ?_⟩
      rw [eval_quoted, fill, if_neg hk, symbolIn_kept hy hin]
      rfl
  | .list items, x, x', code, h => by
    rw [syntaxQuote] at h
    rcases ite_ok.mp h with ⟨hempty, h⟩ | ⟨hempty, h⟩
    · obtain ⟨rfl, rfl⟩ := pure_ok.mp h
      refine ⟨.refl _, fun y _ env => ?_⟩
      rw [eval_call rfl (by decide) (by decide), fill.eq_def]
      dsimp only
      rw [if_pos hempty]
      rfl
    rcases ite_ok.mp h with ⟨hunquote, h⟩ | ⟨hunquote, h⟩
    · cases hw : wrapped? unquote (.list items) with
      | none =>
        rw [hw] at h
        exact (throw_ok.mp h).elim
      | some form =>
        rw [hw] at h
        obtain ⟨rfl, rfl⟩ := pure_ok.mp h
        exact ⟨.refl _, fun y _ env => (fill_unquoted hw).symm⟩
    rcases ite_ok.mp h with ⟨-, h⟩ | ⟨-, h⟩
    · exact (throw_ok.mp h).elim
    obtain ⟨pieces, x₁, hpieces, hcode⟩ := bind_ok.mp h
    obtain ⟨rfl, rfl⟩ := pure_ok.mp hcode
    obtain ⟨hgrows, hbuilds⟩ := syntaxQuotePieces_spec items hpieces
    refine ⟨hgrows, fun y hy env => ?_⟩
    rw [eval_seqForm, hbuilds y hy env, fill.eq_def]
    dsimp only
    rw [if_neg hempty, wrapped?_of_not_headed (Bool.eq_false_of_not_eq_true hunquote)]
  | .vector items, x, x', code, h => by
    rw [syntaxQuote] at h
    obtain ⟨hgrows, hbuilds⟩ := builds_applied rfl (syntaxQuotePieces_spec items) h
    refine ⟨hgrows, fun y hy env => ?_⟩
    rw [hbuilds y hy env, fill, Option.map_eq_bind]
    rfl
  | .map entries, x, x', code, h => by
    rw [syntaxQuote] at h
    obtain ⟨hgrows, hbuilds⟩ := builds_applied rfl (syntaxQuotePieces_spec entries) h
    refine ⟨hgrows, fun y hy env => ?_⟩
    rw [hbuilds y hy env, fill]
    rfl
  | .set elems, x, x', code, h => by
    rw [syntaxQuote] at h
    obtain ⟨hgrows, hbuilds⟩ := builds_applied rfl (syntaxQuotePieces_spec elems) h
    refine ⟨hgrows, fun y hy env => ?_⟩
    rw [hbuilds y hy env, fill, Option.map_eq_bind]
    rfl
  | .pattern _, x, x', code, h | .other _, x, x', code, h => by
    rw [syntaxQuote] at h
    obtain ⟨rfl, rfl⟩ := pure_ok.mp h
    exact ⟨.refl _, fun y _ env => eval_quoted _⟩
  | .nil, x, x', code, h | .bool _, x, x', code, h | .int _, x, x', code, h
  | .float _, x, x', code, h | .str _, x, x', code, h => by
    cases h
    exact ⟨.refl _, fun y _ env => rfl⟩

theorem syntaxQuotePieces_spec : ∀ (items : List Form) {x x' : Expansion} {pieces : List Form},
    syntaxQuotePieces resolver ids items x = .ok (pieces, x') →
      Grows ids x x' ∧ ∀ y, Grows ids x' y → BuildsItems resolver y items pieces
  | [], x, x', pieces, h => by
    rw [syntaxQuotePieces] at h
    obtain ⟨rfl, rfl⟩ := pure_ok.mp h
    exact ⟨.refl _, fun y _ env => rfl⟩
  | item :: items, x, x', pieces, h => by
    rw [syntaxQuotePieces] at h
    obtain ⟨piece, x₁, hpiece, hrest⟩ := bind_ok.mp h
    obtain ⟨rest, x₂, hrest, hpieces⟩ := bind_ok.mp hrest
    obtain ⟨rfl, rfl⟩ := pure_ok.mp hpieces
    obtain ⟨hgrows, hbuilds⟩ := syntaxQuotePieces_spec items hrest
    cases hs : wrapped? unquoteSplicing item with
    | some form =>
      rw [hs] at hpiece
      obtain ⟨rfl, rfl⟩ := pure_ok.mp hpiece
      refine ⟨hgrows, fun y hy env => ?_⟩
      rw [spliced_cons, hbuilds y hy env, fillItems, hs]
      rfl
    | none =>
      rw [hs] at hpiece
      cases hu : wrapped? unquote item with
      | some form =>
        rw [hu] at hpiece
        obtain ⟨rfl, rfl⟩ := pure_ok.mp hpiece
        refine ⟨hgrows, fun y hy env => ?_⟩
        rw [spliced_cons, hbuilds y hy env, fillItems, hs, eval_onePiece, fill_unquoted hu]
        rfl
      | none =>
        rw [hu] at hpiece
        obtain ⟨code, hcode, rfl⟩ := map_ok.mp hpiece
        obtain ⟨hgrows', hbuilds'⟩ := syntaxQuote_spec item hcode
        refine ⟨hgrows'.trans hgrows, fun y hy env => ?_⟩
        rw [spliced_cons, hbuilds y hy env, fillItems, hs, eval_onePiece,
          hbuilds' y (hgrows.trans hy) env]
        rfl
end

mutual
theorem syntaxQuote_total : ∀ (form : Form), IsTemplate form → ∀ x,
    ∃ r, syntaxQuote resolver ids form x = .ok r
  | .name spelling, _, x => by
    rw [syntaxQuote]
    split_ifs
    · exact ⟨_, rfl⟩
    · obtain ⟨symbol, x', hsymbol, -⟩ := symbolFor_spec spelling x
      exact ⟨_, run_bind hsymbol⟩
  | .list items, h, x => by
    rw [IsTemplate] at h
    obtain ⟨hunquote, hsplicing, hitems⟩ := h
    rw [syntaxQuote]
    split_ifs with hempty hu
    · exact ⟨_, rfl⟩
    · obtain ⟨form, hform⟩ := Option.isSome_iff_exists.mp (hunquote hu)
      rw [hform]
      exact ⟨_, rfl⟩
    · simp_all
    · obtain ⟨r, hr⟩ := syntaxQuotePieces_total items (hitems (Bool.eq_false_of_not_eq_true hu)) x
      exact ⟨_, run_bind hr⟩
  | .vector items, h, x | .map items, h, x | .set items, h, x => by
    rw [IsTemplate] at h
    rw [syntaxQuote]
    obtain ⟨r, hr⟩ := syntaxQuotePieces_total items h x
    exact ⟨_, run_bind hr⟩
  | .pattern _, _, _ | .other _, _, _ | .nil, _, _ | .bool _, _, _ | .int _, _, _ | .float _, _, _
  | .str _, _, _ => ⟨_, rfl⟩

theorem syntaxQuotePieces_total : ∀ (items : List Form), AreItems items → ∀ x,
    ∃ r, syntaxQuotePieces resolver ids items x = .ok r
  | [], _, _ => ⟨_, rfl⟩
  | item :: items, h, x => by
    rw [AreItems] at h
    obtain ⟨hitem, hitems⟩ := h
    rw [syntaxQuotePieces]
    have hrest (piece : Form) (x : Expansion) : ∃ r, (do
        return piece :: (← syntaxQuotePieces resolver ids items) : Expand (List Form)) x = .ok r := by
      obtain ⟨r, hr⟩ := syntaxQuotePieces_total items hitems x
      exact ⟨_, run_bind hr⟩
    cases hs : wrapped? unquoteSplicing item with
    | some form => exact hrest form x
    | none =>
      cases hu : wrapped? unquote item with
      | some form => exact hrest (onePiece form) x
      | none =>
        obtain ⟨⟨code, x'⟩, hcode⟩ := syntaxQuote_total item (hitem.resolve_left (by simp [hs])) x
        obtain ⟨r, hr⟩ := hrest (onePiece code) x'
        exact ⟨r, (run_bind (map_ok.mpr ⟨code, hcode, rfl⟩)).trans hr⟩
end

/-- The symbols of an expansion are generated from its own numbers. -/
theorem readSyntaxQuote_drawn {form code : Form} {x : Expansion}
    (h : readSyntaxQuote resolver ids form = .ok (code, x)) {spelling symbol : String}
    (hs : x.gensyms.lookup spelling = some symbol) :
    ∃ k < x.draws, symbol = autoGensym spelling (ids k) :=
  (syntaxQuote_spec form h).1.drawn nofun hs

end Expansions

/-- The numbers that an expansion has used are those its caller has drawn. -/
def Uses {C : Type} [DecidableEq C] (callers : List C) (c : C) (ids : Nat → Nat) (x : Expansion) :
    Prop :=
  ∀ k < x.draws, ids k ∈ (Counter.run callers).drawn c

/-- A template is read, whatever numbers it draws, to code that builds it, with one symbol for each
`foo#`; and no other syntax-quote makes the same symbol. -/
theorem syntaxQuote_builds (resolver : Option (String → String)) (form : Form)
    (hform : IsTemplate form) :
    (∀ ids, ∃ code x, readSyntaxQuote resolver ids form = .ok (code, x) ∧
      Builds resolver x form code) ∧
    ∀ {C : Type} [DecidableEq C] (callers : List C) (c d : C) (ids ids' : Nat → Nat)
      (resolver' : Option (String → String)) (form' code code' : Form) (x x' : Expansion),
      c ≠ d →
      readSyntaxQuote resolver ids form = .ok (code, x) → Uses callers c ids x →
      readSyntaxQuote resolver' ids' form' = .ok (code', x') → Uses callers d ids' x' →
      ∀ spelling spelling' symbol symbol', x.gensyms.lookup spelling = some symbol →
        x'.gensyms.lookup spelling' = some symbol' → symbol ≠ symbol' := by
  constructor
  · intro ids
    obtain ⟨⟨code, x⟩, h⟩ : ∃ r, readSyntaxQuote resolver ids form = .ok r :=
      syntaxQuote_total form hform {}
    exact ⟨code, x, h, (syntaxQuote_spec form h).2 x (.refl x)⟩
  · intro C _ callers c d ids ids' resolver' form' code code' x x' hne h huses h' huses'
      spelling spelling' symbol symbol' hs hs' heq
    obtain ⟨k, hk, rfl⟩ := readSyntaxQuote_drawn h hs
    obtain ⟨k', hk', rfl⟩ := readSyntaxQuote_drawn h' hs'
    have hnumber := autoGensym_number heq
    exact hne ((Counter.run_apart callers).apart (huses k hk) (hnumber ▸ huses' k' hk'))

/-- `` `(f ~@xs v#) `` and `` `v# ``, on two threads. -/
theorem syntaxQuote_builds_two :
    let resolver := some (qualifySyntaxQuoteSymbol (G := Nat) true none)
    let form : Form := .list [.name "f", .list [.name unquoteSplicing, .name "xs"], .name "v#"]
    (∃ code x, readSyntaxQuote resolver (fun _ => 1) form = .ok (code, x) ∧
      Builds resolver x form code) ∧ autoGensym "v#" 1 ≠ autoGensym "v#" 2 := by
  intro resolver form
  have hform : IsTemplate form := by
    simp [form, IsTemplate, AreItems, headedBy, wrapped?, unquote, unquoteSplicing]
  obtain ⟨hbuilds, hfresh⟩ := syntaxQuote_builds resolver form hform
  refine ⟨hbuilds fun _ => 1, ?_⟩
  refine hfresh [true, false] true false (fun _ => 1) (fun _ => 2) none (.name "v#") _ _
    ⟨[("v#", autoGensym "v#" 1)], 1⟩ ⟨[("v#", autoGensym "v#" 2)], 1⟩ (by decide) rfl ?_ rfl ?_
    "v#" "v#" _ _ rfl rfl
  · exact fun _ _ => (by decide : 1 ∈ (Counter.run [true, false]).drawn true)
  · exact fun _ _ => (by decide : 2 ∈ (Counter.run [true, false]).drawn false)

/-- A splice of no elements, alone in a list, leaves nil and not the empty list. -/
theorem emptied_list_nil : ¬ ∀ (env : Env) (form code : Form) (x : Expansion), IsTemplate form →
    readSyntaxQuote none id form = .ok (code, x) →
    eval env code = fill env (symbolIn none x.gensyms) .list form := by
  intro hall
  let env : Env :=
    ⟨fun _ => some (.list []), fun _ => none, ⟨fun _ => false, fun _ => 0, fun _ _ => false⟩⟩
  let form : Form := .list [.list [.name unquoteSplicing, .name "xs"]]
  have hform : IsTemplate form := by
    simp [form, IsTemplate, AreItems, headedBy, wrapped?, unquote, unquoteSplicing]
  have hnil : some Form.nil = some (Form.list []) := hall env form _ _ hform rfl
  cases hnil

end ProtoClojure.Reader
