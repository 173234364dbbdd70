import ProtoClojure.Compiler.Compile

/-! What a form means: the core expression it stands for once macros are expanded,
destructuring is rewritten and special forms are told from calls. -/
namespace ProtoClojure

inductive Lit where
  | nil
  | bool (b : Bool)
  | const (c : Const)

/-- How a catch clause tells whether it takes an exception. -/
inductive CatchTest where
  | builtin (classId : Nat)
  | bound (x name : String)             -- the value of a local
  | boundMember (x m name : String)     -- a member of the value of a local
  | resolved (key name : String)        -- looked up when the clause is reached

/-- What follows the fixed parameters of an arity. -/
inductive RestParam where
  | none
  | variadic (name : String)
  | kwBased (asName : Option String)

mutual

inductive Exp where
  | lit (l : Lit)
  | sym (x : String)                    -- the innermost binding of `x`, else the global
  | global (key : String)
  | member (o : Exp) (m : String)
  | ite (test thn els : Exp)
  | both (a b : Exp)                    -- `and`
  | either (a b : Exp)                  -- `or`
  | seq (a b : Exp)
  | bind (x : String) (init body : Exp)
  | loop (bs : Binds) (body : Exp)
  | recur (args : Exps)
  | fn (asSpelled multi : Bool) (arities : Arities)
  | call (kw : Bool) (f : Exp) (args : Exps)
  | apply (f a : Exp)
  | operator (op : Op) (core : Bool) (a b : Exp)
  | callMember (o : Exp) (m : String) (args : Exps)
  | setGlobal (key : String) (e : Exp)
  | throw (e : Exp)
  | tryPlain (body : Exp)               -- `try` without a clause
  | tryCatch (body : Exp) (clauses : Clauses)
  | tryFinally (body : Exp) (fin fin' : Exps)  -- the forms where `body` ends, and where it throws

inductive Exps where
  | nil
  | cons (e : Exp) (rest : Exps)

inductive Binds where
  | nil
  | cons (x : String) (init : Exp) (rest : Binds)

inductive Clauses where
  | nil
  | cons (test : CatchTest) (x : String) (body : Exp) (rest : Clauses)

/-- The `:keys` parameters, some with a default. -/
inductive Keys where
  | nil
  | cons (x : String) (rest : Keys)
  | consOr (x : String) (default : Exp) (rest : Keys)

inductive Arities where
  | nil
  | cons (fixed : List String) (rest : RestParam) (keys : Keys) (body : Exp) (more : Arities)

end

def Exps.length : Exps → Nat
  | .nil => 0
  | .cons _ rest => rest.length + 1

def Binds.names : Binds → List String
  | .nil => []
  | .cons x _ rest => x :: rest.names

def Keys.names : Keys → List String
  | .nil => []
  | .cons x rest | .consOr x _ rest => x :: rest.names

/-- The names in scope with one more, or with several. -/
def withName (x : String) (vis : String → Bool) : String → Bool := fun y => y == x || vis y

def withNames (xs : List String) (vis : String → Bool) : String → Bool :=
  fun y => xs.contains y || vis y

/-- The symbol a name spells in expression position. -/
def symbolExp (vis : String → Bool) (name : String) : Exp :=
  match stripCoreQualifier name with
  | some _ => .global name
  | none =>
    match stripUserQualifier name with
    | some key => .global key
    | none =>
      if vis name then .sym name
      else match qualifiedParts name with
        | some (a, b) => .member (.sym a) b
        | none => .sym name

/-- The callee of a call whose head is a name that no special form takes and that is no
member call. -/
def headExp (vis : String → Bool) (headName : String) (coreQualified : Bool) : Option Exp :=
  if coreQualified then some (.global (core headName))
  else match stripUserQualifier headName with
    | some key => some (.global key)
    | none =>
      if isKeywordName headName then some (.lit (.const (.named headName)))
      else if vis headName then some (.sym headName)
      else match qualifiedParts headName with
        | some _ => none
        | none => some (.sym headName)

/-- The opcode of an operator call that is inlined. -/
def inlined (env : Env) (vis : String → Bool) (headName : String) (coreQualified : Bool)
    (argc : Nat) : Option Op :=
  match operatorOp headName with
  | none => none
  | some op =>
    if (!coreQualified && vis headName) || !(coreQualified || env.operatorIntact headName) ||
        argc < 2 || (isCompareOp op && argc != 2) then none
    else some op

def intConst (i : Int) : Const :=
  if -(2 ^ 63) ≤ i ∧ i < 2 ^ 63 then .long i else .bigInteger i

def defExp (env : Env) (key : String) (e : Exp) : Exp :=
  if env.coreNamespaceActive then .setGlobal (core key) (.setGlobal key e) else .setGlobal key e

/-- The catch test of a class name. -/
def catchTest (vis : String → Bool) (c : CatchClause) : CatchTest :=
  match c.classId with
  | some id => .builtin id
  | none =>
    let name := (stripUserQualifier c.className).getD c.className
    if vis name then .bound name c.className
    else match qualifiedParts name with
      | some (a, b) =>
        if vis a then .boundMember a b c.className else .resolved name c.className
      | none => .resolved name c.className

/-- `m` answers `a` from some state of the compiler. -/
def Yields {α : Type} (m : CompileM α) (a : α) : Prop := ∃ s s', m s = .ok (a, s')

/-- `m` answers `a` from a state with the gensym counter at `n`, and leaves it at `n'`. -/
def Draws {α : Type} (n : Nat) (m : CompileM α) (a : α) (n' : Nat) : Prop :=
  ∃ s s', s.gensym = n ∧ s'.gensym = n' ∧ m s = .ok (a, s')

/-- `macroForHead` with the names in scope for the session. -/
def macroFor (env : Env) (vis : String → Bool) (head : Form) : Option String :=
  macroForHead env { scopes := [{ nameToSlot := fun x => if vis x then some 0 else none }] } head

def specialHeads : List String :=
  ["defmacro", "def", "if", "and", "or", "do", "quote", "fn", "defn", "let", "loop", "try",
    "throw", "apply", "recur"]

def bindAll : Binds → Exp → Exp
  | .nil, body => body
  | .cons x init rest, body => .bind x init (bindAll rest body)

/-- `(op a b c)` as `(op (op a b) c)`. -/
def foldOperator (op : Op) (core : Bool) : Exp → Exps → Exp
  | a, .nil => a
  | a, .cons b rest => foldOperator op core (.operator op core a b) rest

/-- `((fn [] e))`. -/
def thunk (e : Exp) : Exp := .call false (.fn true false (.cons [] .none .nil e .nil)) .nil

def RestSpec.param : RestSpec → RestParam
  | .none => .none
  | .variadic name => .variadic name
  | .kwBased _ asName => .kwBased asName

def RestSpec.decls : RestSpec → List KwKeyDecl
  | .kwBased keys _ => keys
  | _ => []

/-- The forms a body is compiled from, with the `let` of its destructured parameters. -/
def bodyForms (pairs body : List Form) : List Form :=
  if pairs.isEmpty then body else [.list (.name "let" :: .vector pairs :: body)]

def tryExp (body : Exp) (clauses : Clauses) (fin : Option (Exps × Exps)) : Exp :=
  match clauses, fin with
  | .nil, none => .tryPlain body
  | .nil, some (fin, fin') => .tryFinally body fin fin'
  | clauses, none => .tryCatch body clauses
  | clauses, some (fin, fin') => .tryFinally (.tryCatch body clauses) fin fin'

section
variable (env : Env)

/-- The head of a list form dispatches on `name` and names no macro. -/
structure HeadIs (vis : String → Bool) (head : Form) (name : String) (core : Bool) : Prop where
  noMacro : macroFor env vis head = none
  dispatch : dispatchName env head = .ok (name, core)

/-- A call of a name: no special form, and no `unquote` out of place. -/
structure CallHead (vis : String → Bool) (head : Form) (name : String) (core : Bool) : Prop
    extends HeadIs env vis head name core where
  isName : head.isName = true
  plain : specialHeads.contains name = false
  noUnquote : (core && (name == "unquote" || name == "unquote-splicing")) = false

mutual

/-- `Elab vis top n f e n'`: with the names `vis` in scope, at the top level or inside a
function body, the form `f` stands for `e`; the gensym counter is `n` before and `n'` after. -/
inductive Elab : (String → Bool) → Bool → Nat → Form → Exp → Nat → Prop
  | nil {vis top n} : Elab vis top n .nil (.lit .nil) n
  | bool {vis top n} (b) : Elab vis top n (.bool b) (.lit (.bool b)) n
  | int {vis top n} (i) : Elab vis top n (.int i) (.lit (.const (intConst i))) n
  | float {vis top n} (bits) : Elab vis top n (.float bits) (.lit (.const (.double bits))) n
  | str {vis top n} (s) : Elab vis top n (.str s) (.lit (.const (.string s))) n
  | pattern {vis top n} (src) :
      Elab vis top n (.pattern src) (.lit (.const (.datum (.pattern src)))) n
  | emptyList {vis top n} : Elab vis top n (.list []) (.lit (.const (.datum (.list [])))) n
  | keyword {vis top n s name} (h : aliasLibraryNamespace env s = .ok name)
      (hk : isKeywordName name = true) : Elab vis top n (.name s) (.lit (.const (.named name))) n
  | symbol {vis top n s name} (h : aliasLibraryNamespace env s = .ok name)
      (hk : isKeywordName name = false) : Elab vis top n (.name s) (symbolExp vis name) n
  -- collection literals
  | constSet {vis top n elems} (h : elems.all isConstantElem = true) :
      Elab vis top n (.set elems) (.lit (.const (.datum (.set elems)))) n
  | set {vis top n n' elems es} (h : elems.all isConstantElem = false)
      (hs : ElabList vis top n elems es n') :
      Elab vis top n (.set elems) (.call false (.global "clojure.core/hash-set") es) n'
  | vector {vis top n n' items es} (hs : ElabList vis top n items es n') :
      Elab vis top n (.vector items) (.call false (.global "vector") es) n'
  | map {vis top n n' entries es} (hs : ElabList vis top n entries es n') :
      Elab vis top n (.map entries) (.call false (.global "hash-map") es) n'
  -- macros
  | expansion {vis top head rest key g n m n' e} (hm : macroFor env vis head = some key)
      (hx : env.expandMacroCall key (.list (head :: rest)) vis n = .ok (g, m))
      (h : Elab vis top m g e n') : Elab vis top n (.list (head :: rest)) e n'
  | defmacro {vis top n n' head core name rest key fn e} (hd : HeadIs env vis head "defmacro" core)
      (hk : globalKeyForSymbol name = some key) (hf : Yields (macroFn rest) fn)
      (h : Elab vis top n fn e n') :
      Elab vis top n (.list (head :: .name name :: rest))
        (defExp env key (.call false (.global "__macro__") (.cons e .nil))) n'
  -- special forms
  | define {vis top n n' head core name key f e} (hd : HeadIs env vis head "def" core)
      (hk : globalKeyForSymbol name = some key) (h : Elab vis top n f e n') :
      Elab vis top n (.list [head, .name name, f]) (defExp env key e) n'
  | ifTrue {vis top n n' head core test thn els e} (hd : HeadIs env vis head "if" core)
      (hl : literalTest test = some true) (hn : els.length ≤ 1) (h : Elab vis top n thn e n') :
      Elab vis top n (.list (head :: test :: thn :: els)) e n'
  | ifFalse {vis top n n' head core test thn els e} (hd : HeadIs env vis head "if" core)
      (hl : literalTest test = some false) (hn : els.length ≤ 1) (h : ElabDo vis top n els e n') :
      Elab vis top n (.list (head :: test :: thn :: els)) e n'
  | ite {vis top n n₁ n₂ n' head core test thn els e₁ e₂ e₃} (hd : HeadIs env vis head "if" core)
      (hl : literalTest test = none) (hn : els.length ≤ 1) (h₁ : Elab vis top n test e₁ n₁)
      (h₂ : Elab vis top n₁ thn e₂ n₂) (h₃ : ElabDo vis top n₂ els e₃ n') :
      Elab vis top n (.list (head :: test :: thn :: els)) (.ite e₁ e₂ e₃) n'
  | and {vis top n n' head core rest e} (hd : HeadIs env vis head "and" core)
      (h : ElabShort vis top true n rest e n') : Elab vis top n (.list (head :: rest)) e n'
  | or {vis top n n' head core rest e} (hd : HeadIs env vis head "or" core)
      (h : ElabShort vis top false n rest e n') : Elab vis top n (.list (head :: rest)) e n'
  | do {vis top n n' head core rest e} (hd : HeadIs env vis head "do" core)
      (h : ElabDo vis top n rest e n') : Elab vis top n (.list (head :: rest)) e n'
  | quoteName {vis top n head core s} (hd : HeadIs env vis head "quote" core) :
      Elab vis top n (.list [head, .name s]) (.lit (.const (.named s))) n
  | quoteAtom {vis top n n' head core q e} (hd : HeadIs env vis head "quote" core)
      (hq : (q.isStr || q.isNumber || q matches .nil | .bool _) = true)
      (h : Elab vis top n q e n') : Elab vis top n (.list [head, q]) e n'
  | quoteDatum {vis top n head core q} (hd : HeadIs env vis head "quote" core)
      (hq : (q.isName || q.isStr || q.isNumber || q matches .nil | .bool _) = false) :
      Elab vis top n (.list [head, q]) (.lit (.const (.datum q))) n
  | fn {vis top n n' head core rest e} (hd : HeadIs env vis head "fn" core)
      (h : ElabFn vis head n rest e n') : Elab vis top n (.list (head :: rest)) e n'
  | defnDocs {vis top n n' head core name rest rest' e} (hd : HeadIs env vis head "defn" core)
      (hr : dropDocs rest = some rest')
      (h : Elab vis top n (.list (head :: name :: rest')) e n') :
      Elab vis top n (.list (head :: name :: rest)) e n'
  | defn {vis top n n' head core name rest e} (hd : HeadIs env vis head "defn" core)
      (hr : dropDocs rest = none) (h : ElabFn vis head n rest e n') :
      Elab vis top n (.list (head :: .name name :: rest))
        (defExp env ((globalKeyForSymbol name).getD "") e) n'
  | thunk {vis n n' head name core rest e} (hd : HeadIs env vis head name core)
      (hn : name = "let" ∨ name = "loop" ∨ name = "try")
      (h : Elab vis false n (.list (head :: rest)) e n') :
      Elab vis true n (.list (head :: rest)) (thunk e) n'
  | letPattern {vis n m n' head core bindings items fuel flat body e}
      (hd : HeadIs env vis head "let" core) (hb : Yields (bindingItems "let" bindings) items)
      (hf : Draws n (destructureBindings env fuel items) (some flat) m)
      (h : Elab vis false m (.list (head :: .vector flat :: body)) e n') :
      Elab vis false n (.list (head :: bindings :: body)) e n'
  | let {vis n m n' head core bindings items bs body e} (hd : HeadIs env vis head "let" core)
      (hb : Yields (bindingItems "let" bindings) items) (hs : simpleBindings items = true)
      (h₁ : ElabBinds vis n items bs m) (h₂ : ElabDo (withNames bs.names vis) false m body e n') :
      Elab vis false n (.list (head :: bindings :: body)) (bindAll bs e) n'
  | loopPattern {vis n m n' head core bindings items outer loopBs inner body e}
      (hd : HeadIs env vis head "loop" core) (hb : Yields (bindingItems "loop" bindings) items)
      (hs : simpleBindings items = false)
      (hr : Draws n (loopRewrite (pairUp items)) (outer, loopBs, inner) m)
      (h : Elab vis false m (.list [.name "let", .vector outer,
        .list [head, .vector loopBs, .list (.name "let" :: .vector inner :: body)]]) e n') :
      Elab vis false n (.list (head :: bindings :: body)) e n'
  | loop {vis n m n' head core bindings items bs body e} (hd : HeadIs env vis head "loop" core)
      (hb : Yields (bindingItems "loop" bindings) items) (hs : simpleBindings items = true)
      (h₁ : ElabBinds vis n items bs m) (h₂ : ElabDo (withNames bs.names vis) false m body e n') :
      Elab vis false n (.list (head :: bindings :: body)) (.loop bs e) n'
  | recur {vis n n' head core rest es} (hd : HeadIs env vis head "recur" core)
      (h : ElabList vis false n rest es n') :
      Elab vis false n (.list (head :: rest)) (.recur es) n'
  | try {vis n n₁ n₂ n' head core rest parts e clauses fin} (hd : HeadIs env vis head "try" core)
      (hp : Yields (splitTry false false rest) parts) (h₁ : ElabDo vis false n parts.body e n₁)
      (h₂ : ElabClauses vis n₁ parts.catches clauses n₂)
      (h₃ : ElabFinally vis n₂ parts.finallyForms fin n') :
      Elab vis false n (.list (head :: rest)) (tryExp e clauses fin) n'
  | throw {vis top n n' head core f e} (hd : HeadIs env vis head "throw" core)
      (h : Elab vis top n f e n') : Elab vis top n (.list [head, f]) (.throw e) n'
  | apply {vis top n m n' head core f a e₁ e₂} (hd : HeadIs env vis head "apply" core)
      (h₁ : Elab vis top n f e₁ m) (h₂ : Elab vis top m a e₂ n') :
      Elab vis top n (.list [head, f, a]) (.apply e₁ e₂) n'
  | applyMore {vis top n m n' head core f a b more e es} (hd : HeadIs env vis head "apply" core)
      (h₁ : Elab vis top n f e m) (h₂ : ElabList vis top m (a :: b :: more) es n') :
      Elab vis top n (.list (head :: f :: a :: b :: more))
        (.apply e (.call false (.global "clojure.core/list*") es)) n'
  -- calls
  | operator {vis top n m n' head name core f rest op e es} (hd : CallHead env vis head name core)
      (ho : inlined env vis name core (rest.length + 1) = some op) (h₁ : Elab vis top n f e m)
      (h₂ : ElabList vis top m rest es n') :
      Elab vis top n (.list (head :: f :: rest)) (foldOperator op core e es) n'
  | call {vis top n n' head name core rest f es} (hd : CallHead env vis head name core)
      (ho : inlined env vis name core rest.length = none) (hf : headExp vis name core = some f)
      (h : ElabList vis top n rest es n') :
      Elab vis top n (.list (head :: rest)) (.call (hasKvSuffix rest) f es) n'
  | callMember {vis top n n' head name core rest a b es} (hd : CallHead env vis head name core)
      (ho : inlined env vis name core rest.length = none) (hf : headExp vis name core = none)
      (hq : qualifiedParts name = some (a, b)) (h : ElabList vis top n rest es n') :
      Elab vis top n (.list (head :: rest)) (.callMember (.sym a) b es) n'
  | callExp {vis top n m n' head rest f es} (hd : head.isName = false)
      (h₁ : Elab vis top n head f m) (h₂ : ElabList vis top m rest es n') :
      Elab vis top n (.list (head :: rest)) (.call (hasKvSuffix rest) f es) n'

inductive ElabList : (String → Bool) → Bool → Nat → List Form → Exps → Nat → Prop
  | nil {vis top n} : ElabList vis top n [] .nil n
  | cons {vis top n m n' f rest e es} (h : Elab vis top n f e m)
      (hs : ElabList vis top m rest es n') : ElabList vis top n (f :: rest) (.cons e es) n'

/-- An implicit `do`. -/
inductive ElabDo : (String → Bool) → Bool → Nat → List Form → Exp → Nat → Prop
  | nil {vis top n} : ElabDo vis top n [] (.lit .nil) n
  | one {vis top n n' f e} (h : Elab vis top n f e n') : ElabDo vis top n [f] e n'
  | more {vis top n m n' f g rest e e'} (h : Elab vis top n f e m)
      (hs : ElabDo vis top m (g :: rest) e' n') : ElabDo vis top n (f :: g :: rest) (.seq e e') n'

/-- The operands of `and` (`true`) or `or`. -/
inductive ElabShort : (String → Bool) → Bool → Bool → Nat → List Form → Exp → Nat → Prop
  | and {vis top n} : ElabShort vis top true n [] (.lit (.bool true)) n
  | or {vis top n} : ElabShort vis top false n [] (.lit .nil) n
  | one {vis top isAnd n n' f e} (h : Elab vis top n f e n') : ElabShort vis top isAnd n [f] e n'
  | more {vis top isAnd n m n' f g rest e e'} (h : Elab vis top n f e m)
      (hs : ElabShort vis top isAnd m (g :: rest) e' n') :
      ElabShort vis top isAnd n (f :: g :: rest) (if isAnd then .both e e' else .either e e') n'

inductive ElabBinds : (String → Bool) → Nat → List Form → Binds → Nat → Prop
  | nil {vis n} : ElabBinds vis n [] .nil n
  | cons {vis n m n' x f rest e bs} (h : Elab vis false n f e m)
      (hs : ElabBinds (withName x vis) m rest bs n') :
      ElabBinds vis n (.name x :: f :: rest) (.cons x e bs) n'

inductive ElabClauses : (String → Bool) → Nat → List CatchClause → Clauses → Nat → Prop
  | nil {vis n} : ElabClauses vis n [] .nil n
  | cons {vis n m n' c rest e clauses} (h : ElabDo (withName c.binding vis) false n c.body e m)
      (hs : ElabClauses vis m rest clauses n') :
      ElabClauses vis n (c :: rest) (.cons (catchTest vis c) c.binding e clauses) n'

/-- The forms of a `finally`, elaborated for each of its two exits. -/
inductive ElabFinally : (String → Bool) → Nat → Option (List Form) → Option (Exps × Exps) → Nat → Prop
  | none {vis n} : ElabFinally vis n none none n
  | some {vis n m n' forms es es'} (h : ElabList vis false n forms es m)
      (h' : ElabList vis false m forms es' n') :
      ElabFinally vis n (some forms) (some (es, es')) n'

/-- A function form, from the element after its head (and after a `defn`'s name) on.
`asSpelled` is false for a name followed by `([params] body*)`: an arity to the language, a
parameter list to the compiler. -/
inductive ElabFn : (String → Bool) → Form → Nat → List Form → Exp → Nat → Prop
  | unnamed {vis head n n' rest e} (hr : rest.head?.any Form.isName = false)
      (h : ElabFnArities vis n rest e n') : ElabFn vis head n rest e n'
  | named {vis head n n' name p body params arities} (hh : bodyHeadName head = "fn")
      (hp : Yields (paramItems "" p) params) (h : ElabArities vis n [(params, body)] arities n') :
      ElabFn vis head n (.name name :: p :: body) (.fn (!isArityForm p) false arities) n'

inductive ElabFnArities : (String → Bool) → Nat → List Form → Exp → Nat → Prop
  | single {vis n n' p body params arities} (hm : isArityForm p = false)
      (hp : Yields (paramItems "" p) params) (h : ElabArities vis n [(params, body)] arities n') :
      ElabFnArities vis n (p :: body) (.fn true false arities) n'
  | multi {vis n n' rest clauses arities} (hm : rest.head?.any isArityForm = true)
      (hc : ArityClauses rest clauses) (h : ElabArities vis n clauses arities n') :
      ElabFnArities vis n rest (.fn true true arities) n'

inductive ElabArities : (String → Bool) → Nat → List (List Form × List Form) → Arities → Nat → Prop
  | nil {vis n} : ElabArities vis n [] .nil n
  | cons {vis n n₁ n₂ n₃ n' params body more params' pairs spec fixed keys e arities}
      (hr : Draws n (rewriteParams env none params) (params', pairs) n₁)
      (hs : Yields (parseParams params') spec) (hf : Yields (fixedNames spec.fixed) fixed)
      (hk : ElabKeys (withNames (fixed ++ spec.rest.names) vis) n₁ spec.rest.decls keys n₂)
      (hb : ElabDo (withNames (fixed ++ spec.rest.names) vis) false n₂ (bodyForms pairs body) e n₃)
      (hm : ElabArities vis n₃ more arities n') :
      ElabArities vis n ((params, body) :: more) (.cons fixed spec.rest.param keys e arities) n'

inductive ElabKeys : (String → Bool) → Nat → List KwKeyDecl → Keys → Nat → Prop
  | nil {vis n} : ElabKeys vis n [] .nil n
  | cons {vis n n' name rest keys} (hs : ElabKeys vis n rest keys n') :
      ElabKeys vis n (⟨name, none⟩ :: rest) (.cons name keys) n'
  | consOr {vis n m n' name f rest e keys} (h : Elab vis false n f e m)
      (hs : ElabKeys vis m rest keys n') :
      ElabKeys vis n (⟨name, some f⟩ :: rest) (.consOr name e keys) n'

/-- The arities of a multi-arity form, parameters and body. -/
inductive ArityClauses : List Form → List (List Form × List Form) → Prop
  | nil : ArityClauses [] []
  | cons {p body params rest clauses} (hp : Yields (paramItems "" p) params)
      (h : ArityClauses rest clauses) :
      ArityClauses (.list (p :: body) :: rest) ((params, body) :: clauses)

end

end

end ProtoClojure
