import ProtoClojure.Compiler.Params
import ProtoClojure.Runtime.ExceptionClass

/-! `Compiler::compileForm` and the forms it dispatches to. Each function takes the compiler
of the nested forms as an argument; `compileForm` ties the knot, one level of native stack
at a time. -/
namespace ProtoClojure
open CompileM

/-! ### Locals clearing -/

/-- The instructions `clearLastReads` looks at: all but the data words. -/
def scan : Nat → List Instr → List (Nat × Instr)
  | _, [] => []
  | i, w :: rest =>
    match w.op, rest with
    | .callMember, _ :: rest => (i, w) :: scan (i + 2) rest
    | _, rest => (i, w) :: scan (i + 1) rest

section Clearing
variable (m : BytecodeModule)

def scanned : List (Nat × Instr) := scan 0 m.code

def positionsOf (op : Op) (slot : Nat) : List Nat :=
  (scanned m).filterMap fun (i, w) => if w.op = op ∧ w.operand = slot then some i else none

/-- The `JUMP_BACK` ranges, first instruction and jump. -/
def loopRanges : List (Nat × Nat) :=
  (scanned m).filterMap fun (i, w) =>
    if w.op = .jumpBack ∧ w.operand ≤ i + 1 then some (i + 1 - w.operand, i) else none

def bannedSlot (slot : Nat) : Bool :=
  !(positionsOf m .storeCaught slot).isEmpty || !(positionsOf m .rethrow slot).isEmpty ||
    m.captureSpecs.any fun c => c.localSlot == slot

/-- Every loop around the read also stores the slot. -/
def reboundInLoops (slot readAt : Nat) : Bool :=
  (loopRanges m).all fun (start, stop) =>
    readAt < start || stop < readAt ||
      (positionsOf m .storeLocal slot).any fun st => start ≤ st && st ≤ stop

/-- The one read of the slot, when it may empty it. -/
def clearableRead (fixedArity paramEnd slot : Nat) : Option Nat :=
  match positionsOf m .pushLocal slot with
  | [readAt] =>
    if bannedSlot m slot then none
    else if fixedArity ≤ slot ∧ slot < paramEnd then none
    else if paramEnd ≤ slot ∧ (positionsOf m .storeLocal slot).isEmpty then none
    else if reboundInLoops m slot readAt then some readAt
    else none
  | _ => none

def readSlots : List Nat :=
  (scanned m).filterMap fun (_, w) => if w.op = .pushLocal then some w.operand else none

def clearLastReads (fixedArity paramEnd : Nat) : BytecodeModule :=
  ((readSlots m).filterMap (clearableRead m fixedArity paramEnd)).foldl
    (fun m readAt => m.patchOp readAt .pushLocalClear) m

end Clearing

/-! ### Line marks -/

section Marks
variable (env : Env)

def debugOn : CompileM Bool := return env.recordPositions && (← get).noDebug == 0

def marking : CompileM Bool := return (← debugOn env) && (← get).out.debugInfo

/-- The line recorded for a list form. A form has no identity here: the look-ups are
counted, and the environment answers each. -/
def formLineOf : CompileM Nat := do
  if ← debugOn env then
    let s ← get
    set { s with lookups := s.lookups + 1 }
    return env.formLine s.lookups
  else return 0

def setPendingFn (line : Nat) : CompileM Unit := modify fun s => { s with pendingFnLine := line }

/-- A function's line goes to its body's entry instead; a thunk marks its own. -/
def markForm (headName : String) : CompileM Unit := do
  let line ← formLineOf env
  if line = 0 then return ()
  else do
    modify fun s => { s with lastMarkLine := line }
    if headName = "fn" ∨ headName = "defn" then setPendingFn line
    else if (← atTopLevel) && (headName = "let" || headName = "loop" || headName = "try") then
      return ()
    else emit_ .line line

def markList (headName : String) : CompileM Unit := do
  if ← marking env then markForm env headName else return ()

/-- The next iteration enters its first line again. -/
def markRecur : CompileM Unit := do
  if ← marking env then emit_ .line 0 else return ()

def beginDebugBody : CompileM Unit := do
  let s ← get
  let fnLine := if s.pendingFnLine = 0 then s.lastMarkLine else s.pendingFnLine
  set { s with pendingFnLine := 0, pendingThunk := false }
  if ← debugOn env then
    modify fun s => { s with out := { s.out with debugInfo := true } }
    if 0 < fnLine ∧ s.pendingThunk = false then emit_ .line fnLine else return ()
  else return ()

end Marks

section
variable (env : Env) (compile : Form → CompileM Unit)

/-! ### Sequences -/

/-- The forms in order, every value but the last dropped. -/
def compileBody : List Form → CompileM Unit
  | [] => return ()
  | [f] => compile f
  | f :: rest => do
    compile f
    emit_ .pop 0
    compileBody rest

/-- An implicit `do`: nil when there are no forms. -/
def compileDo (forms : List Form) : CompileM Unit :=
  if forms.isEmpty then emit_ .pushNil 0 else compileBody compile forms

def compileArgs : List Form → CompileM Unit
  | [] => return ()
  | f :: rest => do
    compile f
    compileArgs rest

def emitStoreGlobal (key : String) : CompileM Unit := do
  let i ← addSymbol key
  emit_ .storeGlobal i
  if env.coreNamespaceActive then
    let i ← addSymbol (core key)
    emit_ .storeGlobal i

/-! ### `if`, `and` and `or` -/

def compileIf (test thn : Form) (els : Option Form) : CompileM Unit := do
  compile test
  let jifAt ← emit .jumpIfFalse 0
  compile thn
  let jmpAt ← emit .jump 0
  patchTo jifAt (← pos)
  match els with
  | some els => compile els
  | none => emit_ .pushNil 0
  patchTo jmpAt (← pos)

/-- The operands of `and` / `or`; answers the jumps still to patch. -/
def compileOperands (op : Op) : List Form → CompileM (List Nat)
  | [] => return []
  | [f] => do
    compile f
    return []
  | f :: rest => do
    compile f
    emit_ .dup 0
    let shortAt ← emit op 0
    emit_ .pop 0
    let shortAts ← compileOperands op rest
    return shortAt :: shortAts

def patchAll (target : Nat) : List Nat → CompileM Unit
  | [] => return ()
  | i :: rest => do
    patchTo i target
    patchAll target rest

def compileShortCircuit (op : Op) (forms : List Form) : CompileM Unit := do
  let shortAts ← compileOperands compile op forms
  patchAll (← pos) shortAts

/-! ### Functions -/

/-- One `:or` default: `PUSH_LOCAL, PUSH_NIL, EQ, JUMP_IF_FALSE` over its evaluation. -/
def compileDefault (slot : Nat) (form : Form) : CompileM Unit := do
  emit_ .pushLocal slot
  emit_ .pushNil 0
  emit_ .eq 0
  let jifAt ← emit .jumpIfFalse 0
  compile form
  emit_ .storeLocal slot
  patchTo jifAt (← pos)

def compileDefaults : Nat → List KwKeyDecl → CompileM Unit
  | _, [] => return ()
  | slot, d :: rest => do
    match d.defaultForm with
    | some form => compileDefault compile slot form
    | none => pure ()
    compileDefaults (slot + 1) rest

/-- The module of a body before anything is emitted into it. -/
def ParamSpec.module (spec : ParamSpec) : BytecodeModule :=
  let arity := spec.fixed.length
  match spec.rest with
  | .kwBased keys asName =>
    { arity, isKwBased := true
      kwKeys := keys.mapIdx fun i d => ⟨d.name, arity + i⟩
      asSlot := asName.map fun _ => arity + keys.length }
  | .variadic _ => { arity, isVariadic := true }
  | .none => { arity }

/-- The scope of a body: its parameters in slots from 0 on. -/
def ParamSpec.scope (spec : ParamSpec) (fixed : List String) : Scope where
  nameToSlot := bindNames (fixed ++ spec.rest.names) 0 fun _ => none
  nextSlot := (fixed ++ spec.rest.names).length
  arity := fixed.length

def beginBody (spec : ParamSpec) (fixed : List String) : CompileM Unit :=
  modify fun s => { s with scopes := spec.scope fixed :: s.scopes, out := spec.module }

/-- The implicit recur target at the top of a body. -/
def pushRecurTarget (slots : List Nat) : CompileM Unit := do
  let s ← get
  onTopScope fun scope => { scope with
    recurStack := { bodyStart := s.out.pos, slots, tryDepth := scope.tryDepth } :: scope.recurStack }

def popRecurTarget : CompileM Unit :=
  onTopScope fun scope => { scope with recurStack := scope.recurStack.tail }

/-- Ends the body: its module, with the enclosing one back as the output. -/
def endBody (paramEnd : Nat) (outer : BytecodeModule) : CompileM BytecodeModule := do
  let s ← get
  match s.scopes with
  | [] => throw (.outOfRange "no scope")
  | scope :: scopes =>
    let body := { s.out with
      localCount := scope.nextSlot - scope.arity
      captureSpecs := scope.captures }
    set { s with scopes, out := outer }
    return if !body.debugInfo || env.library then clearLastReads body body.arity paramEnd else body

def compileArity (params body : List Form) : CompileM BytecodeModule := do
  let (params, pairs) ← rewriteParams env none params
  let body := if pairs.isEmpty then body else [.list (.name "let" :: .vector pairs :: body)]
  let spec ← parseParams params
  let fixed ← fixedNames spec.fixed
  let outer := (← get).out
  beginBody spec fixed
  beginDebugBody env
  match spec.rest with
  | .kwBased keys _ => compileDefaults compile fixed.length keys
  | _ => pure ()
  pushRecurTarget (List.range fixed.length)
  compileDo compile body
  emit_ .ret 0
  popRecurTarget
  endBody env (fixed ++ spec.rest.names).length outer

/-- A parameter list may be spelled as a vector or, leniently, as a list. -/
def paramItems (message : String) : Form → CompileM (List Form)
  | .vector items | .list items => return items
  | _ => fail message

/-- The special form a head spells, without a namespace alias replaced. -/
def bodyHeadName (head : Form) : String :=
  match (stripCoreQualifier head.nameOf).getD head.nameOf with
  | "fn*" => "fn"
  | name => name

/-- `compileFnBody`: the single arity of a `fn` or `defn` form, from the element after
the head (and after a `defn`'s name). A name before the parameters is dropped. -/
def compileFnBody (head : Form) (rest : List Form) : CompileM BytecodeModule :=
  if bodyHeadName head ≠ "fn" ∧ bodyHeadName head ≠ "defn" then
    fail "compileFnBody: head must be `fn` or `defn`"
  else match rest with
  | [] => fail "fn/defn: missing parameter vector"
  | p :: body =>
    if bodyHeadName head = "fn" && p.isName then
      match body with
      | [] => fail "fn: missing parameter vector after name"
      | p :: body => do
        let params ← paramItems "fn/defn: parameter list must be a vector" p
        compileArity env compile params body
    else do
      let params ← paramItems "fn/defn: parameter list must be a vector" p
      compileArity env compile params body

def emitCaptures (captures : List CaptureSpec) : CompileM Unit :=
  match captures with
  | [] => return ()
  | c :: rest => do
    emit_ .pushLocal c.parentSlot
    emitCaptures rest

/-- The function's line is set again for each arity: compiling one consumes it. -/
def markFn (line : Nat) : CompileM Unit := do
  if ← debugOn env then setPendingFn line else return ()

/-- The arities of a multi-arity form, each compiled and added as a block. -/
def compileArities (line : Nat) : List Form → CompileM (List Nat)
  | [] => return []
  | f :: rest =>
    match f with
    | .list (params :: body) => do
      let params ← paramItems "multi-arity: params must be a vector" params
      markFn env line
      let block ← compileArity env compile params body
      let i ← onOut (·.addBlock block)
      let is ← compileArities line rest
      return i :: is
    | .list [] => fail "multi-arity: arity missing params"
    | _ => fail "multi-arity: each arity must be a list"

def emitBlockCaptures : List Nat → CompileM Unit
  | [] => return ()
  | b :: rest => do
    let out := (← get).out
    emitCaptures ((out.blocks[b]?.map (·.captureSpecs)).getD [])
    emitBlockCaptures rest

/-- Whether the element after the head and the name is an arity, `([params] body*)`. -/
def isArityForm : Form → Bool
  | .list (.vector _ :: _) => true
  | _ => false

/-- The function a `fn` or `defn` form makes, from the element after the head (and after a
`defn`'s name) on. -/
def compileFnValue (head : Form) (rest : List Form) : CompileM Unit := do
  let line := (← get).pendingFnLine
  if rest.head?.any isArityForm then do
    let blocks ← compileArities env compile line rest
    emitBlockCaptures blocks
    let g ← onOut (·.addArityGroup blocks)
    emit_ .makeFnMulti g
  else do
    markFn env line
    let body ← compileFnBody env compile head rest
    let b ← onOut (·.addBlock body)
    emitCaptures body.captureSpecs
    emit_ .makeFn b

/-- The elements of a `defn` after its name without a docstring and an attribute map, or
`none` when there is neither. -/
def dropDocs (rest : List Form) : Option (List Form) :=
  if rest.length < 2 then none
  else
    let afterDoc := if rest.head?.any Form.isStr then rest.drop 1 else rest
    let afterAttrs :=
      if 1 < afterDoc.length ∧ afterDoc.head?.any Form.isMap then afterDoc.drop 1 else afterDoc
    if afterAttrs.length < rest.length then some afterAttrs else none

def compileFnForm (head : Form) (isFn : Bool) (rest : List Form) : CompileM Unit :=
  if isFn then
    if rest.isEmpty then fail "fn/defn: missing parameter vector"
    else compileFnValue env compile head rest
  else
    match rest with
    | [] => fail "fn/defn: missing parameter vector"
    | nameForm :: rest =>
      match dropDocs rest with
      | some rest => compile (.list (head :: nameForm :: rest))
      | none =>
        if rest.isEmpty then fail "fn/defn: missing parameter vector"
        else if !nameForm.isName then fail "defn: name must be a symbol"
        else do
          compileFnValue env compile head rest
          emitStoreGlobal env ((globalKeyForSymbol nameForm.nameOf).getD "")

/-- `((fn [] form))`: a top-level form that needs local slots. -/
def compileAsThunk (form : Form) : CompileM Unit := do
  let line ← formLineOf env
  modify fun s => { s with pendingFnLine := line, pendingThunk := true }
  let body ← compileArity env compile [] [form]
  let b ← onOut (·.addBlock body)
  emit_ .makeFn b
  emit_ .call 0

/-! ### `let`, `loop` and `recur` -/

/-- The bindings in order; answers the slots and what undoes the names. -/
def compileBindings (what : String) : List Form → CompileM (List Nat × List Saved)
  | nameForm :: valForm :: rest => do
    if !nameForm.isName then fail (what ++ ": binding name must be a symbol")
    let bname := nameForm.nameOf
    if isQualifiedName bname then fail ("Can't let qualified name: " ++ bname)
    compile valForm
    let (slot, saved) ← CompileM.bind bname
    emit_ .storeLocal slot
    let (slots, more) ← compileBindings what rest
    return (slot :: slots, saved :: more)
  | _ => return ([], [])

/-- The items of a bindings form. -/
def bindingItems (what : String) (bindings : Form) : CompileM (List Form) := do
  let items ← match bindings with
    | .vector items | .list items => pure items
    | _ => fail (what ++ ": bindings must be a vector")
  if items.length % 2 != 0 then fail (what ++ ": bindings must come in name/value pairs")
  return items

def compileLetForm (fuel : Nat) (head : Form) (rest : List Form) : CompileM Unit :=
  match rest with
  | [] => fail "let: expects bindings vector"
  | bindings :: body => do
    let items ← bindingItems "let" bindings
    match ← destructureBindings env fuel items with
    | some flat => compile (.list (head :: .vector flat :: body))
    | none =>
      let (_, saved) ← compileBindings compile "let" items
      compileDo compile body
      restore saved

/-- The bindings of the three forms a destructuring `loop` becomes: the outer `let`, the
`loop` itself and the inner `let`. -/
def loopRewrite : List (Form × Form) → CompileM (List Form × List Form × List Form)
  | [] => return ([], [], [])
  | (b, v) :: rest => do
    if b.isName then
      let (outer, loopBs, inner) ← loopRewrite rest
      return (b :: v :: outer, b :: b :: loopBs, inner)
    else
      let g ← freshSymbol "p__"
      let (outer, loopBs, inner) ← loopRewrite rest
      return (g :: v :: b :: g :: outer, g :: g :: loopBs, b :: g :: inner)

def compileLoopForm (head : Form) (rest : List Form) : CompileM Unit :=
  match rest with
  | [] => fail "loop: expects bindings vector"
  | bindings :: body => do
    let items ← bindingItems "loop" bindings
    if simpleBindings items then
      let (slots, saved) ← compileBindings compile "loop" items
      pushRecurTarget slots
      compileDo compile body
      popRecurTarget
      restore saved
    else
      let (outer, loopBs, inner) ← loopRewrite (pairUp items)
      compile (.list [.name "let", .vector outer,
        .list [head, .vector loopBs, .list (.name "let" :: .vector inner :: body)]])

def emitStores : List Nat → CompileM Unit
  | [] => return ()
  | slot :: rest => do
    emit_ .storeLocal slot
    emitStores rest

def compileRecur (args : List Form) : CompileM Unit := do
  let s ← get
  match s.scopes with
  | [] => fail "recur: no enclosing loop in current scope"
  | scope :: _ =>
    match scope.recurStack with
    | [] => fail "recur: no enclosing loop in current scope"
    | tgt :: _ =>
      if tgt.tryDepth ≠ scope.tryDepth then fail "Cannot recur across try"
      if args.length ≠ tgt.slots.length then fail "recur: arity mismatch with enclosing loop"
      compileArgs compile args
      emitStores tgt.slots.reverse
      markRecur env
      let jbAt ← emit .jumpBack 0
      patchOperand jbAt (jbAt + 1 - tgt.bodyStart)

/-! ### `try` -/

structure CatchClause where
  classId : Option Nat
  className : String
  binding : String
  body : List Form

/-- The clauses of a `try`, split: body forms, catch clauses, the finally forms. -/
structure TryParts where
  body : List Form
  catches : List CatchClause
  finallyForms : Option (List Form)

def catchClause (rest : List Form) : CompileM CatchClause :=
  match rest with
  | .name className :: .name binding :: body =>
    let classId := if className = "Object" ∨ className = "java.lang.Object" then
      some kThrowableClassId else exceptionClassId className
    return ⟨classId, className, binding, body⟩
  | _ => fail "catch: expects (catch ClassName binding body...)"

/-- From the form after those already split off: `seenCatch` and `seenFinally` say what
came before it. -/
def splitTry : Bool → Bool → List Form → CompileM TryParts
  | _, _, [] => return ⟨[], [], none⟩
  | seenCatch, seenFinally, f :: rest => do
    if seenFinally then fail "finally clause must be last in try expression"
    match f with
    | .list (.name "catch" :: clause) => do
      let c ← catchClause clause
      let parts ← splitTry true false rest
      return { parts with catches := c :: parts.catches }
    | .list (.name "finally" :: forms) => do
      let parts ← splitTry seenCatch true rest
      return { parts with finallyForms := some forms }
    | f => do
      if seenCatch then
        fail "Only catch or finally clause can follow catch in try expression"
      let parts ← splitTry false false rest
      return { parts with body := f :: parts.body }

/-- Pushes the type of a catch clause that names no built-in class. -/
def compileCatchType (qualified : String) : CompileM Unit := do
  let name := (stripUserQualifier qualified).getD qualified
  match ← resolveLocal name with
  | some slot => emit_ .pushLocal slot
  | none =>
    let local? ← match qualifiedParts name with
      | some (a, b) => do
        match ← resolveLocal a with
        | some slot => pure (some (slot, b))
        | none => pure none
      | none => pure none
    match local? with
    | some (slot, b) => do
      emit_ .pushLocal slot
      let i ← addSymbol b
      emit_ .getMember i
    | none => do
      let i ← addSymbol name
      emit_ .resolveClass i

def freshSlot : CompileM Nat := do
  match (← get).scopes with
  | [] => throw (.outOfRange "no scope")
  | scope :: _ =>
    onTopScope fun scope => { scope with nextSlot := scope.nextSlot + 1 }
    return scope.nextSlot

/-- Names the exception's slot for a clause body; answers what undoes it. -/
def bindTo (name : String) (slot : Nat) : CompileM Saved := do
  match (← get).scopes with
  | [] => throw (.outOfRange "no scope")
  | scope :: _ =>
    onTopScope fun scope =>
      { scope with nameToSlot := Function.update scope.nameToSlot name (some slot) }
    return (name, scope.nameToSlot name)

/-- One catch clause; answers its jump to the end. -/
def compileCatch (exSlot : Nat) (c : CatchClause) : CompileM Nat := do
  emit_ .pushLocal exSlot
  match c.classId with
  | some id => emit_ .excMatch id
  | none =>
    compileCatchType c.className
    let i ← addSymbol c.className
    emit_ .excMatchType i
  let nextAt ← emit .jumpIfFalse 0
  let saved ← bindTo c.binding exSlot
  compileDo compile c.body
  restore [saved]
  let doneAt ← emit .jump 0
  patchTo nextAt (← pos)
  return doneAt

def compileCatches (exSlot : Nat) : List CatchClause → CompileM (List Nat)
  | [] => return []
  | c :: rest => do
    let doneAt ← compileCatch compile exSlot c
    let doneAts ← compileCatches exSlot rest
    return doneAt :: doneAts

def compileProtected (parts : TryParts) : CompileM Unit :=
  if parts.catches.isEmpty then compileDo compile parts.body
  else do
    let catchBeginAt ← emit .tryBegin 0
    compileDo compile parts.body
    emit_ .tryEnd 0
    let doneAt ← emit .jump 0
    patchTo catchBeginAt (← pos)
    let exSlot ← freshSlot
    emit_ .storeCaught exSlot
    let doneAts ← compileCatches compile exSlot parts.catches
    emit_ .rethrow exSlot
    patchAll (← pos) (doneAt :: doneAts)

/-- The finally forms, for effect only. -/
def compileFinally : List Form → CompileM Unit
  | [] => return ()
  | f :: rest => do
    compile f
    emit_ .pop 0
    compileFinally rest

def changeTryDepth (f : Nat → Nat) : CompileM Unit :=
  onTopScope fun scope => { scope with tryDepth := f scope.tryDepth }

def compileTry (rest : List Form) : CompileM Unit := do
  let parts ← splitTry false false rest
  changeTryDepth (· + 1)
  match parts.finallyForms with
  | none => compileProtected compile parts
  | some forms => do
    let finallyBeginAt ← emit .tryBegin 0
    compileProtected compile parts
    emit_ .tryEnd 0
    compileFinally compile forms
    let endAt ← emit .jump 0
    patchTo finallyBeginAt (← pos)
    let fxSlot ← freshSlot
    emit_ .storeCaught fxSlot
    compileFinally compile forms
    emit_ .rethrow fxSlot
    patchTo endAt (← pos)
  changeTryDepth (· - 1)

/-! ### Macros -/

/-- The key of the macro the head of a call names. -/
def macroForHead (s : Session) (head : Form) : Option String :=
  if !head.isName then none
  else match globalKeyForSymbol head.nameOf with
    | none => none
    | some key =>
      let bare := (stripCoreQualifier key).getD key
      let qualified := (stripCoreQualifier key).isSome || key != head.nameOf
      if isSpecialFormName bare then none
      else if !qualified && s.isLocalName key then none
      else if env.globalMacro key then some key
      else none

def compileMacroCall (form : Form) (key name : String) : CompileM Unit := do
  let s ← get
  match env.expandMacroCall key form s.isLocalName s.gensym with
  | .error thrown => fail ("Syntax error macroexpanding " ++ name ++ ": " ++ thrown)
  | .ok (expansion, gensym) =>
    set { s with gensym }
    compile expansion

/-- Every arity of a macro takes `&form` and `&env` in front. -/
def withHidden : Form → CompileM Form
  | .vector items => return .vector (.name "&form" :: .name "&env" :: items)
  | _ => fail "defmacro: parameter list must be a vector"

def macroArities : List Form → CompileM (List Form)
  | [] => return []
  | .list (params :: body) :: rest => do
    let params ← withHidden params
    let more ← macroArities rest
    return .list (params :: body) :: more
  | [.map _] => return []                    -- a trailing attribute map
  | _ => fail "defmacro: each arity must be a list ([params] body...)"

/-- The `fn` form of a macro, from the element after its name on. -/
def macroFn (rest : List Form) : CompileM Form := do
  let rest := if 1 < rest.length ∧ rest.head?.any Form.isStr then rest.drop 1 else rest
  let rest := if rest.head?.any Form.isMap then rest.drop 1 else rest
  match rest with
  | [] => fail "defmacro: missing parameter vector"
  | .vector items :: body =>
    return .list (.name "fn" :: (← withHidden (.vector items)) :: body)
  | rest => return .list (.name "fn" :: (← macroArities rest))

def changeNoDebug (f : Nat → Nat) : CompileM Unit :=
  modify fun s => { s with noDebug := f s.noDebug }

/-- `(def name (__macro__ (fn ...)))`; no debug information inside. -/
def compileDefmacro (rest : List Form) : CompileM Unit :=
  match rest with
  | nameForm :: r :: rest =>
    match (if nameForm.isName then globalKeyForSymbol nameForm.nameOf else none) with
    | none => fail "defmacro: name must be a symbol"
    | some key => do
      let fn ← macroFn (r :: rest)
      pushVar "__macro__"
      changeNoDebug (· + 1)
      compile fn
      changeNoDebug (· - 1)
      emit_ .call 1
      emitStoreGlobal env key
  | _ => fail "defmacro: expects (defmacro name [params] body...)"

/-! ### Calls -/

def operatorOp : String → Option Op
  | "+" => some .add
  | "-" => some .sub
  | "*" => some .mul
  | "<" => some .lt
  | "<=" => some .le
  | ">" => some .gt
  | ">=" => some .ge
  | "=" => some .eq
  | _ => none

def isCompareOp : Op → Bool
  | .lt | .le | .gt | .ge | .eq => true
  | _ => false

/-- The operands after the first, each folded in as it is pushed. -/
def compileOperatorArgs (op : Op) (operand : Nat) : List Form → CompileM Unit
  | [] => return ()
  | f :: rest => do
    compile f
    emit_ op operand
    compileOperatorArgs op operand rest

/-- The opcode an operator call compiles to, when it is inlined. -/
def inlinedOperator (headName : String) (coreQualified : Bool) (argc : Nat) :
    CompileM (Option Op) := do
  match operatorOp headName with
  | none => return none
  | some op =>
    let shadow ← if coreQualified then pure none else resolveLocal headName
    let intact := coreQualified || env.operatorIntact headName
    if shadow.isSome || !intact || argc < 2 || (isCompareOp op && argc != 2) then return none
    else return some op

/-- Whether the last two arguments are a keyword literal and its value. -/
def hasKvSuffix (args : List Form) : Bool :=
  match args.reverse with
  | _ :: k :: _ => k.isKeyword
  | _ => false

/-- The arguments of a call whose callee is on the stack. -/
def compileCallArgs (args : List Form) : CompileM Unit := do
  compileArgs compile args
  emit_ (if hasKvSuffix args then .callKw else .call) args.length

/-- Pushes the receiver `a` of a qualified name `a/b`. -/
def compileQualifiedPrefix (a : String) : CompileM Unit := do
  match ← resolveLocal a with
  | some slot => emit_ .pushLocal slot
  | none => pushVar a

/-- A call with a symbol or a keyword in head position. -/
def compileNamedCall (head : Form) (headName : String) (coreQualified : Bool) (args : List Form) :
    CompileM Unit := do
  match ← inlinedOperator env headName coreQualified args.length with
  | some op =>
    compileArgs compile (args.take 1)
    compileOperatorArgs compile op (if coreQualified then 1 else 0) (args.drop 1)
  | none =>
    if coreQualified then
      pushVar (core headName)
      compileCallArgs compile args
    else match stripUserQualifier headName with
    | some key =>
      pushVar key
      compileCallArgs compile args
    | none =>
      if isKeywordName headName then
        compile head
        compileCallArgs compile args
      else match ← resolveLocal headName with
      | some slot =>
        emit_ .pushLocal slot
        compileCallArgs compile args
      | none =>
        match qualifiedParts headName with
        | some (a, b) =>
          compileQualifiedPrefix a
          compileArgs compile args
          emit_ .callMember args.length
          let i ← addSymbol b
          emit_ .nop i
        | none =>
          pushVar headName
          compileCallArgs compile args

/-- A call of a built-in with already compiled arguments: how literals are built. -/
def compileHelperCall (name : String) (args : List Form) : CompileM Unit := do
  pushVar name
  compileArgs compile args
  emit_ .call args.length

def compileApply (rest : List Form) : CompileM Unit :=
  match rest with
  | f :: a :: [] => do
    compile f
    compile a
    emit_ .callApply 0
  | f :: a :: more => do
    compile f
    compileHelperCall compile "clojure.core/list*" (a :: more)
    emit_ .callApply 0
  | _ => fail "apply: expects (apply f args* coll)"

/-! ### Atoms -/

def pushInt (i : Int) : CompileM Unit :=
  if -(2 ^ 63) ≤ i ∧ i < 2 ^ 63 then pushConst (·.addLong i) else pushConst (·.addBigInteger i)

def compileName (spelling : String) : CompileM Unit := do
  let name ← aliasLibraryNamespace env spelling
  if isKeywordName name then pushConst (·.addNamed name)
  else match stripCoreQualifier name with
  | some bare =>
    if isSpecialFormName bare ∨ bare = "unquote" ∨ bare = "unquote-splicing" then
      fail ("Can't take value of a special form: " ++ bare)
    if env.globalMacro name then fail ("Can't take value of a macro: " ++ name)
    pushVar name
  | none =>
    match stripUserQualifier name with
    | some key =>
      if env.globalMacro key then fail ("Can't take value of a macro: " ++ name)
      pushVar key
    | none =>
      match ← resolveLocal name with
      | some slot => emit_ .pushLocal slot
      | none =>
        if (globalKeyForSymbol name).any env.globalMacro then
          fail ("Can't take value of a macro: " ++ name)
        match qualifiedParts name with
        | some (a, b) =>
          compileQualifiedPrefix a
          let i ← addSymbol b
          emit_ .getMember i
        | none => pushVar name

/-- A constant element of a set literal. -/
def isConstantElem : Form → Bool
  | .nil | .bool _ | .str _ | .int _ | .float _ => true
  | f => f.isKeyword

/-! ### Special forms -/

def compileDef (rest : List Form) : CompileM Unit :=
  match rest with
  | [nameForm, exprForm] =>
    match (if nameForm.isName then globalKeyForSymbol nameForm.nameOf else none) with
    | none => fail "def: name must be a symbol"
    | some key => do
      compile exprForm
      emitStoreGlobal env key
  | _ => fail "def: expects (def name expr)"

/-- A literal test decides the branch at compile time. -/
def literalTest : Form → Option Bool
  | .bool true | .str _ | .int _ | .float _ => some true
  | .nil | .bool false => some false
  | f => if f.isKeyword then some true else none

def compileIfForm (rest : List Form) : CompileM Unit :=
  match rest with
  | test :: thn :: els =>
    if els.length > 1 then fail "if: expects (if test then) or (if test then else)"
    else match literalTest test with
      | some true => compile thn
      | some false =>
        match els.head? with
        | some els => compile els
        | none => emit_ .pushNil 0
      | none => compileIf compile test thn els.head?
  | _ => fail "if: expects (if test then) or (if test then else)"

def compileQuote (rest : List Form) : CompileM Unit :=
  match rest with
  | [q] =>
    match q with
    | .name s => pushConst (·.addNamed s)
    | .nil | .bool _ | .str _ | .int _ | .float _ => compile q
    | q => pushConst (·.addDatum q)
  | _ => fail "quote: expects (quote form)"

def compileThrow (rest : List Form) : CompileM Unit :=
  match rest with
  | [e] => do
    compile e
    emit_ .throw 0
  | _ => fail "Too many arguments to throw, throw expects a single exception"

/-- A list form whose head is no macro: a special form or a call. -/
def compileListForm (fuel : Nat) (form head : Form) (headName : String) (coreQualified : Bool)
    (rest : List Form) : CompileM Unit := do
  let top ← atTopLevel
  match headName with
  | "defmacro" => compileDefmacro env compile rest
  | "def" => compileDef env compile rest
  | "if" => compileIfForm compile rest
  | "and" =>
    if rest.isEmpty then emit_ .pushTrue 0 else compileShortCircuit compile .jumpIfFalse rest
  | "or" =>
    if rest.isEmpty then emit_ .pushNil 0 else compileShortCircuit compile .jumpIfTrue rest
  | "do" => compileDo compile rest
  | "quote" => compileQuote compile rest
  | "fn" => compileFnForm env compile head true rest
  | "defn" => compileFnForm env compile head false rest
  | "let" =>
    if top then compileAsThunk env compile form else compileLetForm env compile fuel head rest
  | "loop" =>
    if top then compileAsThunk env compile form else compileLoopForm compile head rest
  | "try" => if top then compileAsThunk env compile form else compileTry compile rest
  | "throw" => compileThrow compile rest
  | "apply" => compileApply compile rest
  | "recur" => compileRecur env compile rest
  | headName =>
    if coreQualified ∧ headName = "unquote" then
      fail "unquote (~) used outside a syntax-quote (`)"
    else if coreQualified ∧ headName = "unquote-splicing" then
      fail "unquote-splicing (~@) used outside a syntax-quote (`)"
    else if head.isName then compileNamedCall env compile head headName coreQualified rest
    else do
      compile head
      compileCallArgs compile rest

/-- The name a head dispatches on, and whether it was qualified with `clojure.core/`. -/
def dispatchName (head : Form) : Except CompileError (String × Bool) := do
  if !head.isName then return ("", false)
  let name ← aliasLibraryNamespace env head.nameOf
  let bare := (stripCoreQualifier name).getD name
  return (if bare = "fn*" then "fn" else bare, (stripCoreQualifier name).isSome)

def compileList (fuel : Nat) (head : Form) (rest : List Form) : CompileM Unit := do
  let form := Form.list (head :: rest)
  let (headName, coreQualified) ← dispatchName env head
  markList env headName
  match macroForHead env (← get) head with
  | some key => compileMacroCall env compile form key head.nameOf
  | none => compileListForm env compile fuel form head headName coreQualified rest

end

/-- `Compiler::compileForm`. The first argument is how much native stack is left. -/
def compileForm (env : Env) : Nat → Form → CompileM Unit
  | 0, _ => throw .stackOverflow
  | fuel + 1, form =>
    let compile := compileForm env fuel
    match form with
    | .nil => emit_ .pushNil 0
    | .bool true => emit_ .pushTrue 0
    | .bool false => emit_ .pushFalse 0
    | .int i => pushInt i
    | .float bits => pushConst (·.addDouble bits)
    | .list [] => pushConst (·.addDatum (.list []))
    | .list (head :: rest) => compileList env compile fuel head rest
    | .map entries => compileHelperCall compile "hash-map" entries
    | .vector items => compileHelperCall compile "vector" items
    | .set elems =>
      if elems.all isConstantElem then pushConst (·.addDatum (.set elems))
      else compileHelperCall compile "clojure.core/hash-set" elems
    | .pattern source => pushConst (·.addDatum (.pattern source))
    | .str s => pushConst (·.addString s)
    | .name s => compileName env s
    | .other _ => fail "compile: unsupported form"

/-- The module of one top-level form, as `evalTopLevel` completes it. -/
def compileModule (env : Env) (fuel : Nat) (form : Form) : Except CompileError BytecodeModule := do
  let (_, s) ← (compileForm env fuel form *> emit_ .ret 0).run
    { out := { debugInfo := env.recordPositions } }
  return s.out

end ProtoClojure
