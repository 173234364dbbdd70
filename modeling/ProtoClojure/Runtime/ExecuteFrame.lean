import ProtoClojure.Runtime.Services

/-! `ExecutionEngine::executeFrame`: a body's code run instruction by instruction, with the
calls it makes and the handlers it sets up. The operand stack lies above the slots of the
locals in one array; here the two are apart. -/
namespace ProtoClojure.Vm
open Recursion

structure TryHandler where
  target : Nat
  sp : Nat

structure Frame where
  ip : Nat := 0
  stack : List Value := []                      -- the top first
  slots : Nat → Option Value
  handlers : List TryHandler := []              -- the innermost first
  caught : Nat → Option Thrown := fun _ => none
  justCaught : Option Thrown := none

/-- What the source leaves undefined or never meets: an empty slot read, a constant of another
kind, a place outside the stack or the code. -/
inductive Fault where
  | emptySlot
  | constant
  | stack
  | jump

/-- A frame to be run on, or a call from a primitive. -/
inductive Query (σ : Type) where
  | frame (m : BytecodeModule) (f : Frame) (w : World σ FnObject)
  | invoke (f : Value) (args : List Value) (w : World σ FnObject)

@[reducible] def Query.Answer {σ : Type} (_ : Query σ) : Type :=
  Except Thrown Value × World σ FnObject

structure Config (σ : Type) where
  frame : Frame
  world : World σ FnObject

abbrev InWorld (σ α : Type) := Effect (Query σ) Query.Answer Fault (World σ FnObject) Thrown α
abbrev Exec (σ α : Type) := Effect (Query σ) Query.Answer Fault (Config σ) Thrown α

section
variable {σ α : Type} (H : Host σ)

/-! ### Calls -/

def callBack (f : Value) (args : List Value) : InWorld σ Value :=
  fun w => Comp.ask (Q := Query σ) (.invoke f args w)

def service (s : Service σ α) : InWorld σ α := serve callBack s

def execute (b : Binding) : InWorld σ Value :=
  if b.body.captureSpecs ≠ [] ∧ b.captures.length ≠ b.body.captureSpecs.length then
    service (raiseError H "VM: captures list size mismatch with body captureSpecs")
  else fun w => Comp.ask (Q := Query σ) (.frame b.body { slots := b.slots } w)

/-- `run`: the module of a top-level form, which takes no arguments. -/
def run (m : BytecodeModule) : InWorld σ Value := execute H { body := m, captures := [], args := [] }

def bound (text : Refusal → String) : Except Refusal Binding → InWorld σ Value
  | .error r => service (raiseError H (text r))
  | .ok b => execute H b

/-- A call of a function object. -/
def callFn (site : Site) (f : FnObject) (args : List Value) : InWorld σ Value :=
  match site with
  | .call => bound H dispatchText (dispatchCall f args)
  | .callKw =>
    let text :=
      match f with
      | .single _ _ => callKwText
      | .multi _ => dispatchText
    bound H text (callKw f args)
  | .invoke => bound H invokeText (ProtoClojure.invoke f args)

def apply (site : Site) (f : Value) (args : List Value) : InWorld σ Value := do
  match f with
  | .fn id =>
    match (← get).fns[id]? with
    | some fo => callFn H site fo args
    | none => service (otherCallee H site f args)
  | _ => service (otherCallee H site f args)

/-! ### The frame -/

def onWorld (x : InWorld σ α) : Exec σ α := x.zoom Config.world fun c w => { c with world := w }

def serviceIn (s : Service σ α) : Exec σ α := onWorld (service s)

def raiseIn (text : String) : Exec σ α := serviceIn (raiseError H text)

def modifyFrame (f : Frame → Frame) : Exec σ Unit := modify fun c => { c with frame := f c.frame }

def pushVal (v : Value) : Exec σ Unit := modifyFrame fun f => { f with stack := v :: f.stack }

def popVal : Exec σ Value := do
  match (← get).frame.stack with
  | [] => raiseIn H "VM: operand-stack underflow"
  | v :: rest =>
    modifyFrame fun f => { f with stack := rest }
    return v

/-- The value of a slot. -/
def slotValue (slot : Nat) : Exec σ Value := do
  match (← get).frame.slots slot with
  | some v => return v
  | none => Effect.fault .emptySlot

def setSlot (slot : Nat) (v : Option Value) : Exec σ Unit :=
  modifyFrame fun f => { f with slots := Function.update f.slots slot v }

/-- The symbol a constant holds. -/
def symbolAt (m : BytecodeModule) (i : Nat) : Exec σ String :=
  match m.consts[i]? with
  | some (.symbol s) => return s
  | _ => Effect.fault .constant

/-- The callable under `argc` arguments is called; its value takes their place. -/
def dispatch (site : Site) (argc : Nat) : Exec σ Unit := do
  let stack := (← get).frame.stack
  match stack.drop argc with
  | [] => Effect.fault .stack
  | f :: rest =>
    let v ← onWorld (apply H site f (stack.take argc).reverse)
    modifyFrame fun f => { f with stack := v :: rest }

/-- A new function object takes the place of its captures. -/
def newFn (f : FnObject) (rest : List Value) : Exec σ Unit := modify fun c =>
  { frame := { c.frame with stack := .fn c.world.fns.length :: rest }
    world := { c.world with fns := c.world.fns ++ [f] } }

/-- The captures of several arities, as they lie on the stack. -/
def slices : List BytecodeModule → List Value → List (BytecodeModule × List Value)
  | [], _ => []
  | m :: rest, captures =>
    (m, captures.take m.captureCount) :: slices rest (captures.drop m.captureCount)

def operator (op : Op) (operand : Nat) : Exec σ Unit := do
  match (← get).frame.stack with
  | b :: a :: rest =>
    match ← serviceIn (redefinedOperator H op operand) with
    | some f =>
      modifyFrame fun fr => { fr with stack := b :: a :: f :: rest }
      dispatch H .call 2
    | none =>
      let r ← serviceIn (H.binary op a b)
      modifyFrame fun f => { f with stack := r :: rest }
  | _ => raiseIn H "VM: binop underflow"

def jumpBack (operand : Nat) : Exec σ Unit := do
  if (← get).frame.ip < operand then Effect.fault .jump
  else modifyFrame fun f => { f with ip := f.ip - operand }

def rethrow (slot : Nat) : Exec σ Unit := do
  match (← get).frame.caught slot with
  | some t => throw t
  | none => throw (.exception (← slotValue slot))

/-- One instruction but `RETURN`, with `ip` past it. -/
def perform (m : BytecodeModule) (op : Op) (operand : Nat) : Exec σ Unit := do
  let f := (← get).frame
  match op with
  | .nop | .line | .ret => return
  | .pushConst =>
    match m.consts[operand]? with
    | none => raiseIn H "VM: PUSH_CONST out-of-range"
    | some c => pushVal (← serviceIn (materialise H c))
  | .pushVar =>
    match m.consts[operand]? with
    | none => raiseIn H "VM: PUSH_VAR out-of-range"
    | some (.symbol s) => pushVal (← serviceIn (readGlobal H s))
    | some _ => raiseIn H "VM: PUSH_VAR const is not a symbol"
  | .pushLocal => pushVal (← slotValue operand)
  | .pushLocalClear =>
    pushVal (← slotValue operand)
    setSlot operand none
  | .storeLocal =>
    if f.stack = [] then raiseIn H "VM: STORE_LOCAL with empty stack"
    else setSlot operand (some (← popVal H))
  | .makeFn =>
    match m.blocks[operand]? with
    | none => raiseIn H "VM: MAKE_FN out-of-range"
    | some sub =>
      let n := sub.captureCount
      if f.stack.length < n then raiseIn H "VM: MAKE_FN underflow on captures"
      else newFn (.single sub (f.stack.take n).reverse) (f.stack.drop n)
  | .makeFnMulti =>
    match m.arityGroups[operand]? with
    | none => raiseIn H "VM: MAKE_FN_MULTI out-of-range"
    | some group =>
      match group.mapM (m.blocks[·]?) with
      | none => Effect.fault .constant
      | some subs =>
        let n := (subs.map (·.captureCount)).sum
        if f.stack.length < n then raiseIn H "VM: MAKE_FN_MULTI underflow"
        else newFn (.multi (slices subs (f.stack.take n).reverse)) (f.stack.drop n)
  | .call =>
    if f.stack.length < operand + 1 then raiseIn H "VM: CALL with insufficient stack"
    else dispatch H .call operand
  | .callKw =>
    if f.stack.length < operand + 1 then raiseIn H "VM: CALL_KW with insufficient stack"
    else dispatch H .callKw operand
  | .callApply =>
    if f.stack.length < 2 then raiseIn H "VM: CALL_APPLY underflow"
    else do
      let items ← serviceIn (spreadItems H (← popVal H))
      modifyFrame fun f => { f with stack := items.reverse ++ f.stack }
      dispatch H .call items.length
  | .pop =>
    if f.stack = [] then raiseIn H "VM: POP on empty stack"
    else modifyFrame fun f => { f with stack := f.stack.tail }
  | .storeGlobal =>
    match m.consts[operand]? with
    | none => raiseIn H "VM: STORE_GLOBAL out-of-range"
    | some (.symbol s) =>
      match f.stack with
      | [] => raiseIn H "VM: STORE_GLOBAL with empty stack"
      | v :: _ => serviceIn (storeGlobal H s v)
    | some _ => raiseIn H "VM: STORE_GLOBAL key not a symbol"
  | .jump => modifyFrame fun f => { f with ip := f.ip + operand }
  | .jumpIfFalse =>
    if !truthy (← popVal H) then modifyFrame fun f => { f with ip := f.ip + operand }
  | .jumpIfTrue =>
    if truthy (← popVal H) then modifyFrame fun f => { f with ip := f.ip + operand }
  | .jumpBack => jumpBack operand
  | .dup =>
    match f.stack with
    | [] => raiseIn H "VM: DUP on empty stack"
    | v :: _ => pushVal v
  | .pushNil => pushVal .nil
  | .pushTrue => pushVal (.bool true)
  | .pushFalse => pushVal (.bool false)
  | .add | .sub | .mul | .lt | .le | .gt | .ge | .eq => operator H op operand
  | .tryBegin =>
    if m.hasHandlers then
      modifyFrame fun f =>
        { f with handlers := ⟨f.ip + operand, f.stack.length⟩ :: f.handlers }
    else raiseIn H "VM: TRY_BEGIN in a frame without handlers"
  | .tryEnd =>
    match f.handlers with
    | [] => raiseIn H "VM: TRY_END without a handler"
    | _ :: rest => modifyFrame fun f => { f with handlers := rest }
  | .throw =>
    match f.stack with
    | [] => raiseIn H "VM: THROW on empty stack"
    | v :: _ => throw (.exception (← serviceIn (H.thrownValue v)))
  | .storeCaught =>
    if m.hasHandlers then do
      modifyFrame fun f =>
        { f with caught := Function.update f.caught operand f.justCaught, justCaught := none }
      setSlot operand (some (← popVal H))
    else raiseIn H "VM: STORE_CAUGHT in a frame without handlers"
  | .rethrow => rethrow operand
  | .excMatch =>
    let v ← popVal H
    pushVal (.bool (← serviceIn (H.exceptionMatches v operand)))
  | .excMatchType =>
    let name ← symbolAt m operand
    match f.stack with
    | type :: v :: rest =>
      let b ← serviceIn (H.matchCatchType v type name)
      modifyFrame fun f => { f with stack := .bool b :: rest }
    | _ => Effect.fault .stack
  | .resolveClass => pushVal (← serviceIn (H.resolveCatchType (← symbolAt m operand)))
  | .getMember =>
    let name ← symbolAt m operand
    match f.stack with
    | o :: rest =>
      let v ← serviceIn (H.getMember o name)
      modifyFrame fun f => { f with stack := v :: rest }
    | _ => Effect.fault .stack
  | .callMember =>
    match m.code[f.ip]? with
    | none => Effect.fault .jump
    | some data =>
      modifyFrame fun f => { f with ip := f.ip + 1 }
      let name ← symbolAt m data.operand
      match f.stack.drop operand with
      | [] => Effect.fault .stack
      | o :: rest =>
        let v ← serviceIn (H.callMember o name (f.stack.take operand).reverse)
        modifyFrame fun f => { f with stack := v :: rest }

/-- One turn of the dispatch loop; it answers the frame's value when there is one. -/
def step (m : BytecodeModule) : Exec σ (Option Value) := do
  let f := (← get).frame
  match m.code[f.ip]? with
  | none => return some (f.stack.headD .nil)
  | some w =>
    modifyFrame fun f => { f with ip := f.ip + 1 }
    if w.op = .ret then return some (f.stack.headD .nil)
    else do
      perform H m w.op w.operand
      return none

/-- What is thrown lands in the innermost handler, or leaves the frame. -/
def unwind (m : BytecodeModule) (t : Thrown) (c : Config σ) :
    Comp (Query σ) Query.Answer Fault (Except Thrown Value × World σ FnObject) :=
  match m.hasHandlers, c.frame.handlers with
  | true, h :: rest =>
    let (v, heap) := caughtValue H t c.world.heap
    let justCaught :=
      match t with
      | .exception _ => some t
      | .failure _ => none
    let stack := c.frame.stack.drop (c.frame.stack.length - h.sp)
    Comp.ask (Q := Query σ)
      (.frame m { c.frame with ip := h.target, stack := v :: stack, handlers := rest, justCaught }
        { c.world with heap })
  | _, _ => pure (.error t, c.world)

/-- `executeFrame` on a native stack without an end; `vmOn` puts the end. -/
def vm : Program (Query σ) Query.Answer Fault
  | .frame m f w => do
    let (r, c) ← step H m ⟨f, w⟩
    match r with
    | .ok (some v) => pure (.ok v, c.world)
    | .ok none => Comp.ask (Q := Query σ) (.frame m c.frame c.world)
    | .error t => unwind H m t c
  | .invoke f args w => apply H .invoke f args w

end

end ProtoClojure.Vm
