import ProtoClojure.Recursion.Effects
import ProtoClojure.Runtime.Dispatch

/-! What compiled code needs of the runtime around it: the globals and the operators kept in
them, and services that may run user code and raise. -/
namespace ProtoClojure.Vm
open Recursion

/-- What travels up the native stack: an exception with its value, or a C++ error. -/
inductive Thrown where
  | exception (v : Value)
  | failure (what : String)

/-- The globals, the operators whose global is not the built-in, and the rest. -/
structure Heap (σ : Type) where
  globals : String → Option Value
  redefined : Op → Bool
  rest : σ

/-- What a service may do: see and change the heap, and call back. -/
inductive HostOp (σ : Type) where
  | read
  | write (h : Heap σ)
  | call (f : Value) (args : List Value)

@[reducible] def HostOp.Answer {σ : Type} : HostOp σ → Type
  | read => Heap σ
  | write _ => Unit
  | call _ _ => Except Thrown Value

abbrev Service (σ α : Type) := Comp (HostOp σ) HostOp.Answer Thrown α

structure Host (σ : Type) where
  /-- whether two values are one object -/
  same : Value → Value → Bool
  /-- the value of a constant that is no global's name -/
  constant : Const → Service σ Value
  /-- the exception `throwError` raises for a text -/
  errorValue : String → Service σ Value
  exceptionFromError : String → Heap σ → Value × Heap σ
  /-- a call of what is no function object, by `dispatchCall` and by `invoke` -/
  callValue : Value → List Value → Service σ Value
  invokeValue : Value → List Value → Service σ Value
  getMember : Value → String → Service σ Value
  callMember : Value → String → List Value → Service σ Value
  seqItems : Value → Service σ (List Value)
  /-- an operator on two operands, as `ADD` … `EQ` compute it -/
  binary : Op → Value → Value → Service σ Value
  /-- the exception `throw` raises for a value -/
  thrownValue : Value → Service σ Value
  exceptionMatches : Value → Nat → Service σ Bool
  resolveCatchType : String → Service σ Value
  matchCatchType : Value → Value → String → Service σ Bool

/-- Where a call comes from. -/
inductive Site where
  | call
  | callKw
  | invoke

/-- Neither nil nor false. -/
def truthy : Value → Bool
  | .nil | .bool false => false
  | _ => true

/-- The operators the compiler inlines. -/
def kCoreOperatorNames : List (Op × String) :=
  [(.add, "+"), (.sub, "-"), (.mul, "*"), (.lt, "<"), (.le, "<="), (.gt, ">"), (.ge, ">="),
    (.eq, "=")]

section
variable {σ α : Type}

def readHeap : Service σ (Heap σ) := Comp.ask HostOp.read
def writeHeap (h : Heap σ) : Service σ Unit := Comp.ask (HostOp.write h)

variable (H : Host σ)

def raiseError (text : String) : Service σ α := do
  let v ← H.errorValue text
  .throw (.exception v)

/-- The value `PUSH_CONST` pushes. -/
def materialise : Const → Service σ Value
  | .symbol s => raiseError H ("VM: PUSH_CONST of a global name: " ++ s)
  | c => H.constant c

def readGlobal (key : String) : Service σ Value := do
  match (← readHeap).globals key with
  | some v => return v
  | none => raiseError H ("VM: unable to resolve symbol: " ++ key)

/-- The operator's bit after its global was set. -/
def noteGlobalStore (name : String) (v : Value) (h : Heap σ) : Heap σ :=
  match kCoreOperatorNames.find? fun p => name == p.2 with
  | none => h
  | some (op, _) =>
    let same := (h.globals ("clojure.core/" ++ name)).any (H.same v)
    { h with redefined := Function.update h.redefined op !same }

def storeGlobal (key : String) (v : Value) : Service σ Unit := do
  let h ← readHeap
  let h := { h with globals := Function.update h.globals key (some v) }
  writeHeap (if key.utf8ByteSize ≤ 2 then noteGlobalStore H key v h else h)

/-- The global an operator's code must call instead of computing. -/
def redefinedOperator (op : Op) (operand : Nat) : Service σ (Option Value) := do
  if operand % 2 = 1 ∨ !(← readHeap).redefined op then return none
  match kCoreOperatorNames.lookup op with
  | none => return none
  | some name => return some (← readGlobal H name)

def otherCallee (site : Site) (f : Value) (args : List Value) : Service σ Value :=
  match site with
  | .call | .callKw => H.callValue f args
  | .invoke => H.invokeValue f args

/-- `CALL_APPLY`: a list's items, none for nil, and the seq of anything else. -/
def spreadItems : Value → Service σ (List Value)
  | .list items => return items
  | .nil => return []
  | v => H.seqItems v

/-- The value a handler is given. -/
def caughtValue (t : Thrown) (h : Heap σ) : Value × Heap σ :=
  match t with
  | .exception v => (v, h)
  | .failure what => H.exceptionFromError what h

end

/-! ### Refused calls -/

def boundParametersText : String :=
  "VM: a call may bind at most 17 parameters (a variadic fn binds its rest arguments as one)"

def keysText : String := "VM: a function may declare at most 16 :keys parameters"

/-- What `dispatchCall` raises. -/
def dispatchText : Refusal → String
  | .noArity argc => s!"VM: no matching arity for argc={argc}"
  | .arity fixed argc => s!"VM: fn arity mismatch (expected {fixed}, got {argc})"
  | .variadic fixed argc => s!"VM: variadic fn needs at least {fixed} args, got {argc}"
  | .keywords fixed argc =>
    s!"VM: kw-based fn expects {fixed} positionals (+ optional trailing map), got {argc}"
  | .tooManyParameters => boundParametersText
  | .tooManyKeys => keysText
  | .notAList => "VM: CALL_APPLY: not a list"

/-- What `CALL_KW` raises: it counts the arguments of a keyword-argument function itself. -/
def callKwText : Refusal → String
  | .keywords fixed argc =>
    s!"VM: keyword-argument fn expects {fixed} positional arguments followed by " ++
      s!"key/value pairs, got {argc} arguments"
  | r => dispatchText r

/-- What `invoke` raises. -/
def invokeText : Refusal → String
  | .noArity argc => s!"VM: invoke: no matching arity for argc={argc}"
  | .arity _ _ => "VM: invoke: fn arity mismatch"
  | .variadic _ _ => "VM: invoke: variadic underflow"
  | .keywords fixed argc =>
    s!"VM: invoke: kw-based fn expects {fixed} positionals (+ optional trailing map), got {argc}"
  | r => dispatchText r

/-! ### The world -/

/-- The heap and the functions made so far, each known by its place. -/
structure World (σ F : Type) where
  heap : Heap σ
  fns : List F

section Serve
variable {Q : Type} {A : Q → Type} {ε σ F α : Type}

/-- How a service's steps are carried out, when `call` calls back. -/
def carryOut (call : Value → List Value → Effect Q A ε (World σ F) Thrown Value) (q : HostOp σ) :
    Effect Q A ε (World σ F) Thrown q.Answer :=
  match q with
  | .read => return (← get).heap
  | .write h => modify fun w => { w with heap := h }
  | .call f args => fun w => (call f args w).bind fun (r, w) => .done (.ok r, w)

def serve (call : Value → List Value → Effect Q A ε (World σ F) Thrown Value) (s : Service σ α) :
    Effect Q A ε (World σ F) Thrown α :=
  s.interpret (carryOut call)

end Serve

end ProtoClojure.Vm
