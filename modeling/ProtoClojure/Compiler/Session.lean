import Mathlib.Algebra.Group.Int.Defs
import ProtoClojure.Compiler.Names
import ProtoClojure.Runtime.BytecodeModule

/-! The compiler's state: the scopes of the functions being compiled, the module the
current one emits into, and the steps that change them. -/
namespace ProtoClojure

structure RecurTarget where
  bodyStart : Nat
  slots : List Nat
  tryDepth : Nat := 0

structure Scope where
  nameToSlot : String → Option Nat := fun _ => none
  nextSlot : Nat := 0
  arity : Nat := 0
  captures : List CaptureSpec := []
  recurStack : List RecurTarget := []      -- innermost first
  tryDepth : Nat := 0

/-- `scopes` is innermost first and empty at the top level. `out` is the module of the
innermost scope. The other fields place the line marks: how many positions were looked up,
the line of the last list form and of the next function, whether that is a thunk, and how
many `defmacro`s are around. -/
structure Session where
  scopes : List Scope := []
  gensym : Nat := 0
  out : BytecodeModule := {}
  lookups : Nat := 0
  lastMarkLine : Nat := 0
  pendingFnLine : Nat := 0
  pendingThunk : Bool := false
  noDebug : Nat := 0

/-- `emit`'s push of the word; a `TRY_BEGIN` marks the module. -/
def BytecodeModule.append (m : BytecodeModule) (w : Instr) : BytecodeModule :=
  { m with code := m.code ++ [w], hasHandlers := m.hasHandlers || w.op = .tryBegin }

/-- Whether a name is bound in any active scope; creates no capture. -/
def Session.isLocalName (s : Session) (name : String) : Bool :=
  s.scopes.any fun scope => (scope.nameToSlot name).isSome

abbrev CompileM := StateT Session (Except CompileError)

namespace CompileM

def fail {α : Type} (message : String) : CompileM α := throw (.compile message)

def opName : Op → String
  | .nop => "NOP" | .pushConst => "PUSH_CONST" | .pushVar => "PUSH_VAR" | .call => "CALL"
  | .pop => "POP" | .ret => "RETURN" | .storeGlobal => "STORE_GLOBAL" | .jump => "JUMP"
  | .jumpIfFalse => "JUMP_IF_FALSE" | .pushNil => "PUSH_NIL" | .pushTrue => "PUSH_TRUE"
  | .pushFalse => "PUSH_FALSE" | .pushLocal => "PUSH_LOCAL"
  | .pushLocalClear => "PUSH_LOCAL_CLEAR" | .storeLocal => "STORE_LOCAL" | .makeFn => "MAKE_FN"
  | .jumpBack => "JUMP_BACK" | .callApply => "CALL_APPLY" | .dup => "DUP"
  | .jumpIfTrue => "JUMP_IF_TRUE" | .makeFnMulti => "MAKE_FN_MULTI" | .add => "ADD"
  | .sub => "SUB" | .mul => "MUL" | .lt => "LT" | .le => "LE" | .gt => "GT" | .ge => "GE"
  | .eq => "EQ" | .callKw => "CALL_KW" | .tryBegin => "TRY_BEGIN" | .tryEnd => "TRY_END"
  | .throw => "THROW" | .excMatch => "EXC_MATCH" | .rethrow => "RETHROW"
  | .excMatchType => "EXC_MATCH_TYPE" | .resolveClass => "RESOLVE_CLASS"
  | .getMember => "GET_MEMBER" | .callMember => "CALL_MEMBER" | .storeCaught => "STORE_CAUGHT"
  | .line => "LINE"

def checkedOperand (op : Op) (operand : Nat) : CompileM Unit :=
  if operand > kMaxOperand then
    throw (.length (opName op ++ " operand " ++ toString operand ++
      " exceeds the bytecode limit of " ++ toString kMaxOperand ++
      " (constants, locals, functions, arguments or instructions jumped over in one function body)"))
  else pure ()

/-- Appends an instruction and answers its position. -/
def emit (op : Op) (operand : Nat) : CompileM Nat := do
  checkedOperand op operand
  let s ← get
  set { s with out := s.out.append ⟨op, operand⟩ }
  return s.out.pos

def emit_ (op : Op) (operand : Nat) : CompileM Unit := do
  let _ ← emit op operand

def pos : CompileM Nat := return (← get).out.pos

def patchOperand (i operand : Nat) : CompileM Unit := do
  let s ← get
  match s.out.code[i]? with
  | none => throw (.outOfRange ("patchOperand: no instruction at " ++ toString i))
  | some w =>
    checkedOperand w.op operand
    set { s with out := { s.out with code := s.out.code.set i { w with operand } } }

/-- Patches the forward jump at `i` to land on `target`. -/
def patchTo (i target : Nat) : CompileM Unit := patchOperand i (target - (i + 1))

/-- Runs a change of the module that answers an index into one of its tables. -/
def onOut (f : BytecodeModule → Nat × BytecodeModule) : CompileM Nat := do
  let s ← get
  let (i, out) := f s.out
  set { s with out }
  return i

def addSymbol (name : String) : CompileM Nat := onOut (·.addSymbol name)

def pushConst (add : BytecodeModule → Nat × BytecodeModule) : CompileM Unit := do
  let i ← onOut add
  emit_ .pushConst i

def pushVar (name : String) : CompileM Unit := do
  let i ← addSymbol name
  emit_ .pushVar i

def atTopLevel : CompileM Bool := return (← get).scopes.isEmpty

def onTopScope (f : Scope → Scope) : CompileM Unit :=
  modify fun s => { s with scopes := s.scopes.modifyHead f }

/-- A fresh generated symbol `prefixN`. -/
def freshSymbol (pre : String) : CompileM Form := do
  let s ← get
  set { s with gensym := s.gensym + 1 }
  return .name (pre ++ toString s.gensym)

end CompileM

/-- `resolveLocal`'s walk: the innermost scope that has the name gives its slot, and
every scope inside it takes a capture of it. -/
def resolveIn (name : String) : List Scope → Option (Nat × List Scope)
  | [] => none
  | scope :: outer =>
    match scope.nameToSlot name with
    | some slot => some (slot, scope :: outer)
    | none =>
      match resolveIn name outer with
      | none => none
      | some (sourceSlot, outer) =>
        some (scope.nextSlot, { scope with
          nextSlot := scope.nextSlot + 1
          nameToSlot := Function.update scope.nameToSlot name (some scope.nextSlot)
          captures := scope.captures ++ [⟨sourceSlot, scope.nextSlot⟩] } :: outer)

namespace CompileM

def resolveLocal (name : String) : CompileM (Option Nat) := do
  let s ← get
  match resolveIn name s.scopes with
  | none => return none
  | some (slot, scopes) =>
    set { s with scopes }
    return some slot

end CompileM

/-- A name a binding form shadowed, with the slot it had. -/
abbrev Saved := String × Option Nat

def Scope.bind (scope : Scope) (name : String) : Scope :=
  { scope with
    nameToSlot := Function.update scope.nameToSlot name (some scope.nextSlot)
    nextSlot := scope.nextSlot + 1 }

def Scope.unbind (scope : Scope) (saved : Saved) : Scope :=
  { scope with nameToSlot := Function.update scope.nameToSlot saved.1 saved.2 }

namespace CompileM

/-- `BindingRestore::bind`: a fresh slot for the name, and what undoes it. -/
def bind (name : String) : CompileM (Nat × Saved) := do
  match (← get).scopes with
  | [] => throw (.outOfRange "no scope")
  | scope :: _ =>
    onTopScope (·.bind name)
    return (scope.nextSlot, (name, scope.nameToSlot name))

/-- `~BindingRestore`: the last binding is undone first. -/
def restore (saved : List Saved) : CompileM Unit :=
  onTopScope fun scope => saved.foldr (fun b scope => scope.unbind b) scope

end CompileM

end ProtoClojure
