import ProtoClojure.Compiler.Form
import Mathlib.Algebra.Ring.Nat
import Mathlib.Data.List.Basic

/-! Instructions, the constant pool and the module a function body compiles to, with
the operand-stack analysis over its finished code. -/
namespace ProtoClojure

inductive Op where
  | nop | pushConst | pushVar | call | pop | ret
  | storeGlobal | jump | jumpIfFalse | pushNil | pushTrue | pushFalse
  | pushLocal | storeLocal | makeFn | jumpBack
  | callApply
  | dup | jumpIfTrue | makeFnMulti
  | add | sub | mul | lt | le | gt | ge | eq
  | callKw
  | tryBegin | tryEnd | throw | excMatch
  | rethrow | excMatchType | resolveClass | getMember | callMember
  | pushLocalClear | storeCaught | line
  deriving DecidableEq, Repr, Inhabited

/-- An instruction word, decoded: the opcode in its low 8 bits, the operand above. -/
structure Instr where
  op : Op
  operand : Nat
  deriving DecidableEq, Repr, Inhabited

def kMaxOperand : Nat := 16777215

inductive Const where
  | long (v : Int)
  | bigInteger (v : Int)           -- beyond a long long, kept as its decimal digits
  | double (bits : UInt64)
  | string (s : String)
  | symbol (s : String)
  | named (s : String)
  | datum (f : Form)
  deriving Repr, Inhabited

structure CaptureSpec where
  parentSlot : Nat
  localSlot : Nat
  deriving DecidableEq, Repr

structure KwKey where
  name : String
  localSlot : Nat
  deriving DecidableEq, Repr

structure BytecodeModule where
  code : List Instr := []
  consts : List Const := []
  blocks : List BytecodeModule := []
  arityGroups : List (List Nat) := []
  captureSpecs : List CaptureSpec := []
  arity : Nat := 0
  localCount : Nat := 0
  isVariadic : Bool := false
  hasHandlers : Bool := false
  isKwBased : Bool := false
  asSlot : Option Nat := none
  kwKeys : List KwKey := []
  debugInfo : Bool := false        -- whether it carries debug information
  deriving Repr, Inhabited

namespace BytecodeModule

def captureCount (m : BytecodeModule) : Nat := m.captureSpecs.length

/-- The index of the constant `key` selects, appended first when there is none. -/
def findOrAdd (m : BytecodeModule) (key : Const → Bool) (c : Const) : Nat × BytecodeModule :=
  match m.consts.findIdx? key with
  | some i => (i, m)
  | none => (m.consts.length, { m with consts := m.consts ++ [c] })

def addLong (m : BytecodeModule) (v : Int) : Nat × BytecodeModule :=
  m.findOrAdd (fun | .long v' => v' == v | _ => false) (.long v)

def addBigInteger (m : BytecodeModule) (v : Int) : Nat × BytecodeModule :=
  m.findOrAdd (fun | .bigInteger v' => v' == v | _ => false) (.bigInteger v)

def addDouble (m : BytecodeModule) (bits : UInt64) : Nat × BytecodeModule :=
  m.findOrAdd (fun | .double b => b == bits | _ => false) (.double bits)

def addString (m : BytecodeModule) (s : String) : Nat × BytecodeModule :=
  m.findOrAdd (fun | .string s' => s' == s | _ => false) (.string s)

def addSymbol (m : BytecodeModule) (s : String) : Nat × BytecodeModule :=
  m.findOrAdd (fun | .symbol s' => s' == s | _ => false) (.symbol s)

def addNamed (m : BytecodeModule) (s : String) : Nat × BytecodeModule :=
  m.findOrAdd (fun | .named s' => s' == s | _ => false) (.named s)

/-- De-duplicated by identity in the source: every occurrence in a form is an object of
its own here. -/
def addDatum (m : BytecodeModule) (f : Form) : Nat × BytecodeModule :=
  m.findOrAdd (fun _ => false) (.datum f)

def addBlock (m sub : BytecodeModule) : Nat × BytecodeModule :=
  (m.blocks.length, { m with blocks := m.blocks ++ [sub] })

def addArityGroup (m : BytecodeModule) (blockIndices : List Nat) : Nat × BytecodeModule :=
  (m.arityGroups.length, { m with arityGroups := m.arityGroups ++ [blockIndices] })

def pos (m : BytecodeModule) : Nat := m.code.length

/-- Replaces the opcode at `i`, keeping its operand. -/
def patchOp (m : BytecodeModule) (i : Nat) (op : Op) : BytecodeModule :=
  { m with code := m.code.modify i fun w => { w with op } }

/-- The captures `MAKE_FN` of a block takes off the stack. -/
def blockCaptures (m : BytecodeModule) (b : Nat) : Nat :=
  (m.blocks[b]?.map captureCount).getD 0

def groupCaptures (m : BytecodeModule) (g : Nat) : Nat :=
  (((m.arityGroups[g]?).getD []).map m.blockCaptures).sum

/-! ### `computeMaxStack` -/

structure StackAnalysis where
  depth : Nat → Option Int
  work : List Nat                  -- the back of the work list first
  deepest : Int

def reach (m : BytecodeModule) (a : StackAnalysis) (at' : Nat) (d : Int) : StackAnalysis :=
  if at' ≥ m.code.length ∨ d < 0 then a
  else if d ≤ (a.depth at').getD (-1) then a
  else { a with depth := Function.update a.depth at' (some d), work := at' :: a.work }

/-- The depth after an instruction that falls through to the next one. -/
def after (m : BytecodeModule) (w : Instr) (d : Int) : Int :=
  match w.op with
  | .pushConst | .pushVar | .pushNil | .pushTrue | .pushFalse | .pushLocal | .pushLocalClear
  | .dup | .resolveClass => d + 1
  | .pop | .storeLocal | .storeCaught | .add | .sub | .mul | .lt | .le | .gt | .ge | .eq
  | .callApply | .excMatchType | .jumpIfFalse | .jumpIfTrue => d - 1
  | .call | .callKw | .callMember => d - w.operand
  | .makeFn => d + 1 - m.blockCaptures w.operand
  | .makeFnMulti => d + 1 - m.groupCaptures w.operand
  | _ => d

/-- Whether the instruction after this one is a successor. -/
def fallsThrough : Op → Bool
  | .jump | .jumpBack | .ret | .throw | .rethrow => false
  | _ => true

/-- The successor a jump or a handler entry adds, with its depth. -/
def jumpEdge (w : Instr) (i : Nat) (d : Int) : Option (Nat × Int) :=
  match w.op with
  | .jump => some (i + 1 + w.operand, d)
  | .jumpBack => if w.operand ≤ i + 1 then some (i + 1 - w.operand, d) else none
  | .jumpIfFalse | .jumpIfTrue => some (i + 1 + w.operand, d - 1)
  | .tryBegin => some (i + 1 + w.operand, d + 1)
  | _ => none

/-- One turn of the work-list loop, at the position just taken from it. -/
def visit (m : BytecodeModule) (a : StackAnalysis) (i : Nat) : StackAnalysis :=
  match m.code[i]?, a.depth i with
  | some w, some d =>
    let a := { a with deepest := max a.deepest d }
    let a := match jumpEdge w i d with
      | some (t, d') => m.reach a t d'
      | none => a
    if fallsThrough w.op then
      m.reach { a with deepest := max a.deepest (m.after w d) } (i + 1) (m.after w d)
    else a
  | _, _ => a

/-- The loop, for at most `fuel` turns. -/
def analyse (m : BytecodeModule) : Nat → StackAnalysis → Option StackAnalysis
  | 0, _ => none
  | fuel + 1, a =>
    match a.work with
    | [] => some a
    | i :: work => analyse m fuel (m.visit { a with work } i)

def analysisStart (m : BytecodeModule) : StackAnalysis :=
  m.reach { depth := fun _ => none, work := [], deepest := 0 } 0 0

def computeMaxStack (m : BytecodeModule) (fuel : Nat) : Option Nat :=
  (m.analyse fuel m.analysisStart).map fun a => a.deepest.toNat

end BytecodeModule

end ProtoClojure
