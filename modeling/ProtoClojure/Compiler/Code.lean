import ProtoClojure.Runtime.BytecodeModule

/-! The shapes the compiler emits, as trees: jumps are implicit, and `flatten` lays a
tree out as instructions. -/
namespace ProtoClojure

inductive Code where
  | nil
  | ins (w : Instr)
  | member (argc sym : Nat)              -- `CALL_MEMBER` and its data word
  | seq (a b : Code)
  | skipIf (op : Op) (a : Code)          -- a conditional jump over `a`
  | branch (a b : Code)                  -- `JUMP_IF_FALSE` to `b`; `a` jumps over it
  | loop (body : Code)                   -- the target of the `recur`s inside
  | recur
  | protect (body after handler : Code)  -- the handler guards `body`
  deriving Repr

namespace Code

def len : Code → Nat
  | nil => 0
  | ins _ => 1
  | member _ _ => 2
  | seq a b => a.len + b.len
  | skipIf _ a => a.len + 1
  | branch a b => a.len + b.len + 2
  | loop body => body.len
  | recur => 1
  | protect body after handler => body.len + after.len + handler.len + 3

/-- The instructions of a tree whose first one is `k` instructions past the start of the
enclosing loop's body. -/
def flatten : Nat → Code → List Instr
  | _, nil => []
  | _, ins w => [w]
  | _, member argc sym => [⟨.callMember, argc⟩, ⟨.nop, sym⟩]
  | k, seq a b => a.flatten k ++ b.flatten (k + a.len)
  | k, skipIf op a => ⟨op, a.len⟩ :: a.flatten (k + 1)
  | k, branch a b =>
    ⟨.jumpIfFalse, a.len + 1⟩ :: (a.flatten (k + 1) ++
      ⟨.jump, b.len⟩ :: b.flatten (k + a.len + 2))
  | _, loop body => body.flatten 0
  | k, recur => [⟨.jumpBack, k + 1⟩]
  | k, protect body after handler =>
    ⟨.tryBegin, body.len + after.len + 2⟩ :: (body.flatten (k + 1) ++
      ⟨.tryEnd, 0⟩ :: (after.flatten (k + body.len + 2) ++
        ⟨.jump, handler.len⟩ :: handler.flatten (k + body.len + after.len + 3)))

@[simp] theorem flatten_length (c : Code) (k : Nat) : (c.flatten k).length = c.len := by
  induction c generalizing k with
  | nil | ins | member | recur => rfl
  | seq a b iha ihb => simp [flatten, len, iha, ihb]
  | skipIf op a ih => simp [flatten, len, ih]
  | branch a b iha ihb =>
    simp only [flatten, len, List.length_cons, List.length_append, iha, ihb]
    omega
  | loop body ih => exact ih 0
  | protect body after handler ihb iha ihh =>
    simp only [flatten, len, List.length_cons, List.length_append, ihb, iha, ihh]
    omega

/-- A run of instructions. -/
def block : List Instr → Code
  | [] => nil
  | w :: rest => seq (ins w) (block rest)

def stores (slots : List Nat) : Code := block (slots.map fun s => ⟨.storeLocal, s⟩)

def pushes (captures : List CaptureSpec) : Code :=
  block (captures.map fun c => ⟨.pushLocal, c.parentSlot⟩)

theorem flatten_block (ws : List Instr) (k : Nat) : (block ws).flatten k = ws := by
  induction ws generalizing k with
  | nil => rfl
  | cons w rest ih => simp [block, flatten, ih]

end Code

end ProtoClojure
