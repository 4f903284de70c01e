import SsaGraph.Fault
import SsaGraph.Operator

/-!
# Values

A value is a constant, a parameter, a global, a function, a block or an instruction. Its `Kind` holds
what is not an operand: a payload, an operator, the allocated type. Operands stand in numbered slots,
the same way for every kind:

* a binary operator, a comparison: left, right;
* a call: callee, then the arguments;
* a branch: either one target, or condition, true target, false target;
* a return: nothing, or the result;
* an element pointer: base pointer, then the indices;
* a store: value, destination; a load: source; an extension: the value; a global: its initial value;
* a phi: incoming value, incoming block, and so on in pairs.

Some slots hold only blocks or only functions (`Value.isBlockSlot`, `Value.isCalleeSlot`). The
questions below fault when they are put to the wrong kind of value.
-/
namespace SsaGraph

inductive Kind where
  | integer (value : Int32)
  | undef
  | param (index : Nat)
  | global (isConst : Bool)
  | function
  | block
  | binary (op : BinaryOp)
  | compare (op : CompareOp)
  | call
  | branch
  | ret
  | elemPtr (elem : Ty)
  | store
  | load
  | alloca (ty : Ty)
  | zext (ty : Ty)
  | phi
  deriving DecidableEq, Repr

namespace Kind

/-- The opcode of an instruction; nothing for any other kind. -/
def opcode? : Kind → Option Opcode
  | binary op => some op.opcode
  | compare _ => some .cmp
  | call => some .call
  | branch => some .br
  | ret => some .ret
  | elemPtr _ => some .elemPtr
  | store => some .store
  | load => some .load
  | alloca _ => some .alloca
  | zext _ => some .zext
  | phi => some .phi
  | _ => none

def isInst (k : Kind) : Bool := k.opcode?.isSome

def isConst : Kind → Bool
  | integer _ | undef => true
  | _ => false

def isTerminator : Kind → Bool
  | branch | ret => true
  | _ => false

/-- Functions and globals are seen from the whole program, all else only inside a function. -/
def isGlobal : Kind → Bool
  | function | global _ => true
  | _ => false

/-- The payload of an integer constant. -/
def payload? : Kind → Option Int32
  | integer value => some value
  | _ => none

end Kind

structure Value where
  ty : Ty
  kind : Kind
  operands : List ValueId := []
  name : Option String := none
  /-- The block whose list holds this instruction; none while it is detached. -/
  parent : Option BlockId := none
  /-- The operand slots that hold this value. -/
  uses : UseSet := ∅
  deriving DecidableEq

namespace Value

/-! ## Changes to one value -/

def addUse (u : Use) (v : Value) : Value := { v with uses := v.uses.insert u }

def dropUse (u : Use) (v : Value) : Value := { v with uses := v.uses.erase u }

def setOperand (index : Nat) (operand : ValueId) (v : Value) : Value :=
  { v with operands := v.operands.set index operand }

def pushOperand (operand : ValueId) (v : Value) : Value :=
  { v with operands := v.operands ++ [operand] }

/-! ## Slots -/

/-- The operand in the slot. -/
def operand (v : Value) (index : Nat) : Except Fault ValueId :=
  match v.operands[index]? with
  | some operand => .ok operand
  | none => .error (.slotIndex v.operands.length index)

/-- Whether the slot holds a branch target or the block of an incoming pair. -/
def isBlockSlot (v : Value) (index : Nat) : Bool :=
  match v.kind with
  | .branch => v.operands.length ≠ 3 ∨ index ≠ 0
  | .phi => index % 2 = 1
  | _ => false

/-- Whether the slot holds the callee of a call. -/
def isCalleeSlot (v : Value) (index : Nat) : Bool :=
  v.kind = .call ∧ index = 0

/-- The values with a use here, ascending and without repetition. -/
def users (v : Value) : List ValueId :=
  (v.uses.toList.map Use.user).eraseDups

def isVoid (v : Value) : Bool := v.ty = .void

/-! ## Branches and returns -/

/-- Whether the branch has a condition, which is when it has three operands. -/
def isConditional (v : Value) : Except Fault Bool := do
  require (v.kind = .branch) .expectedBranch
  return v.operands.length = 3

/-- The only target, or the one taken when the condition holds. -/
def trueTarget (v : Value) : Except Fault BlockId := do
  if ← v.isConditional then v.operand 1 else v.operand 0

/-- The target taken when the condition does not hold. -/
def falseTarget (v : Value) : Except Fault BlockId := do
  require ((← v.isConditional) = true) .expectedConditional
  v.operand 2

/-- All targets of a branch, the true target first. -/
def targets (v : Value) : Except Fault (List BlockId) := do
  if ← v.isConditional then
    return [← v.trueTarget, ← v.falseTarget]
  else
    return [← v.trueTarget]

def isVoidReturn (v : Value) : Except Fault Bool := do
  require (v.kind = .ret) .expectedReturn
  return v.operands.isEmpty

/-! ## Calls -/

def callee (v : Value) : Except Fault FuncId := do
  require (v.kind = .call) .expectedCall
  v.operand 0

/-- The operands after the callee. -/
def args (v : Value) : Except Fault (List ValueId) := do
  require (v.kind = .call) .expectedCall
  match v.operands with
  | [] => throw (.slotStart 0 1)
  | _ :: args => return args

/-! ## Phis -/

/-- Neighbours two by two; an odd last element is left out. -/
def pairUp : List ValueId → List (ValueId × BlockId)
  | value :: block :: rest => (value, block) :: pairUp rest
  | _ => []

/-- The incoming values with their blocks. -/
def incomings (v : Value) : Except Fault (List (ValueId × BlockId)) := do
  require (v.kind = .phi) .expectedPhi
  return pairUp v.operands

end Value

end SsaGraph
