import SsaGraph.Handle

/-!
# Refusals

An edit that is well formed but does not fit the current graph is refused. The graph stays as it
was and the caller may go on. Everything worse is a `SsaGraph.Fault`.
-/
namespace SsaGraph

inductive Refusal where
  /-- The user has only `len` operand slots. -/
  | operandOutOfRange (user : ValueId) (index len : Nat)
  /-- The value is held in `uses` operand slots. -/
  | valueInUse (value : ValueId) (uses : Nat)
  | notInstruction (value : ValueId)
  | alreadyAttached (inst : ValueId) (block : BlockId)
  /-- The slot holds a branch target or an incoming block, and the value is no block. -/
  | notBlock (value : ValueId)
  /-- The slot holds a callee, and the value is no function. -/
  | notFunction (value : ValueId)
  deriving DecidableEq, Repr

namespace Refusal

def valueText (v : ValueId) : String := "Value(" ++ toString v ++ ")"

def blockText (b : BlockId) : String := "BasicBlock(" ++ valueText b ++ ")"

def message : Refusal → String
  | operandOutOfRange user index len =>
    "operand index " ++ toString index ++ " is out of range for " ++ valueText user ++ " with "
      ++ toString len ++ " operands"
  | valueInUse value uses =>
    valueText value ++ " is still used by " ++ toString uses ++ " user(s)"
  | notInstruction value => valueText value ++ " is not an instruction"
  | alreadyAttached inst block =>
    "instruction " ++ valueText inst ++ " is already attached to " ++ blockText block
  | notBlock value => valueText value ++ " is not a basic block"
  | notFunction value => valueText value ++ " is not a function"

end Refusal

end SsaGraph
