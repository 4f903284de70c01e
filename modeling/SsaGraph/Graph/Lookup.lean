import SsaGraph.Graph

/-!
# Looking things up

What stands in a slot, where an instruction is attached, and what a load reads.

Also called: `inst_bb` (`instBlock`), `inst_func` (`instFunc`), `load_ty` (`loadTy`).
-/
namespace SsaGraph.Graph

/-- The operand in a slot of a value. -/
def operand (g : Graph) (user : ValueId) (index : Nat) : Except Fault ValueId := do
  (← g.value user).operand index

/-- The block of an instruction, if it is attached. -/
def instBlock (g : Graph) (inst : ValueId) : Except Fault (Option BlockId) := do
  return (← g.value inst).parent

/-- The function of an instruction, if it is attached. -/
def instFunc (g : Graph) (inst : ValueId) : Except Fault (Option FuncId) := do
  match ← g.instBlock inst with
  | none => return none
  | some block => return some (← g.block block).function

/-- The type that a load reads: what its source points to. -/
def loadTy (g : Graph) (load : ValueId) : Except Fault Ty := do
  let v ← g.value load
  require (v.kind = .load) .expectedLoad
  let src ← g.value (← v.operand 0)
  match src.ty.pointee? with
  | some ty => return ty
  | none => throw .loadSource

end SsaGraph.Graph
