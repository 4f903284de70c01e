import SsaGraph.Graph

/-!
# Constant folding

A binary operator or a comparison whose operands are integer constants has a result that is known
without running anything.

Also called: `const_int` (`constInt`), `is_foldable` (`isFoldable`).
-/
namespace SsaGraph.Graph

/-- The payload of an integer constant, nothing for any other value. -/
def constInt (g : Graph) (v : ValueId) : Except Fault (Option Int32) := do
  return (← g.value v).kind.payload?

/-- Whether the value is a binary operator or a comparison of constants. -/
def isFoldable (g : Graph) (inst : ValueId) : Except Fault Bool := do
  let v ← g.value inst
  match v.kind with
  | .binary _ | .compare _ =>
    v.operands.allM fun op => do return (← g.constInt op).isSome
  | _ => return false

/-- What the operator of a value computes; comparisons give 0 or 1. -/
def evalKind : Kind → Int32 → Int32 → Option Int32
  | .binary op, a, b => some (op.eval a b)
  | .compare op, a, b => some (if op.eval a b then 1 else 0)
  | _, _, _ => none

/-- The known result of an instruction, nothing if it is not foldable. -/
def fold (g : Graph) (inst : ValueId) : Except Fault (Option Int32) := do
  let v ← g.value inst
  match v.operands with
  | [lhs, rhs] =>
    match ← g.constInt lhs with
    | none => return none
    | some a =>
      match ← g.constInt rhs with
      | none => return none
      | some b => return evalKind v.kind a b
  | _ => return none

end SsaGraph.Graph
