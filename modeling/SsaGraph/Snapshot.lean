import SsaGraph.Program

/-!
# Snapshots

The observable state of a program, row by row: the layouts, then every function, block and value in
the order of the handles. Two snapshots are compared to find what an edit touched.
-/
namespace SsaGraph

inductive Row where
  | layout (name : String) (functions globals : List ValueId)
  | func (id : FuncId) (func : Func)
  | block (id : BlockId) (block : Block)
  | value (id : ValueId) (value : Value)
  deriving DecidableEq

namespace Row

def layoutOf (p : Program) : Row := .layout p.name p.functions p.globals

/-- The row of the same subject in another program. -/
def counterpart? (p : Program) : Row → Option Row
  | .layout .. => some (layoutOf p)
  | .func id _ => p.graph.functions[id]?.map (.func id)
  | .block id _ => p.graph.blocks[id]?.map (.block id)
  | .value id _ => p.graph.values[id]?.map (.value id)

end Row

namespace Program

/-- All rows of a program. -/
def rows (p : Program) : List Row :=
  Row.layoutOf p
    :: p.graph.functions.toList.map (fun (id, f) => .func id f)
    ++ p.graph.blocks.toList.map (fun (id, b) => .block id b)
    ++ p.graph.values.toList.map (fun (id, v) => .value id v)

/-- The rows that are new or different since `before`. -/
def changedRows (before after : Program) : List Row :=
  after.rows.filter fun row => row.counterpart? before ≠ some row

end Program

end SsaGraph
