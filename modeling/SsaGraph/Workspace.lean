import SsaGraph.Program

/-!
# Edits and workspaces

An `Edit` is one change to a program, named by handles that may or may not exist. A `Workspace` is a
program under edit together with the entries that were removed from it and can be inserted again.

`Workspace.apply` performs one edit. It faults, or it answers: with a reply, or with a refusal. Every
answer comes with the workspace it leaves.

Also called: `new_func` (`define`), `new_decl` (`declare`), `new_global` (`addGlobal`), `basic_block`
(`addBlock`). The other edits have the names of the operations on graphs that they perform.
-/
namespace SsaGraph

inductive Edit where
  | define (name : String) (params : List (Option String × Ty)) (ret : Ty)
  | declare (name : String) (params : List Ty) (ret : Ty)
  | addGlobal (name : String) (ty : Ty) (isConst : Bool) (init : ValueId)
  | addBlock (func : FuncId) (name : Option String)
  | build (draft : Draft) (spot : Option BlockId)
  /-- Inserts the entry that was removed under the handle. -/
  | reinsert (removed : ValueId) (spot : Option BlockId)
  | rename (value : ValueId) (name : Option String)
  | setOperand (user : ValueId) (index : Nat) (value : ValueId)
  | replaceAllUses (old new : ValueId)
  | addIncoming (phi value : ValueId) (block : BlockId)
  | removeValue (value : ValueId)
  | removeInst (inst : ValueId)
  | attach (inst : ValueId) (block : BlockId)
  | detach (inst : ValueId)
  deriving DecidableEq, Repr

/-- What a successful edit answers. -/
inductive Reply where
  | done
  /-- The handle of what was created, of the former operand, or of the former block. -/
  | handle (id : ValueId)
  /-- The entry that was removed. -/
  | removed (value : Value)
  deriving DecidableEq

structure Workspace where
  program : Program
  /-- Removed entries under the handles they had. -/
  removed : Table Value := ∅
  deriving DecidableEq

namespace Workspace

def withGraph (w : Workspace) (graph : Graph) : Workspace :=
  { w with program := { w.program with graph } }

/-- The entry removed under the handle. -/
def removedEntry (w : Workspace) (v : ValueId) : Except Fault Value :=
  w.removed.fetch v .nothingRemoved

/-- The workspace after a removal, which keeps the removed entry. -/
def keepRemoved (w : Workspace) (v : ValueId) :
    Except Refusal Value × Graph → Except Refusal Reply × Workspace
  | (.ok entry, g) => (.ok (.removed entry), { w.withGraph g with removed := w.removed.insert v entry })
  | (.error reason, g) => (.error reason, w.withGraph g)

/-- Performs one edit. -/
def apply (w : Workspace) : Edit → Except Fault (Except Refusal Reply × Workspace)
  | .define name params ret => do
    let (id, program) ← w.program.define name params ret
    return (.ok (.handle id), { w with program })
  | .declare name params ret => do
    let (id, program) ← w.program.declare name params ret
    return (.ok (.handle id), { w with program })
  | .addGlobal name ty isConst init => do
    let (id, program) ← w.program.addGlobal name ty isConst init
    return (.ok (.handle id), { w with program })
  | .addBlock func name => do
    let (id, g) ← w.program.graph.createBlock func name
    return (.ok (.handle id), w.withGraph g)
  | .build draft spot => do
    let (id, g) ← w.program.graph.build draft spot
    return (.ok (.handle id), w.withGraph g)
  | .reinsert v spot => do
    let entry ← w.removedEntry v
    let (id, g) ← w.program.graph.reinsert entry spot
    return (.ok (.handle id), { w.withGraph g with removed := w.removed.erase v })
  | .rename v name => do
    let g ← w.program.graph.rename v name
    return (.ok .done, w.withGraph g)
  | .setOperand user index value => do
    let (answer, g) ← w.program.graph.setOperand user index value
    return (answer.map .handle, w.withGraph g)
  | .replaceAllUses old new => do
    let (answer, g) ← w.program.graph.replaceAllUses old new
    return (answer.map fun _ => .done, w.withGraph g)
  | .addIncoming phi value block => do
    let g ← w.program.graph.addIncoming phi value block
    return (.ok .done, w.withGraph g)
  | .removeValue v => do
    return w.keepRemoved v (← w.program.graph.removeValue v)
  | .removeInst v => do
    return w.keepRemoved v (← w.program.graph.removeInst v)
  | .attach inst block => do
    let (answer, g) ← w.program.graph.attach inst block
    return (answer.map fun _ => .done, w.withGraph g)
  | .detach inst => do
    let (answer, g) ← w.program.graph.detach inst
    return (answer.map .handle, w.withGraph g)

end Workspace

end SsaGraph
