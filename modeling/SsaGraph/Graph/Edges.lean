import SsaGraph.Graph

/-!
# Control flow edges

There is an edge from a block to each target of each branch in its instruction list. Both ends
record it: the source under `succs`, the target under `preds`, each at most once however many
branches run along it.

Also called: `branch_targets` (`targetsOf`), `has_branch_to` (`hasBranchTo`). `linkAll` is the part of
`push_inst` that records edges, `unlinkUnused` the part of `write_operand` and `detach_inst` that forgets
one.
-/
namespace SsaGraph.Graph

/-- Records an edge. -/
def link (g : Graph) (src dst : BlockId) : Except Fault Graph := do
  let g ← g.updateBlock dst (Block.addPred src)
  g.updateBlock src (Block.addSucc dst)

/-- Forgets an edge. -/
def unlink (g : Graph) (src dst : BlockId) : Except Fault Graph := do
  let g ← g.updateBlock dst (Block.dropPred src)
  g.updateBlock src (Block.dropSucc dst)

/-- Records the edges to several targets: first at the targets in order, then at the source from
the last target to the first. -/
def linkAll (g : Graph) (src : BlockId) (targets : List BlockId) : Except Fault Graph := do
  let g ← targets.foldlM (fun g dst => g.updateBlock dst (Block.addPred src)) g
  targets.reverse.foldlM (fun g dst => g.updateBlock src (Block.addSucc dst)) g

/-- Targets of a branch, no targets for any other value. -/
def targetsOf (v : Value) : Except Fault (List BlockId) :=
  if v.kind = .branch then v.targets else .ok []

/-- Whether a branch in the list of `src`, other than `except`, has the target `dst`. -/
def hasBranchTo (g : Graph) (src dst : BlockId) (except : Option ValueId) : Except Fault Bool := do
  let b ← g.block src
  b.insts.anyM fun inst => do
    let v ← g.value inst
    if some inst = except then return false
    return dst ∈ (← targetsOf v)

/-- Forgets the edge unless a branch in the list of `src`, other than `except`, still runs along it. -/
def unlinkUnused (g : Graph) (src dst : BlockId) (except : Option ValueId) : Except Fault Graph := do
  if ← g.hasBranchTo src dst except then return g else g.unlink src dst

end SsaGraph.Graph
