import SsaGraph.Graph.Edges

/-!
# Placing instructions

An instruction is attached to one block or to none. In the list of a block the phis come first, in
the order of their attachment, and everything else follows in the order of its attachment. Attaching
a branch records its edges and detaching it forgets those that no other branch of the block needs.

An operation that may refuse returns its answer together with the graph it leaves.

Also called: `push_inst` (`place`, with `insertInst` for the list), `attach_inst` (`attach`), `detach_inst`
(`detach`).
-/
namespace SsaGraph.Graph

/-- The leading phis of an instruction list, and the rest. -/
def splitPhis (g : Graph) : List ValueId → Except Fault (List ValueId × List ValueId)
  | [] => .ok ([], [])
  | inst :: rest => do
    let v ← g.value inst
    if v.kind = .phi then
      let (phis, others) ← g.splitPhis rest
      return (inst :: phis, others)
    else
      return ([], inst :: rest)

/-- Adds handles to the end of a list one by one, and stops at the first that is in the list already;
whether all of them went in, and the list. -/
def pushKeys (list : List ValueId) : List ValueId → Bool × List ValueId
  | [] => (true, list)
  | key :: keys => if key ∈ list then (false, list) else pushKeys (list ++ [key]) keys

/-- Adds `inst` to an instruction list at the end of its group. For a phi, what follows the phis is
taken out of the list and put back behind it. -/
def insertInst (g : Graph) (inst : ValueId) (isPhi : Bool) (insts : List ValueId) :
    Except Fault (Bool × List ValueId) := do
  if isPhi then
    let (phis, others) ← g.splitPhis insts
    return pushKeys phis (inst :: others)
  else
    return pushKeys insts [inst]

/-- Puts a detached instruction into the list of the block and records the edges of a branch. -/
def place (g : Graph) (inst : ValueId) (block : BlockId) :
    Except Fault (Except Refusal Unit × Graph) := do
  let v ← g.value inst
  let targets ← targetsOf v
  let b ← g.block block
  let (fits, insts) ← g.insertInst inst (v.kind = .phi) b.insts
  let g ← g.updateBlock block fun b => { b with insts }
  if fits = false then
    return (.error (.alreadyAttached inst block), g)
  let g ← g.updateValue inst fun v => { v with parent := some block }
  let g ← g.linkAll block targets
  return (.ok (), g)

/-- Attaches a detached instruction to a block. -/
def attach (g : Graph) (inst : ValueId) (block : BlockId) :
    Except Fault (Except Refusal Unit × Graph) := do
  let v ← g.value inst
  if v.kind.isInst = false then
    return (.error (.notInstruction inst), g)
  match v.parent with
  | some current => return (.error (.alreadyAttached inst current), g)
  | none =>
    require (block ∈ g.blocks) .unknownBlock
    g.place inst block

/-- Detaches an instruction from its block, which is the answer. -/
def detach (g : Graph) (inst : ValueId) : Except Fault (Except Refusal BlockId × Graph) := do
  let v ← g.value inst
  if v.kind.isInst = false then
    return (.error (.notInstruction inst), g)
  match v.parent with
  | none => throw .notAttached
  | some block =>
    let g ← (← targetsOf v).foldlM (fun g dst => g.unlinkUnused block dst (some inst)) g
    let g ← g.updateBlock block fun b => { b with insts := b.insts.filter (· ≠ inst) }
    let g ← g.updateValue inst fun v => { v with parent := none }
    return (.ok block, g)

end SsaGraph.Graph
