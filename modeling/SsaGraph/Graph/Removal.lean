import SsaGraph.Graph.Placement

/-!
# Removing values

A value that no slot holds can be removed, unless it is a block or a function. It is detached first
if it was attached, so the removed entry has neither a parent nor uses.

Also called: `remove_value` (`removeValue`, with `discard` for its end), `remove_inst` (`removeInst`).
-/
namespace SsaGraph.Graph

/-- Takes an unused, detached value out of the graph. -/
def discard (g : Graph) (v : ValueId) : Except Fault (Value × Graph) := do
  let entry ← g.value v
  let g ← { g with values := g.values.erase v }.dropUses v entry.operands
  return (entry, g)

/-- Removes a value and answers with its last entry. -/
def removeValue (g : Graph) (v : ValueId) : Except Fault (Except Refusal Value × Graph) := do
  let entry ← g.value v
  require (entry.kind ≠ .block ∧ entry.kind ≠ .function) .pinned
  if entry.uses.isEmpty = false then
    return (.error (.valueInUse v entry.uses.size), g)
  match entry.parent with
  | none =>
    let (removed, g) ← g.discard v
    return (.ok removed, g)
  | some _ =>
    match ← g.detach v with
    | (.error reason, g) => return (.error reason, g)
    | (.ok _, g) =>
      let (removed, g) ← g.discard v
      return (.ok removed, g)

/-- Removes a value that has to be an instruction. -/
def removeInst (g : Graph) (inst : ValueId) : Except Fault (Except Refusal Value × Graph) := do
  let entry ← g.value inst
  if entry.kind.isInst = false then
    return (.error (.notInstruction inst), g)
  g.removeValue inst

end SsaGraph.Graph
