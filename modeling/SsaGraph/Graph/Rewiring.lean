import SsaGraph.Graph.Edges

/-!
# Rewiring operands

Writing an operand slot moves one use from the old operand to the new one. When the slot is a target
of an attached branch, the control flow edge moves with it.

`replaceAllUses` writes every slot that holds a value. Which slot comes first is of no consequence
beyond the order inside predecessor and successor lists; `replaceUses` takes the order as a list.

Also called: `check_slot` (`slotRefusal?`), `write_operand` (`writeOperand`), `set_operand` (`setOperand`),
`replace_all_uses_with` (`replaceAllUses`), `push_operand` (`pushOperand`), `add_incoming` (`addIncoming`).
-/
namespace SsaGraph.Graph

/-- Why the slot can not hold the value, if it can not. -/
def slotRefusal? (g : Graph) (user : ValueId) (index : Nat) (value : ValueId) :
    Except Fault (Option Refusal) := do
  let v ← g.value user
  if v.operands.length ≤ index then
    return some (.operandOutOfRange user index v.operands.length)
  else if v.isBlockSlot index = true ∧ value ∉ g.blocks then
    return some (.notBlock value)
  else if v.isCalleeSlot index = true ∧ value ∉ g.functions then
    return some (.notFunction value)
  else
    return none

/-- The block whose edges change when the slot is written: the slot is a target of an attached
branch. -/
def edgeSource? (v : Value) (index : Nat) : Option BlockId :=
  if v.kind = .branch ∧ v.isBlockSlot index = true then v.parent else none

/-- Writes the slot and returns what it held before. -/
def writeOperand (g : Graph) (user : ValueId) (index : Nat) (value : ValueId) :
    Except Fault (ValueId × Graph) := do
  let v ← g.value user
  let old ← v.operand index
  if old = value then
    return (old, g)
  let g ← g.updateValue user (Value.setOperand index value)
  let g ← g.updateValue old (Value.dropUse ⟨user, index⟩)
  let g ← g.updateValue value (Value.addUse ⟨user, index⟩)
  match edgeSource? v index with
  | none => return (old, g)
  | some block =>
    let g ← g.unlinkUnused block old none
    let g ← g.link block value
    return (old, g)

/-- Writes one operand slot and answers with what it held before. -/
def setOperand (g : Graph) (user : ValueId) (index : Nat) (value : ValueId) :
    Except Fault (Except Refusal ValueId × Graph) := do
  require (value ∈ g.values) .unknownValue
  match ← g.slotRefusal? user index value with
  | some reason => return (.error reason, g)
  | none =>
    let (old, g) ← g.writeOperand user index value
    return (.ok old, g)

/-- The refusal of the first slot that can not hold the value. -/
def firstRefusal? (g : Graph) (value : ValueId) : List Use → Except Fault (Option Refusal)
  | [] => .ok none
  | u :: uses => do
    match ← g.slotRefusal? u.user u.index value with
    | some reason => return some reason
    | none => g.firstRefusal? value uses

/-- Writes all the listed slots, in the order of the list, or none of them. -/
def replaceUses (g : Graph) (uses : List Use) (new : ValueId) :
    Except Fault (Except Refusal Unit × Graph) := do
  match ← g.firstRefusal? new uses with
  | some reason => return (.error reason, g)
  | none =>
    let g ← uses.foldlM (fun g u => do return (← g.writeOperand u.user u.index new).2) g
    return (.ok (), g)

/-- Puts `new` into every slot that holds `old`. -/
def replaceAllUses (g : Graph) (old new : ValueId) :
    Except Fault (Except Refusal Unit × Graph) := do
  require (new ∈ g.values) .unknownReplacement
  if old = new then
    return (.ok (), g)
  let v ← g.value old
  g.replaceUses v.uses.toList new

/-- Adds an operand slot at the end. -/
def pushOperand (g : Graph) (user value : ValueId) : Except Fault Graph := do
  let index := (← g.value user).operands.length
  let g ← g.updateValue value (Value.addUse ⟨user, index⟩)
  g.updateValue user (Value.pushOperand value)

/-- Adds an incoming pair to a phi. -/
def addIncoming (g : Graph) (phi value : ValueId) (block : BlockId) : Except Fault Graph := do
  let p ← g.value phi
  require (p.kind = .phi) .notPhi
  require (block ∈ g.blocks) .unknownBlock
  let v ← g.value value
  require (v.ty = p.ty) .incomingType
  let g ← g.pushOperand phi value
  g.pushOperand phi block

end SsaGraph.Graph
