import SsaGraph.Value

/-!
# Graphs

A graph has three tables over one sequence of handles. `values` has every live value; `blocks` has,
for each block, its function, its instructions in order and its control flow edges; `functions` has,
for each function, its type, parameters and blocks. Operands point from a value to others, and each
value knows the slots that point back at it.

The operations here look an entry up, change one entry, and create a value. `SsaGraph.Graph.Edges`,
`Placement`, `Rewiring` and `Removal` are built from them.

Also called: `bb` (`block`), `bb_mut` (`updateBlock`), `func_mut` (`updateFunc`), `next_value_id` (the
check against `handleLimit`), `new_value_data` (`create`), `check_name` (`checkName`), `set_value_name`
(`rename`); of a function, `ret_ty` (`Func.ret`).
-/
namespace SsaGraph

structure Block where
  function : FuncId
  insts : List ValueId := []
  preds : List BlockId := []
  succs : List BlockId := []
  deriving DecidableEq, Repr

namespace Block

/-- Adds a predecessor at the end unless it is there already. -/
def addPred (p : BlockId) (b : Block) : Block :=
  if p ∈ b.preds then b else { b with preds := b.preds ++ [p] }

/-- Adds a successor at the end unless it is there already. -/
def addSucc (s : BlockId) (b : Block) : Block :=
  if s ∈ b.succs then b else { b with succs := b.succs ++ [s] }

def dropPred (p : BlockId) (b : Block) : Block :=
  { b with preds := b.preds.filter (· ≠ p) }

def dropSucc (s : BlockId) (b : Block) : Block :=
  { b with succs := b.succs.filter (· ≠ s) }

end Block

structure Func where
  ty : Ty
  /-- One value per parameter; a declaration has none. -/
  params : List ValueId
  isDecl : Bool
  blocks : List BlockId := []
  deriving DecidableEq, Repr

namespace Func

def ret (f : Func) : Except Fault Ty :=
  match f.ty.ret? with
  | some r => .ok r
  | none => .error .functionType

/-- The number of declared parameters. -/
def arity (f : Func) : Nat := (f.ty.params?.getD []).length

end Func

structure Graph where
  values : Table Value := ∅
  blocks : Table Block := ∅
  functions : Table Func := ∅
  /-- The handle of the next value. -/
  next : ValueId := 1
  deriving DecidableEq

namespace Graph

/-! ## Entries -/

def value (g : Graph) (v : ValueId) : Except Fault Value := g.values.fetch v .missingValue

def block (g : Graph) (b : BlockId) : Except Fault Block := g.blocks.fetch b .missingBlock

def func (g : Graph) (f : FuncId) : Except Fault Func := g.functions.fetch f .missingFunction

def updateValue (g : Graph) (v : ValueId) (change : Value → Value) : Except Fault Graph := do
  let entry ← g.value v
  return { g with values := g.values.insert v (change entry) }

def updateBlock (g : Graph) (b : BlockId) (change : Block → Block) : Except Fault Graph := do
  let entry ← g.block b
  return { g with blocks := g.blocks.insert b (change entry) }

def updateFunc (g : Graph) (f : FuncId) (change : Func → Func) : Except Fault Graph := do
  let entry ← g.func f
  return { g with functions := g.functions.insert f (change entry) }

theorem value_eq_ok {g : Graph} {v : ValueId} {entry : Value} :
    g.value v = .ok entry ↔ g.values[v]? = some entry :=
  Table.fetch_eq_ok

theorem block_eq_ok {g : Graph} {b : BlockId} {entry : Block} :
    g.block b = .ok entry ↔ g.blocks[b]? = some entry :=
  Table.fetch_eq_ok

theorem func_eq_ok {g : Graph} {f : FuncId} {entry : Func} :
    g.func f = .ok entry ↔ g.functions[f]? = some entry :=
  Table.fetch_eq_ok

/-! ## Uses -/

/-- Enters `user` into the use set of each of the given operands, from slot 0 on. -/
def addUses (g : Graph) (user : ValueId) (operands : List ValueId) : Except Fault Graph :=
  operands.zipIdx.foldlM (fun g (op, i) => g.updateValue op (Value.addUse ⟨user, i⟩)) g

/-- Takes `user` out of the use set of each of the given operands, from slot 0 on. -/
def dropUses (g : Graph) (user : ValueId) (operands : List ValueId) : Except Fault Graph :=
  operands.zipIdx.foldlM (fun g (op, i) => g.updateValue op (Value.dropUse ⟨user, i⟩)) g

/-! ## Creation -/

/-- Handles are 32-bit numbers, and the counter has to stay one. -/
def handleLimit : Nat := UInt32.size

/-- Enters a new value under the next handle. All its operands have to exist. -/
def create (g : Graph) (v : Value) : Except Fault (ValueId × Graph) := do
  let id := g.next
  require (id + 1 < handleLimit) .tooManyValues
  let g ← { g with next := id + 1 }.addUses id v.operands
  return (id, { g with values := g.values.insert id v })

/-! ## Names -/

/-- A name is written after a sigil, so it is not empty and does not start with one. -/
def validName (name : String) : Bool :=
  match name.toList with
  | [] => false
  | c :: _ => c ≠ '%' ∧ c ≠ '@'

def checkName (name : String) : Except Fault Unit :=
  require (validName name = true) (.invalidName name)

/-- Names a value, or takes its name away. -/
def rename (g : Graph) (v : ValueId) (name : Option String) : Except Fault Graph := do
  let _ ← g.value v
  name.forM checkName
  g.updateValue v fun entry => { entry with name }

/-- Creates a value and names it. -/
def createNamed (g : Graph) (v : Value) (name : Option String) : Except Fault (ValueId × Graph) := do
  let (id, g) ← g.create v
  return (id, ← g.rename id name)

end Graph

end SsaGraph
