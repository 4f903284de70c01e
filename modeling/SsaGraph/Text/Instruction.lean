import SsaGraph.Diagnostic
import SsaGraph.Graph.Lookup
import SsaGraph.Naming

/-!
# Written instructions

Every instruction is written on one line:

    %n = add i32 %a, %b
    %n = cmp lt i32 %a, 0
    %n = call i32 @f(i32 %x, i32 %y)
    br i1 %c, label %then, label %else
    ret i32 %n
    %n = getelementptr [4 x i32], [4 x i32]* %arr, i32 0, i32 1
    store i32 %v, i32* %p
    %n = load i32, i32* %p
    %n = alloca i32
    %n = zext i1 %c to i32
    %n = phi i32 [ %a, %b1 ], [ %b, %b2 ]

Operands are named from left to right and the instruction itself comes last, unless a diagnostic has
to mention it before. Rendering faults when the graph does not let an instruction be written; the
names given and the diagnostics noted until then are kept.

Also called: `inst_to_string` (`instruction`), `binary_operands` (`operandPair`), `phi_entries`
(`phiEntries`).
-/
namespace SsaGraph

namespace Diagnostic

def detached : Diagnostic :=
  ⟨.warning, "printing an instruction that is not attached to any basic block"⟩

/-- An incoming pair of an attached phi names a block that is no predecessor. -/
def strayIncoming (block phi : String) : Diagnostic :=
  ⟨.error, "incoming block " ++ block ++ " of phi " ++ phi ++ " is not a predecessor"⟩

/-- An attached phi has fewer incoming pairs than its block has predecessors. -/
def incompletePhi (phi : String) : Diagnostic :=
  ⟨.warning, "phi " ++ phi
    ++ " has fewer incoming values than predecessors, completed with `undef`"⟩

end Diagnostic

namespace Text

/-- What rendering hands on from one piece of text to the next. -/
structure Pen where
  names : Names := {}
  /-- Diagnostics in the order of their appearance. -/
  notes : List Diagnostic := []

/-- Rendering gives text or faults, and leaves a pen in either case. -/
abbrev Render := ExceptT Fault (StateM Pen)

/-- Notes a diagnostic. -/
def note (d : Diagnostic) : Render Unit :=
  modify fun pen => { pen with notes := pen.notes ++ [d] }

/-- The written name of a value. -/
def nameOf (v : ValueId) (entry : Value) : Render String :=
  modifyGet fun pen =>
    let (text, names) := pen.names.name v entry
    (text, { pen with names })

/-- The written name of a value without its sigil. -/
def bareNameOf (v : ValueId) (entry : Value) : Render String :=
  modifyGet fun pen =>
    let (text, names) := pen.names.bareName v entry
    (text, { pen with names })

/-- An operand: its payload, `undef` or its name. -/
def operand (g : Graph) (v : ValueId) : Render String := do
  let entry ← g.value v
  match entry.kind with
  | .integer n => return toString n.toInt
  | .undef => return "undef"
  | _ => nameOf v entry

/-- An operand after its type. -/
def typedOperand (g : Graph) (v : ValueId) : Render String := do
  let entry ← g.value v
  return entry.ty.text ++ " " ++ (← operand g v)

/-- Operands after their types, with commas between them. -/
def typedOperands (g : Graph) (vs : List ValueId) : Render String := do
  return commas (← vs.mapM (typedOperand g))

/-- Two operands; the type of the second is left out if it is the type of the first. -/
def operandPair (g : Graph) (v : Value) : Render String := do
  let lhs ← v.operand 0
  let rhs ← v.operand 1
  let sameTy := (← g.value lhs).ty = (← g.value rhs).ty
  let left ← typedOperand g lhs
  let right ← if sameTy then operand g rhs else typedOperand g rhs
  return left ++ ", " ++ right

/-! ## Phis -/

/-- One entry per incoming pair. -/
def recordedEntries (g : Graph) (pairs : List (ValueId × BlockId)) : Render (List String) :=
  pairs.mapM fun (value, block) => do
    return "[ " ++ (← operand g value) ++ ", " ++ (← operand g block) ++ " ]"

/-- Notes every incoming pair whose block is no predecessor. -/
def noteStray (g : Graph) (phi : ValueId) (v : Value) (preds : List BlockId)
    (pairs : List (ValueId × BlockId)) : Render Unit :=
  pairs.forM fun (_, block) => do
    if block ∉ preds then
      note (.strayIncoming (← operand g block) (← nameOf phi v))

/-- Predecessors that no incoming pair names. -/
def missingPreds (preds : List BlockId) (pairs : List (ValueId × BlockId)) : List BlockId :=
  preds.filter (· ∉ pairs.map (·.2))

/-- One `undef` entry per predecessor without an incoming pair. -/
def undefEntries (g : Graph) (blocks : List BlockId) : Render (List String) :=
  blocks.mapM fun block => do
    return "[ undef, " ++ (← operand g block) ++ " ]"

/-- The entries of a phi. One with fewer pairs than its block has predecessors is completed; whether
one is complete is decided by these two numbers alone. -/
def phiEntries (g : Graph) (phi : ValueId) (v : Value) : Render (List String) := do
  let pairs ← v.incomings
  let recorded ← recordedEntries g pairs
  match v.parent with
  | none => return recorded
  | some block =>
    let preds := (← g.block block).preds
    noteStray g phi v preds pairs
    if pairs.length < preds.length then
      let added ← undefEntries g (missingPreds preds pairs)
      note (.incompletePhi (← nameOf phi v))
      return recorded ++ added
    else
      return recorded

/-! ## Instructions -/

/-- What follows the opcode. -/
def arguments (g : Graph) (inst : ValueId) (v : Value) : Render String := do
  match v.kind with
  | .binary _ => operandPair g v
  | .compare op => return op.text ++ " " ++ (← operandPair g v)
  | .call =>
    let callee ← v.callee
    let name ← nameOf callee (← g.value callee)
    let args ← typedOperands g (← v.args)
    return v.ty.text ++ " " ++ name ++ "(" ++ args ++ ")"
  | .branch => typedOperands g v.operands
  | .ret =>
    match v.operands with
    | [] => return "void"
    | result :: _ => typedOperand g result
  | .elemPtr _ =>
    match (← g.value (← v.operand 0)).ty.pointee? with
    | none => throw .invalidPointer
    | some base => return base.text ++ ", " ++ (← typedOperands g v.operands)
  | .store =>
    let value ← typedOperand g (← v.operand 0)
    let dest ← typedOperand g (← v.operand 1)
    return value ++ ", " ++ dest
  | .load =>
    let ty ← g.loadTy inst
    return ty.text ++ ", " ++ (← typedOperand g (← v.operand 0))
  | .alloca ty => return ty.text
  | .zext ty => return (← typedOperand g (← v.operand 0)) ++ " to " ++ ty.text
  | .phi =>
    match ← phiEntries g inst v with
    | [] => return v.ty.text
    | entries => return v.ty.text ++ " " ++ commas entries
  | _ => throw .invalidInstruction

/-- An instruction without indentation. -/
def instruction (g : Graph) (inst : ValueId) : Render String := do
  let v ← g.value inst
  if v.parent = none then
    note .detached
  match v.kind.opcode? with
  | none => throw .invalidInstruction
  | some op =>
    let body := op.text ++ " " ++ (← arguments g inst v)
    if v.isVoid then
      return body
    else
      return (← nameOf inst v) ++ " = " ++ body

end Text

end SsaGraph
