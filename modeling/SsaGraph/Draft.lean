import SsaGraph.Graph.Placement

/-!
# Drafts

A draft describes a constant or an instruction that is to be built. `Draft.value` checks it against
the graph and gives the value to enter: its type, kind and operands. `Graph.build` enters it and, if
a block is given, places an instruction there. Constants are never placed.

Also called: `integer_of` (`integerOf`), `cmp` (`compare`), `get_elem_ptr` (`elemPtr`), `value_type`
(`typeOf`), `check_int_operands` (`checkWidths`), `insert_value` (`insert`), `new_value` (a `build` without a
block), `new_inst` (a `build` in a block).
-/
namespace SsaGraph

inductive Draft where
  /-- An integer constant of type `i32`. -/
  | integer (value : Int32)
  | integerOf (ty : Ty) (value : Int32)
  | undef (ty : Ty)
  | binary (op : BinaryOp) (lhs rhs : ValueId)
  | compare (op : CompareOp) (lhs rhs : ValueId)
  | call (callee : FuncId) (args : List ValueId)
  | branch (cond : ValueId) (onTrue onFalse : BlockId)
  | jump (target : BlockId)
  | ret (value : Option ValueId)
  | elemPtr (base : ValueId) (indices : List ValueId)
  | store (value dest : ValueId)
  | load (ty : Ty) (src : ValueId)
  | alloca (ty : Ty)
  | phi (ty : Ty)
  | zext (value : ValueId) (ty : Ty)
  deriving DecidableEq, Repr

namespace Draft

def typeOf (g : Graph) (v : ValueId) : Except Fault Ty := do
  return (← g.value v).ty

/-- Both operands are integers of one width; the right one is looked at only if the left one is an
integer. This is a check of debug builds alone: a release build takes any two live operands. -/
def checkWidths (g : Graph) (lhs rhs : ValueId) : Except Fault Unit := do
  let left ← typeOf g lhs
  require (left.isInt = true) .operandWidths
  let right ← typeOf g rhs
  require (left.bits? = right.bits?) .operandWidths

/-- What a base pointer of this type points to, if elements can be picked from it. -/
def baseElem? : Ty → Option Ty
  | .pointer (.array t n) => some (.array t n)
  | .pointer (.int bits) => some (.int bits)
  | .pointer .float => some .float
  | _ => none

/-- The type reached by that many steps into an array. -/
def stepInto (ty : Ty) : Nat → Except Fault Ty
  | 0 => .ok ty
  | n + 1 =>
    match ty.elem? with
    | some elem => stepInto elem n
    | none => .error (.notArray ty)

/-- The element type of an element pointer. The first index steps over the base itself, each further
one into an array. -/
def elemType (g : Graph) (base : ValueId) (indices : List ValueId) : Except Fault Ty := do
  match baseElem? (← typeOf g base) with
  | none => throw .basePointer
  | some elem =>
    indices.forM fun i => do require ((← typeOf g i).isInt = true) .indexType
    stepInto elem (indices.length - 1)

/-- The value described by the draft. -/
def value (g : Graph) : Draft → Except Fault Value
  | integer n => return { ty := .i32, kind := .integer n }
  | integerOf ty n => do
    require (ty.isInt = true) .integerType
    return { ty, kind := .integer n }
  | undef ty => do
    require (ty.isStorable = true) .unstorableType
    return { ty, kind := .undef }
  | binary op lhs rhs => do
    checkWidths g lhs rhs
    return { ty := .i32, kind := .binary op, operands := [lhs, rhs] }
  | compare op lhs rhs => do
    checkWidths g lhs rhs
    return { ty := .i1, kind := .compare op, operands := [lhs, rhs] }
  | call callee args => do
    match (← g.func callee).ty with
    | .function params result =>
      require (params.length = args.length) .argumentCount
      return { ty := result, kind := .call, operands := callee :: args }
    | _ => throw .calleeType
  | branch cond onTrue onFalse => do
    require ((← typeOf g cond).isInt = true) .conditionType
    return { ty := .void, kind := .branch, operands := [cond, onTrue, onFalse] }
  | jump target => return { ty := .void, kind := .branch, operands := [target] }
  | ret none => return { ty := .void, kind := .ret }
  | ret (some v) => do
    require ((← typeOf g v) ≠ .void) .voidResult
    return { ty := .void, kind := .ret, operands := [v] }
  | elemPtr base indices => do
    let elem ← elemType g base indices
    return { ty := .pointer elem, kind := .elemPtr elem, operands := base :: indices }
  | store v dest => do
    require ((← typeOf g dest).isPointer = true) .destination
    return { ty := .void, kind := .store, operands := [v, dest] }
  | load ty src => do
    require ((← typeOf g src).isPointer = true) .source
    return { ty, kind := .load, operands := [src] }
  | alloca ty => do
    require (ty.isStorable = true) .unstorableType
    return { ty := .pointer ty, kind := .alloca ty }
  | phi ty => do
    require (ty.isStorable = true) .unstorableType
    return { ty, kind := .phi }
  | zext v ty => do
    let src ← typeOf g v
    require (src.isInt = true ∧ ty.isInt = true) .extensionTypes
    require (src ≠ ty) (.sameExtension src)
    return { ty, kind := .zext ty, operands := [v] }

end Draft

namespace Graph

/-- The block to place an instruction in has to exist. -/
def checkSpot (g : Graph) : Option BlockId → Except Fault Unit
  | none => .ok ()
  | some block => require (block ∈ g.blocks) .unknownBlock

/-- Enters a value and places it if it is an instruction and a block is given. -/
def insert (g : Graph) (v : Value) (spot : Option BlockId) : Except Fault (ValueId × Graph) := do
  let (id, g) ← g.create v
  match spot with
  | some block =>
    if v.kind.isInst = true then
      match ← g.place id block with
      | (.ok (), g) => return (id, g)
      | (.error reason, _) => throw (.refused reason)
    else
      return (id, g)
  | none => return (id, g)

/-- Builds what the draft describes, detached or in a block. -/
def build (g : Graph) (draft : Draft) (spot : Option BlockId) : Except Fault (ValueId × Graph) := do
  g.checkSpot spot
  g.insert (← draft.value g) spot

/-- Enters a value that was removed earlier, detached or in a block, under a new handle. -/
def reinsert (g : Graph) (removed : Value) (spot : Option BlockId) :
    Except Fault (ValueId × Graph) := do
  g.checkSpot spot
  g.insert removed spot

end Graph

end SsaGraph
