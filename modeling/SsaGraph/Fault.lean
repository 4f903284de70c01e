import SsaGraph.Refusal
import SsaGraph.Ty.Basic

/-!
# Faults

A fault ends an operation whose caller broke a precondition: a handle that does not exist, operands
of the wrong type, a name that can not be written. Nothing is known about the graph after a fault,
so an operation that faults returns no graph.

`Fault.message` has the wording of every cause. Handles that the caller passed directly are called by
their role there (`bb`, `func`, `value`, `new`); handles found in the graph are not.
-/
namespace SsaGraph

inductive Fault where
  | zeroWidth
  | elementType
  | voidParameter
  | missingValue
  | missingBlock
  | missingFunction
  | unknownBlock
  | unknownFunction
  | unknownValue
  | unknownReplacement
  | tooManyValues
  | nothingRemoved
  | invalidName (name : String)
  | declarationBlock
  | initializerKind
  | initializerType
  | integerType
  | unstorableType
  | operandWidths
  | calleeType
  | argumentCount
  | conditionType
  | voidResult
  | basePointer
  | indexType
  | notArray (ty : Ty)
  | destination
  | source
  | extensionTypes
  | sameExtension (ty : Ty)
  | notPhi
  | incomingType
  | pinned
  | notAttached
  | refused (reason : Refusal)
  | slotIndex (len index : Nat)
  | slotStart (len start : Nat)
  | expectedBranch
  | expectedConditional
  | expectedReturn
  | expectedCall
  | expectedPhi
  | expectedLoad
  | loadSource
  | functionType
  | invalidGlobal
  | invalidInstruction
  | invalidPointer
  deriving DecidableEq, Repr

namespace Fault

def message : Fault → String
  | zeroWidth => "bit width can not be zero"
  | elementType => "base type must not be `void` or `label`"
  | voidParameter => "parameter type must not be `void`"
  | missingValue => "value does not exist"
  | missingBlock => "basic block does not exist"
  | missingFunction => "function does not exist"
  | unknownBlock => "`bb` does not exist"
  | unknownFunction => "`func` does not exist"
  | unknownValue => "`value` does not exist"
  | unknownReplacement => "`new` does not exist"
  | tooManyValues => "too many values"
  | nothingRemoved => "no value was removed under this handle"
  | invalidName name => "invalid name `" ++ name ++ "`"
  | declarationBlock => "can not add basic blocks to a declaration"
  | initializerKind => "`init` must be a constant"
  | initializerType => "the type of `init` must be `ty`"
  | integerType => "`ty` must be an integer type"
  | unstorableType => "`ty` can not be `void` or `label`"
  | operandWidths => "`lhs` and `rhs` must be integers of the same width"
  | calleeType => "expected a function type"
  | argumentCount => "argument count mismatch"
  | conditionType => "`cond` must be an integer"
  | voidResult => "the type of `value` must not be `void`"
  | basePointer => "`ptr` must be a pointer to an array, integer or float"
  | indexType => "indices must be integers"
  | notArray ty => "index error: `" ++ ty.text ++ "` is not an array"
  | destination => "`dest` must be a pointer"
  | source => "`src` must be a pointer"
  | extensionTypes => "zext only works on integer types"
  | sameExtension ty => "destination type must differ from `" ++ ty.text ++ "`"
  | notPhi => "`phi` must be a phi"
  | incomingType => "the type of `value` must be the type of `phi`"
  | pinned => "basic blocks and functions can not be removed"
  | notAttached => "`inst` is not attached"
  | refused reason => reason.message
  | slotIndex len index =>
    "index out of bounds: the len is " ++ toString len ++ " but the index is " ++ toString index
  | slotStart len start =>
    "range start index " ++ toString start ++ " out of range for slice of length " ++ toString len
  | expectedBranch => "expected a branch"
  | expectedConditional => "only conditional branches have a false target"
  | expectedReturn => "expected a return"
  | expectedCall => "expected a call"
  | expectedPhi => "expected a phi"
  | expectedLoad => "`load` must be a load"
  | loadSource => "the source of a load must be a pointer"
  | functionType => "function must have a function type"
  | invalidGlobal => "invalid global variable"
  | invalidInstruction => "invalid instruction"
  | invalidPointer => "invalid pointer type"

end Fault

/-- Goes on when the condition holds and stops with the fault otherwise. -/
def require (condition : Prop) [Decidable condition] (fault : Fault) : Except Fault Unit :=
  if condition then .ok () else .error fault

theorem require_eq_ok {condition : Prop} [Decidable condition] {fault : Fault} {u : Unit} :
    require condition fault = .ok u ↔ condition := by
  unfold require
  split <;> simp_all

/-- The entry of a table, or the fault when there is none. -/
def Table.fetch {α : Type} (table : Table α) (id : ValueId) (fault : Fault) : Except Fault α :=
  match table[id]? with
  | some entry => .ok entry
  | none => .error fault

theorem Table.fetch_eq_ok {α : Type} {table : Table α} {id : ValueId} {fault : Fault} {entry : α} :
    table.fetch id fault = .ok entry ↔ table[id]? = some entry := by
  unfold Table.fetch
  split <;> simp_all

end SsaGraph
