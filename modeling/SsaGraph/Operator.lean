/-!
# Operators and opcodes

Binary operators compute on 32-bit signed words and wrap around. Division goes toward zero and its
remainder has the sign of the dividend; dividing by zero gives 0 for both. The least word divided by
-1 wraps to itself with remainder 0. Comparisons are signed.
-/
namespace SsaGraph

/-- What an instruction does, as written at its head. -/
inductive Opcode where
  | add | sub | mul | sdiv | mod
  | cmp | call | br | ret | elemPtr | store | load | alloca | zext | phi
  deriving DecidableEq, Repr

def Opcode.text : Opcode → String
  | add => "add"
  | sub => "sub"
  | mul => "mul"
  | sdiv => "sdiv"
  | mod => "mod"
  | cmp => "cmp"
  | call => "call"
  | br => "br"
  | ret => "ret"
  | elemPtr => "getelementptr"
  | store => "store"
  | load => "load"
  | alloca => "alloca"
  | zext => "zext"
  | phi => "phi"

inductive BinaryOp where
  | add | sub | mul | sdiv | mod
  deriving DecidableEq, Repr

namespace BinaryOp

def opcode : BinaryOp → Opcode
  | add => .add
  | sub => .sub
  | mul => .mul
  | sdiv => .sdiv
  | mod => .mod

def text (op : BinaryOp) : String := op.opcode.text

def eval : BinaryOp → Int32 → Int32 → Int32
  | add, a, b => a + b
  | sub, a, b => a - b
  | mul, a, b => a * b
  | sdiv, a, b => if b = 0 then 0 else a / b
  | mod, a, b => if b = 0 then 0 else a % b

end BinaryOp

inductive CompareOp where
  | gt | ge | eq | ne | lt | le
  deriving DecidableEq, Repr

namespace CompareOp

def text : CompareOp → String
  | gt => "gt"
  | ge => "ge"
  | eq => "eq"
  | ne => "ne"
  | lt => "lt"
  | le => "le"

def eval : CompareOp → Int32 → Int32 → Bool
  | gt, a, b => decide (b < a)
  | ge, a, b => decide (b ≤ a)
  | eq, a, b => decide (a = b)
  | ne, a, b => decide (a ≠ b)
  | lt, a, b => decide (a < b)
  | le, a, b => decide (a ≤ b)

end CompareOp

end SsaGraph
