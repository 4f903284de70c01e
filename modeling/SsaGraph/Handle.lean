import Std.Data.ExtTreeMap
import Std.Data.ExtTreeSet

/-!
# Handles, tables and uses

Values, blocks and functions are named by numbers from one common sequence that starts at 1: a
block is also a value (of type `label`) and a function is also a value. A handle means nothing by
itself; it exists in a graph when the graph's table has an entry for it.

Tables and use sets are ordered and extensional: two tables with the same entries are equal, two
use sets with the same members are equal, and both list their content in ascending order.
-/
namespace SsaGraph

abbrev ValueId := Nat

abbrev BlockId := ValueId

abbrev FuncId := ValueId

/-- Finitely many entries, by handle. -/
abbrev Table (α : Type) := Std.ExtTreeMap ValueId α

/-- A use of a value: operand slot `index` of `user`. -/
structure Use where
  user : ValueId
  index : Nat
  deriving DecidableEq, Repr

namespace Use

/-- By user, then by index. -/
def cmp : Use → Use → Ordering :=
  compareLex (compareOn Use.user) (compareOn Use.index)

instance : Std.TransCmp cmp :=
  inferInstanceAs (Std.TransCmp (compareLex _ _))

instance : Std.LawfulEqCmp cmp where
  eq_of_compare {a b} h := by
    simp only [cmp, compareLex, compareOn, Ordering.then_eq_eq, Std.LawfulEqOrd.compare_eq_iff_eq] at h
    cases a
    cases b
    simp_all

end Use

abbrev UseSet := Std.ExtTreeSet Use Use.cmp

end SsaGraph
