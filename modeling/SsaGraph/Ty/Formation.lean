import SsaGraph.Fault

/-!
# Checked type formation

The three type formers with a side condition: an integer has a width, the elements of an array can
be stored, and no parameter is `void`. The other types can be formed from anything.
-/
namespace SsaGraph.Ty

/-- An integer type of at least one bit. -/
def formInt (bits : Nat) : Except Fault Ty := do
  require (bits ≠ 0) .zeroWidth
  return int bits

/-- An array of storable elements. -/
def formArray (elem : Ty) (length : Nat) : Except Fault Ty := do
  require (elem.isStorable = true) .elementType
  return array elem length

/-- A function type without `void` parameters. -/
def formFunction (params : List Ty) (ret : Ty) : Except Fault Ty := do
  require (∀ p ∈ params, p ≠ void) .voidParameter
  return function params ret

end SsaGraph.Ty
