import SsaGraph.Text.Commas

/-!
# Value types

Every value of a graph has a type: an integer of some width, `float`, `void`, `label` (the type of
a block), an array of known length, a pointer or a function. Types are compared by structure.

`Ty.text` is the written form: `i32`, `[4 x i32]`, `i32*`, `void (i32, float)`. A function type is
written as its return type followed by the parameter list, so stars and parameter lists are both
suffixes and a nested type needs no brackets of its own.

The constructors form any type at all; `SsaGraph.Ty.Formation` has the checked ways to form one.
-/
namespace SsaGraph

inductive Ty where
  | int (bits : Nat)
  | float
  | void
  | label
  | array (elem : Ty) (length : Nat)
  | pointer (pointee : Ty)
  | function (params : List Ty) (ret : Ty)
  deriving Inhabited, Repr

namespace Ty

/-! ## Equality -/

mutual
/-- Structural equality as a test; `same_iff` says so. -/
def same : Ty → Ty → Bool
  | int m, int n => m == n
  | float, float => true
  | void, void => true
  | label, label => true
  | array s m, array t n => same s t && m == n
  | pointer s, pointer t => same s t
  | function ps r, function qs s => sameAll ps qs && same r s
  | _, _ => false

/-- `same` along two lists of equal length. -/
def sameAll : List Ty → List Ty → Bool
  | [], [] => true
  | p :: ps, q :: qs => same p q && sameAll ps qs
  | _, _ => false
end

mutual
theorem eq_of_same : ∀ {s t : Ty}, same s t = true → s = t
  | int _, t, h => by cases t <;> simp_all [same]
  | float, t, h => by cases t <;> simp_all [same]
  | void, t, h => by cases t <;> simp_all [same]
  | label, t, h => by cases t <;> simp_all [same]
  | array s _, t, h => by
    cases t <;> simp only [same, Bool.false_eq_true, Bool.and_eq_true, beq_iff_eq] at h
    rw [eq_of_same h.1, h.2]
  | pointer s, t, h => by
    cases t <;> simp only [same, Bool.false_eq_true] at h
    rw [eq_of_same h]
  | function ps r, t, h => by
    cases t <;> simp only [same, Bool.false_eq_true, Bool.and_eq_true] at h
    rw [eq_of_sameAll h.1, eq_of_same h.2]

theorem eq_of_sameAll : ∀ {ps qs : List Ty}, sameAll ps qs = true → ps = qs
  | [], qs, h => by cases qs <;> simp_all [sameAll]
  | p :: ps, qs, h => by
    cases qs <;> simp only [sameAll, Bool.false_eq_true, Bool.and_eq_true] at h
    rw [eq_of_same h.1, eq_of_sameAll h.2]
end

mutual
theorem same_refl : ∀ t : Ty, same t t = true
  | int _ => by simp [same]
  | float => rfl
  | void => rfl
  | label => rfl
  | array t _ => by simp [same, same_refl t]
  | pointer t => by simp [same, same_refl t]
  | function ps r => by simp [same, sameAll_refl ps, same_refl r]

theorem sameAll_refl : ∀ ps : List Ty, sameAll ps ps = true
  | [] => rfl
  | p :: ps => by simp [sameAll, same_refl p, sameAll_refl ps]
end

theorem same_iff {s t : Ty} : same s t = true ↔ s = t :=
  ⟨eq_of_same, fun h => h ▸ same_refl s⟩

instance : DecidableEq Ty := fun _ _ => decidable_of_iff _ same_iff

/-! ## Written form -/

mutual
/-- The written form of a type. -/
def text : Ty → String
  | int bits => "i" ++ toString bits
  | float => "float"
  | void => "void"
  | label => "label"
  | array elem length => "[" ++ toString length ++ " x " ++ text elem ++ "]"
  | pointer pointee => text pointee ++ "*"
  | function params ret => text ret ++ " (" ++ Text.commas (texts params) ++ ")"

/-- The written forms of several types. -/
def texts : List Ty → List String
  | [] => []
  | t :: ts => text t :: texts ts
end

/-! ## Parts -/

def i1 : Ty := int 1

def i32 : Ty := int 32

def isInt : Ty → Bool
  | int _ => true
  | _ => false

def isArray : Ty → Bool
  | array .. => true
  | _ => false

def isPointer : Ty → Bool
  | pointer _ => true
  | _ => false

def isFunction : Ty → Bool
  | function .. => true
  | _ => false

/-- Width of an integer type. -/
def bits? : Ty → Option Nat
  | int bits => some bits
  | _ => none

/-- What a pointer type points to. -/
def pointee? : Ty → Option Ty
  | pointer t => some t
  | _ => none

/-- Element type of an array type. -/
def elem? : Ty → Option Ty
  | array t _ => some t
  | _ => none

/-- Lengths of the nested array levels, outermost first; empty for any other type. -/
def dims : Ty → List Nat
  | array t n => n :: dims t
  | _ => []

/-- Parameter types of a function type. -/
def params? : Ty → Option (List Ty)
  | function ps _ => some ps
  | _ => none

/-- Return type of a function type. -/
def ret? : Ty → Option Ty
  | function _ r => some r
  | _ => none

/-- Neither `void` nor `label`: a type whose values can be stored. -/
def isStorable (t : Ty) : Bool := t ≠ void ∧ t ≠ label

end Ty

end SsaGraph
