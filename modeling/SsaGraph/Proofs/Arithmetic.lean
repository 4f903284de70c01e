import Mathlib.Data.Int.ModEq
import SsaGraph.Proofs.Folding

/-!
# What folding computes

Operators work on 32-bit words. `Kind.Computes` says what they compute over the integers, with no word
operation in it: a sum, a difference or a product is only known up to multiples of `2 ^ 32`, a division
goes toward zero and leaves a remainder with the sign of the dividend (`DivMod`), a comparison gives 1
or 0. Each of these has one result among the words, the one that is evaluated.

Whether something can be folded and what it folds to are two questions, which look at kind, operands and
constants in different orders. They agree since an operator has two operands, and both of them live.

Results:
* `Kind.computes_iff`: evaluation finds the result over the integers;
* `WellFormed.isFoldable_iff`, `exists_fold_iff`: what is foldable is what folds to something, namely an
  operator of two constants;
* `folding_exact`: both questions have an answer after every run, and the answers are right.
-/
namespace SsaGraph

/-! ## Words -/

/-- `q` and `r` are quotient and remainder of a division toward zero in 32 bits. One quotient does not
fit. -/
structure DivMod (a b q r : Int) : Prop where
  rest : ¬(a = -2 ^ 31 ∧ b = -1) → r = a - b * q
  truncated : ¬(a = -2 ^ 31 ∧ b = -1) → q = a.tdiv b
  wrapped : a = -2 ^ 31 → b = -1 → q = -2 ^ 31 ∧ r = 0
  small : |r| < |b|
  sign : r = 0 ∨ r.sign = a.sign

theorem DivMod.unique {a b q q' r r' : Int} (h : DivMod a b q r) (h' : DivMod a b q' r') :
    q = q' ∧ r = r' := by
  by_cases overflow : a = -2 ^ 31 ∧ b = -1
  · obtain ⟨hq, hr⟩ := h.wrapped overflow.1 overflow.2
    obtain ⟨hq', hr'⟩ := h'.wrapped overflow.1 overflow.2
    exact ⟨hq.trans hq'.symm, hr.trans hr'.symm⟩
  · have same : q = q' := (h.truncated overflow).trans (h'.truncated overflow).symm
    refine ⟨same, ?_⟩
    rw [h.rest overflow, h'.rest overflow, same]

namespace Word

variable {a b c : Int32}

/-- Among the numbers that differ by a multiple of `2 ^ 32` one is a word. -/
theorem modEq_iff {x : Int} : Int.ModEq (2 ^ 32) c.toInt x ↔ c.toInt = x.bmod (2 ^ 32) := by
  have low := c.le_toInt
  have high := c.toInt_lt
  rw [eq_comm, Int.bmod_eq_iff (by decide), Int.modEq_comm, Int.modEq_iff_dvd]
  refine ⟨fun divides => ⟨?_, ?_, divides⟩, fun h => h.2.2⟩
  · omega
  · omega

theorem toInt_eq_zero : b.toInt = 0 ↔ b = 0 := by
  rw [← Int32.toInt_zero, Int32.toInt_inj]

theorem toInt_div (fits : ¬(a.toInt = -2 ^ 31 ∧ b.toInt = -1)) :
    (a / b).toInt = a.toInt.tdiv b.toInt := by
  by_cases least : a = Int32.minValue
  · refine Int32.toInt_div_of_ne_right a b fun minusOne => fits ⟨?_, ?_⟩
    · rw [least]
      rfl
    · rw [minusOne]
      rfl
  · exact Int32.toInt_div_of_ne_left a b least

theorem divMod (nonzero : b ≠ 0) : DivMod a.toInt b.toInt (a / b).toInt (a % b).toInt := by
  have rest := Int32.toInt_mod a b
  refine ⟨fun fits => ?_, toInt_div, fun least minusOne => ⟨?_, ?_⟩, ?_, ?_⟩
  · rw [rest, Int.tmod_def, toInt_div fits]
  · rw [Int32.toInt_div, least, minusOne]
    decide
  · rw [rest, least, minusOne]
    decide
  · have divisor : b.toInt.natAbs ≠ 0 := by
      intro zero
      exact nonzero (toInt_eq_zero.1 (Int.natAbs_eq_zero.1 zero))
    have less := Nat.mod_lt a.toInt.natAbs (Nat.pos_of_ne_zero divisor)
    rw [← Int.natAbs_tmod, ← rest] at less
    rw [Int.abs_eq_natAbs, Int.abs_eq_natAbs]
    omega
  · rw [rest, Int.sign_tmod]
    by_cases divides : b.toInt ∣ a.toInt
    · exact .inl (Int.tmod_eq_zero_of_dvd divides)
    · rw [if_neg divides]
      exact .inr rfl

end Word

/-! ## Operators over the integers -/

/-- `c` is what the operator computes from `a` and `b`, as far as 32 bits hold it. Dividing by zero gives
0, both as quotient and as remainder. -/
def BinaryOp.Computes : BinaryOp → Int → Int → Int → Prop
  | add, a, b, c => Int.ModEq (2 ^ 32) c (a + b)
  | sub, a, b, c => Int.ModEq (2 ^ 32) c (a - b)
  | mul, a, b, c => Int.ModEq (2 ^ 32) c (a * b)
  | sdiv, a, b, c => if b = 0 then c = 0 else ∃ r, DivMod a b c r
  | mod, a, b, c => if b = 0 then c = 0 else ∃ q, DivMod a b q c

/-- The comparison holds between the integers. -/
def CompareOp.Holds : CompareOp → Int → Int → Prop
  | gt, a, b => a > b
  | ge, a, b => a ≥ b
  | eq, a, b => a = b
  | ne, a, b => a ≠ b
  | lt, a, b => a < b
  | le, a, b => a ≤ b

/-- `c` is what an operator of the kind computes from `a` and `b`. -/
def Kind.Computes : Kind → Int → Int → Int → Prop
  | .binary op, a, b, c => op.Computes a b c
  | .compare op, a, b, c => op.Holds a b ∧ c = 1 ∨ ¬op.Holds a b ∧ c = 0
  | _, _, _, _ => False

theorem BinaryOp.computes_iff {op : BinaryOp} {a b c : Int32} :
    op.Computes a.toInt b.toInt c.toInt ↔ c = op.eval a b := by
  rw [← Int32.toInt_inj]
  cases op <;> simp only [Computes, eval]
  case add => rw [Word.modEq_iff, Int32.toInt_add]
  case sub => rw [Word.modEq_iff, Int32.toInt_sub]
  case mul => rw [Word.modEq_iff, Int32.toInt_mul]
  case sdiv =>
    by_cases zero : b = 0
    · simp [zero]
    · rw [if_neg (mt Word.toInt_eq_zero.1 zero), if_neg zero]
      constructor
      · rintro ⟨r, h⟩
        exact (h.unique (Word.divMod zero)).1
      · intro h
        rw [h]
        exact ⟨_, Word.divMod zero⟩
  case mod =>
    by_cases zero : b = 0
    · simp [zero]
    · rw [if_neg (mt Word.toInt_eq_zero.1 zero), if_neg zero]
      constructor
      · rintro ⟨q, h⟩
        exact (h.unique (Word.divMod zero)).2
      · intro h
        rw [h]
        exact ⟨_, Word.divMod zero⟩

theorem CompareOp.eval_iff {op : CompareOp} {a b : Int32} :
    op.eval a b = true ↔ op.Holds a.toInt b.toInt := by
  cases op <;> simp [eval, Holds, Int32.lt_iff_toInt_lt, Int32.le_iff_toInt_le, Int32.toInt_inj]

/-- The result over the integers is the one that is evaluated. -/
theorem Kind.computes_iff {kind : Kind} {a b c : Int32} :
    kind.Computes a.toInt b.toInt c.toInt ↔ Graph.evalKind kind a b = some c := by
  cases kind with
  | binary op => simp [Computes, Graph.evalKind, BinaryOp.computes_iff, eq_comm]
  | compare op =>
    have one : c.toInt = 1 ↔ c = 1 := by rw [← Int32.toInt_inj]; rfl
    have zero : c.toInt = 0 ↔ c = 0 := Word.toInt_eq_zero
    simp only [Computes, Graph.evalKind, Option.some.injEq, one, zero, ← CompareOp.eval_iff]
    cases op.eval a b <;> simp [eq_comm]
  | _ => simp [Computes, Graph.evalKind]

/-- The value is a binary operator or a comparison. -/
def Kind.IsOperator (kind : Kind) : Prop := (∃ op, kind = .binary op) ∨ ∃ op, kind = .compare op

theorem Kind.IsOperator.exists_eval {kind : Kind} (h : kind.IsOperator) (a b : Int32) :
    ∃ c, Graph.evalKind kind a b = some c := by
  rcases h with ⟨op, rfl⟩ | ⟨op, rfl⟩
  · exact ⟨_, rfl⟩
  · exact ⟨_, rfl⟩

theorem Kind.isOperator_of_eval {kind : Kind} {a b c : Int32}
    (h : Graph.evalKind kind a b = some c) : kind.IsOperator := by
  cases kind with
  | binary op => exact .inl ⟨op, rfl⟩
  | compare op => exact .inr ⟨op, rfl⟩
  | _ => cases h

/-! ## Two questions -/

namespace Graph

variable {g : Graph} {v : ValueId} {e : Value}

theorem constInt_total (live : v ∈ g.values) : ∃ n, g.constInt v = .ok n := by
  obtain ⟨e, entry⟩ := Table.getElem?_of_mem live
  exact ⟨_, constInt_eq_ok.2 ⟨e, entry, rfl⟩⟩

theorem allM_total {α : Type} {p : α → Except Fault Bool} {l : List α}
    (each : ∀ a ∈ l, ∃ r, p a = .ok r) : ∃ r, l.allM p = .ok r := by
  induction l with
  | nil => exact ⟨true, rfl⟩
  | cons a l ih =>
    obtain ⟨first, ha⟩ := each a (List.mem_cons_self ..)
    obtain ⟨rest, hl⟩ := ih fun b hb => each b (List.mem_cons_of_mem a hb)
    simp only [List.allM, bind_eq_ok]
    cases first with
    | true => exact ⟨rest, true, ha, hl⟩
    | false => exact ⟨false, false, ha, rfl⟩

theorem Shaped.two_operands (shaped : g.Shaped) (entry : g.values[v]? = some e)
    (operator : e.kind.IsOperator) : ∃ l r, e.operands = [l, r] := by
  have arity := shaped v e entry
  refine List.length_eq_two.1 ?_
  rcases operator with ⟨op, kind⟩ | ⟨op, kind⟩
  · rw [kind] at arity
    exact arity
  · rw [kind] at arity
    exact arity

theorem WellFormed.isFoldable_total (wf : g.WellFormed) (live : v ∈ g.values) :
    ∃ foldable, g.isFoldable v = .ok foldable := by
  obtain ⟨e, entry⟩ := Table.getElem?_of_mem live
  refine ok_bind (value_eq_ok.2 entry) ?_
  cases e.kind with
  | binary | compare =>
    refine allM_total fun op member => ?_
    obtain ⟨n, known⟩ := constInt_total (wf.useDef.operands_live entry op member)
    exact ok_bind known ⟨_, rfl⟩
  | _ => exact ⟨false, rfl⟩

theorem WellFormed.fold_total (wf : g.WellFormed) (live : v ∈ g.values) :
    ∃ result, g.fold v = .ok result := by
  obtain ⟨e, entry⟩ := Table.getElem?_of_mem live
  refine ok_bind (value_eq_ok.2 entry) ?_
  split
  · rename_i l r operands
    have liveOperand := wf.useDef.operands_live entry
    obtain ⟨a, left⟩ := constInt_total (liveOperand l (by simp [operands]))
    obtain ⟨b, right⟩ := constInt_total (liveOperand r (by simp [operands]))
    refine ok_bind left ?_
    cases a with
    | none => exact ⟨none, rfl⟩
    | some a =>
      refine ok_bind right ?_
      cases b with
      | none => exact ⟨none, rfl⟩
      | some b => exact ⟨_, rfl⟩
  · exact ⟨none, rfl⟩

/-- The value is an operator of this kind, and its two operands are the integer constants `a` and `b`. -/
structure OfConstants (g : Graph) (v : ValueId) (kind : Kind) (a b : Int32) : Prop where
  operator : kind.IsOperator
  slots : ∃ l r, g.node v = some (kind, [l, r]) ∧ g.kindOf l = some (.integer a) ∧
    g.kindOf r = some (.integer b)

theorem fold_iff {c : Int32} :
    g.fold v = .ok (some c) ↔ ∃ kind a b, g.OfConstants v kind a b ∧ evalKind kind a b = some c := by
  rw [fold_eq_some]
  constructor
  · rintro ⟨e, l, r, a, b, entry, operands, left, right, result⟩
    have found := node_eq_some.2 ⟨e, entry, rfl, operands⟩
    exact ⟨e.kind, a, b, ⟨Kind.isOperator_of_eval result, l, r, found, left, right⟩, result⟩
  · rintro ⟨kind, a, b, ⟨-, l, r, found, left, right⟩, result⟩
    obtain ⟨e, entry, rfl, operands⟩ := node_eq_some.1 found
    exact ⟨e, l, r, a, b, entry, operands, left, right, result⟩

/-- An operator of two constants folds to the one word that it computes from them. -/
theorem OfConstants.folds {kind : Kind} {a b : Int32} (h : g.OfConstants v kind a b) :
    ∃ c, g.fold v = .ok (some c) ∧
      ∀ d : Int32, kind.Computes a.toInt b.toInt d.toInt ↔ d = c := by
  obtain ⟨c, result⟩ := h.operator.exists_eval a b
  refine ⟨c, fold_iff.2 ⟨kind, a, b, h, result⟩, fun d => ?_⟩
  rw [Kind.computes_iff, result, Option.some.injEq, eq_comm]

theorem exists_fold_iff : (∃ c, g.fold v = .ok (some c)) ↔ ∃ kind a b, g.OfConstants v kind a b := by
  constructor
  · rintro ⟨c, folds⟩
    obtain ⟨kind, a, b, h, -⟩ := fold_iff.1 folds
    exact ⟨kind, a, b, h⟩
  · rintro ⟨kind, a, b, h⟩
    obtain ⟨c, folds, -⟩ := h.folds
    exact ⟨c, folds⟩

theorem WellFormed.isFoldable_iff (wf : g.WellFormed) :
    g.isFoldable v = .ok true ↔ ∃ kind a b, g.OfConstants v kind a b := by
  rw [isFoldable_eq_true]
  constructor
  · rintro ⟨e, entry, operator, constants⟩
    obtain ⟨l, r, operands⟩ := wf.shaped.two_operands entry operator
    obtain ⟨a, left⟩ := constants l (by simp [operands])
    obtain ⟨b, right⟩ := constants r (by simp [operands])
    exact ⟨e.kind, a, b, operator, l, r, node_eq_some.2 ⟨e, entry, rfl, operands⟩, left, right⟩
  · rintro ⟨kind, a, b, operator, l, r, found, left, right⟩
    obtain ⟨e, entry, rfl, operands⟩ := node_eq_some.1 found
    refine ⟨e, entry, operator, fun y member => ?_⟩
    rw [operands] at member
    rcases List.mem_cons.1 member with rfl | later
    · exact ⟨a, left⟩
    · rw [List.mem_singleton.1 later]
      exact ⟨b, right⟩

end Graph

/-! ## Every run -/

namespace Workspace

variable {w : Workspace} {v : ValueId}

/-- After every run, a live value can be asked whether it is foldable and what it folds to. It is foldable
exactly when it is an operator whose operands are integer constants, and exactly then it folds to
something: to the one word that the operator computes from the two constants. -/
theorem folding_exact (h : w.Reachable) (live : v ∈ w.graph.values) :
    (∃ foldable result, w.graph.isFoldable v = .ok foldable ∧ w.graph.fold v = .ok result ∧
      (result.isSome = true ↔ foldable = true) ∧
      (foldable = true ↔ ∃ kind a b, w.graph.OfConstants v kind a b)) ∧
    (∀ e, w.graph.values[v]? = some e → e.kind.IsOperator → ∃ l r, e.operands = [l, r]) ∧
    ∀ kind a b, w.graph.OfConstants v kind a b → ∃ c, w.graph.fold v = .ok (some c) ∧
      ∀ d : Int32, kind.Computes a.toInt b.toInt d.toInt ↔ d = c := by
  have wf := h.built.wellFormed
  refine ⟨?_, fun e entry operator => wf.shaped.two_operands entry operator,
    fun kind a b constants => constants.folds⟩
  obtain ⟨foldable, asked⟩ := wf.isFoldable_total live
  obtain ⟨result, folds⟩ := wf.fold_total live
  have one := wf.isFoldable_iff (v := v)
  have two := Graph.exists_fold_iff (g := w.graph) (v := v)
  rw [asked, Except.ok.injEq] at one
  simp only [folds, Except.ok.injEq, ← Option.isSome_iff_exists] at two
  exact ⟨foldable, result, asked, folds, two.trans one.symm, one⟩

/-- The least word divided by -1 and by 2, and the remainder of -7 by 2. -/
def quotients : Workspace :=
  (start "quotients").perform
    [.build (.integer (-2147483648)) none, .build (.integer (-1)) none, .build (.integer (-7)) none,
      .build (.integer 2) none, .build (.binary .sdiv 1 2) none, .build (.binary .mod 3 4) none,
      .build (.compare .lt 3 4) none]

/-- The quotient wraps, the remainder is negative, the comparison of -7 with 2 holds, and a constant is
nothing to fold. -/
theorem folding_exact_quotients : quotients.Reachable ∧
    (quotients.graph.isFoldable 5 = .ok true ∧ quotients.graph.fold 5 = .ok (some (-2147483648)) ∧
      ∀ d : Int32, BinaryOp.sdiv.Computes (-2147483648) (-1) d.toInt ↔ d = -2147483648) ∧
    (quotients.graph.isFoldable 6 = .ok true ∧ quotients.graph.fold 6 = .ok (some (-1)) ∧
      ∀ d : Int32, BinaryOp.mod.Computes (-7) 2 d.toInt ↔ d = -1) ∧
    (quotients.graph.isFoldable 7 = .ok true ∧ quotients.graph.fold 7 = .ok (some 1) ∧
      ∀ d : Int32, (Kind.compare .lt).Computes (-7) 2 d.toInt ↔ d = 1) ∧
    quotients.graph.isFoldable 1 = .ok false ∧ quotients.graph.fold 1 = .ok none := by
  have run : quotients.Reachable := (Reachable.start "quotients").perform _
  have operator : ∀ (v : ValueId) (kind : Kind) (l r : ValueId) (a b c : Int32), kind.IsOperator →
      quotients.graph.node v = some (kind, [l, r]) → quotients.graph.kindOf l = some (.integer a) →
      quotients.graph.kindOf r = some (.integer b) → kind.Computes a.toInt b.toInt c.toInt →
        quotients.graph.isFoldable v = .ok true ∧ quotients.graph.fold v = .ok (some c) ∧
          ∀ d : Int32, kind.Computes a.toInt b.toInt d.toInt ↔ d = c := by
    intro v kind l r a b c isOperator found left right result
    have constants : quotients.graph.OfConstants v kind a b := ⟨isOperator, l, r, found, left, right⟩
    obtain ⟨e, entry, -⟩ := Graph.node_eq_some.1 found
    obtain ⟨⟨foldable, _, asked, -, -, exactly⟩, -, computes⟩ :=
      folding_exact run (Table.mem_of_getElem? entry)
    obtain ⟨c', folds, unique⟩ := computes kind a b constants
    obtain rfl := (unique c).1 result
    rw [exactly.2 ⟨kind, a, b, constants⟩] at asked
    exact ⟨asked, folds, unique⟩
  have number : quotients.graph.node 1 = some (.integer (-2147483648), []) := by decide +kernel
  refine ⟨run, ?_, ?_, ?_, ?_⟩
  · refine operator 5 (.binary .sdiv) 1 2 (-2147483648) (-1) (-2147483648) (.inl ⟨_, rfl⟩)
      (by decide +kernel) (by decide +kernel) (by decide +kernel) ⟨0, ?_⟩
    exact ⟨fun fits => absurd ⟨rfl, rfl⟩ fits, fun fits => absurd ⟨rfl, rfl⟩ fits,
      fun _ _ => ⟨rfl, rfl⟩, by decide, .inl rfl⟩
  · refine operator 6 (.binary .mod) 3 4 (-7) 2 (-1) (.inl ⟨_, rfl⟩)
      (by decide +kernel) (by decide +kernel) (by decide +kernel) ⟨-3, ?_⟩
    exact ⟨fun _ => rfl, fun _ => rfl, fun least => absurd least (by decide), by decide, .inr rfl⟩
  · exact operator 7 (.compare .lt) 3 4 (-7) 2 1 (.inr ⟨_, rfl⟩)
      (by decide +kernel) (by decide +kernel) (by decide +kernel) (.inl ⟨show (-7 : Int) < 2 by decide, rfl⟩)
  · obtain ⟨e, entry, -⟩ := Graph.node_eq_some.1 number
    obtain ⟨⟨foldable, result, asked, folds, agree, exactly⟩, -⟩ :=
      folding_exact run (Table.mem_of_getElem? entry)
    have refused : foldable ≠ true := by
      intro foldable
      obtain ⟨kind, a, b, -, l, r, found, -⟩ := exactly.1 foldable
      rw [number] at found
      cases found
    rw [Bool.eq_false_iff.2 refused] at asked
    rw [Option.not_isSome_iff_eq_none.1 (mt agree.1 refused)] at folds
    exact ⟨asked, folds⟩

end Workspace

end SsaGraph
