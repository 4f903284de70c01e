import SsaGraph.Graph.Folding
import SsaGraph.Proofs.Handles
import SsaGraph.Proofs.Removal
import SsaGraph.Proofs.Shapes

/-!
# Folding keeps the meaning of a graph

An instruction whose result is known can be replaced by a constant: the constant is created, takes the
place of the instruction in every slot, and the instruction is removed. `Graph.Evaluates` says which
integer a value stands for, by derivation and not by recursion, since a graph may have cycles.

Results:
* `Rewritten.evaluates_iff`: a rewrite of one value into a constant that it evaluates to changes no other
  evaluation;
* `Rewritten.fold_eq`: nor does it change what else can be folded, and to what;
* `folding_keeps_meaning`: the three edits go through after every run that leaves a handle, for every order
  in which the slots are visited, and make such a rewrite; of the blocks only the instruction lists change;
* `folding_out_of_handles`: without a handle left the first of them faults.
-/
namespace SsaGraph

namespace Graph

variable {g g' : Graph} {v k x : ValueId} {c d : Int32}

/-! ## Evaluation -/

/-- The value stands for the integer: it is that constant, or an operator with two operands that
evaluate. -/
inductive Evaluates (g : Graph) : ValueId → Int32 → Prop
  | integer {x : ValueId} {e : Value} {n : Int32} (entry : g.values[x]? = some e)
      (kind : e.kind = .integer n) : Evaluates g x n
  | binary {x l r : ValueId} {e : Value} {op : BinaryOp} {a b : Int32} (entry : g.values[x]? = some e)
      (kind : e.kind = .binary op) (operands : e.operands = [l, r]) (left : Evaluates g l a)
      (right : Evaluates g r b) : Evaluates g x (op.eval a b)
  | compare {x l r : ValueId} {e : Value} {op : CompareOp} {a b : Int32} (entry : g.values[x]? = some e)
      (kind : e.kind = .compare op) (operands : e.operands = [l, r]) (left : Evaluates g l a)
      (right : Evaluates g r b) : Evaluates g x (if op.eval a b = true then 1 else 0)

/-- What evaluation reads of a value. -/
def node (g : Graph) (x : ValueId) : Option (Kind × List ValueId) :=
  g.values[x]?.map fun e => (e.kind, e.operands)

theorem node_eq_some {kind : Kind} {operands : List ValueId} : g.node x = some (kind, operands) ↔
    ∃ e, g.values[x]? = some e ∧ e.kind = kind ∧ e.operands = operands := by
  simp [node]

theorem evaluates_integer {operands : List ValueId} (found : g.node x = some (.integer c, operands)) :
    g.Evaluates x c := by
  obtain ⟨e, entry, kind, -⟩ := node_eq_some.1 found
  exact .integer entry kind

/-- Both kinds of operators at once. -/
theorem evaluates_operator {kind : Kind} {l r : ValueId} {a b : Int32}
    (found : g.node x = some (kind, [l, r])) (result : evalKind kind a b = some d)
    (left : g.Evaluates l a) (right : g.Evaluates r b) : g.Evaluates x d := by
  obtain ⟨e, entry, same, operands⟩ := node_eq_some.1 found
  cases kind with
  | binary op =>
    cases result
    exact .binary entry same operands left right
  | compare op =>
    cases result
    exact .compare entry same operands left right
  | _ => cases result

/-- Induction on the derivation, with one case for operators. -/
theorem Evaluates.induct {motive : ∀ x d, g.Evaluates x d → Prop}
    (integer : ∀ x n operands (found : g.node x = some (.integer n, operands)),
      motive x n (evaluates_integer found))
    (operator : ∀ x d kind l r a b (found : g.node x = some (kind, [l, r]))
      (result : evalKind kind a b = some d) (left : g.Evaluates l a) (right : g.Evaluates r b),
      motive l a left → motive r b right → motive x d (evaluates_operator found result left right))
    {x : ValueId} {d : Int32} (h : g.Evaluates x d) : motive x d h := by
  induction h with
  | integer entry kind => exact integer _ _ _ (node_eq_some.2 ⟨_, entry, kind, rfl⟩)
  | binary entry kind operands left right ihl ihr | compare entry kind operands left right ihl ihr =>
    exact operator _ _ _ _ _ _ _ (node_eq_some.2 ⟨_, entry, kind, operands⟩) rfl left right ihl ihr

theorem Evaluates.of_integer {operands : List ValueId} (h : g.Evaluates x d)
    (found : g.node x = some (.integer c, operands)) : d = c := by
  induction h using Evaluates.induct with
  | integer x n _ own =>
    rw [found] at own
    cases own
    rfl
  | operator x d kind l r a b own result =>
    rw [found] at own
    cases own
    cases result

/-- An operator whose operands are constants has one value. -/
theorem Evaluates.of_operator {kind : Kind} {l r : ValueId} {a b n : Int32} {ls rs : List ValueId}
    (h : g.Evaluates x d) (found : g.node x = some (kind, [l, r])) (result : evalKind kind a b = some n)
    (left : g.node l = some (.integer a, ls)) (right : g.node r = some (.integer b, rs)) : d = n := by
  induction h using Evaluates.induct with
  | integer x m _ own =>
    rw [found] at own
    cases own
    cases result
  | operator x d kind' l' r' a' b' own result' left' right' =>
    rw [found] at own
    cases own
    rw [left'.of_integer left, right'.of_integer right, result] at result'
    exact (Option.some.inj result').symm

/-! ## Folding -/

theorem constInt_eq_ok {n : Option Int32} : g.constInt x = .ok n ↔
    ∃ e, g.values[x]? = some e ∧ n = e.kind.payload? := by
  simp only [constInt, bind_eq_ok, pure_eq_ok, value_eq_ok]

theorem constInt_eq_some {n : Int32} : g.constInt x = .ok (some n) ↔ g.kindOf x = some (.integer n) := by
  rw [constInt_eq_ok, kindOf_eq_some]
  refine exists_congr fun e => and_congr_right fun _ => ?_
  cases e.kind <;> simp [Kind.payload?, eq_comm]

/-- A folded value is an operator of two integer constants. -/
theorem fold_eq_some : g.fold x = .ok (some d) ↔ ∃ e l r a b, g.values[x]? = some e ∧
    e.operands = [l, r] ∧ g.kindOf l = some (.integer a) ∧ g.kindOf r = some (.integer b) ∧
    evalKind e.kind a b = some d := by
  refine ⟨fun h => ?_, fun h => ?_⟩
  · simp only [fold, bind_eq_ok, value_eq_ok] at h
    obtain ⟨e, entry, h⟩ := h
    split at h
    · rename_i l r operands
      simp only [bind_eq_ok] at h
      obtain ⟨left, hl, h⟩ := h
      cases left with
      | none => cases h
      | some a =>
        simp only [bind_eq_ok] at h
        obtain ⟨right, hr, h⟩ := h
        cases right with
        | none => cases h
        | some b =>
          simp only [pure_eq_ok] at h
          exact ⟨e, l, r, a, b, entry, operands, constInt_eq_some.1 hl, constInt_eq_some.1 hr, h.symm⟩
    · cases h
  · obtain ⟨e, l, r, a, b, entry, operands, left, right, result⟩ := h
    unfold fold
    rw [value_eq_ok.2 entry]
    simp only [bind, Except.bind, operands, constInt_eq_some.2 left, constInt_eq_some.2 right, result]
    rfl

theorem allM_eq_true {α : Type} {p : α → Except Fault Bool} {l : List α} :
    l.allM p = .ok true ↔ ∀ a ∈ l, p a = .ok true := by
  induction l with
  | nil => simp [List.allM, pure_eq_ok]
  | cons a l ih =>
    rw [List.forall_mem_cons, ← ih]
    simp only [List.allM, bind_eq_ok]
    refine ⟨fun ⟨first, ha, rest⟩ => ?_, fun ⟨ha, rest⟩ => ⟨true, ha, rest⟩⟩
    cases first with
    | true => exact ⟨ha, rest⟩
    | false => cases rest

/-- What is foldable is an operator with integer constants in its slots. -/
theorem isFoldable_eq_true : g.isFoldable x = .ok true ↔ ∃ e, g.values[x]? = some e ∧
    ((∃ op, e.kind = .binary op) ∨ ∃ op, e.kind = .compare op) ∧
    ∀ y ∈ e.operands, ∃ n, g.kindOf y = some (.integer n) := by
  have constant : ∀ y, (do return (← g.constInt y).isSome : Except Fault Bool) = .ok true ↔
      ∃ n, g.kindOf y = some (.integer n) := by
    intro y
    simp only [bind_eq_ok, pure_eq_ok, ← constInt_eq_some]
    refine ⟨fun ⟨n, hn, known⟩ => ?_, fun ⟨n, hn⟩ => ⟨some n, hn, rfl⟩⟩
    obtain ⟨m, rfl⟩ := Option.isSome_iff_exists.1 known.symm
    exact ⟨m, hn⟩
  simp only [isFoldable, bind_eq_ok, value_eq_ok]
  refine exists_congr fun e => and_congr_right fun _ => ?_
  cases kind : e.kind with
  | binary | compare =>
    refine (allM_eq_true.trans (forall_congr' fun y => forall_congr' fun _ => constant y)).trans ?_
    simp
  | _ => simp [pure_eq_ok]

/-- An operator of constants evaluates to what it folds to, and to nothing else. -/
theorem evaluates_of_fold (folds : g.fold v = .ok (some c)) : g.Evaluates v d ↔ d = c := by
  obtain ⟨e, l, r, a, b, entry, operands, left, right, result⟩ := fold_eq_some.1 folds
  have found : g.node v = some (e.kind, [l, r]) := node_eq_some.2 ⟨e, entry, rfl, operands⟩
  obtain ⟨el, entryL, kindL⟩ := kindOf_eq_some.1 left
  obtain ⟨er, entryR, kindR⟩ := kindOf_eq_some.1 right
  refine ⟨fun h => ?_, fun h => ?_⟩
  · exact h.of_operator found result (node_eq_some.2 ⟨el, entryL, kindL, rfl⟩)
      (node_eq_some.2 ⟨er, entryR, kindR, rfl⟩)
  · rw [h]
    exact evaluates_operator found result (.integer entryL kindL) (.integer entryR kindR)

/-! ## Rewriting a value into a constant -/

/-- `g'` is `g` with `v` gone and the constant `k` in its place. -/
structure Rewritten (g : Graph) (v k : ValueId) (c : Int32) (g' : Graph) : Prop where
  others : ∀ x, x ≠ v → x ≠ k → g'.node x = (g.node x).map fun n => (n.1, n.2.map (subst v k))
  gone : g'.node v = none
  constant : g'.node k = some (.integer c, [])
  absent : g.node k = none
  unused : ∀ x kind operands, g.node x = some (kind, operands) → k ∉ operands

theorem subst_self (v k : ValueId) : subst v k v = k := if_pos rfl

theorem subst_of_ne (hx : x ≠ v) : subst v k x = x := if_neg hx

namespace Rewritten

theorem node_of_ne (h : g.Rewritten v k c g') {kind : Kind} {operands : List ValueId}
    (found : g.node x = some (kind, operands)) (hx : x ≠ v) :
    g'.node x = some (kind, operands.map (subst v k)) := by
  have hk : x ≠ k := by
    intro heq
    rw [heq, h.absent] at found
    cases found
  rw [h.others x hx hk, found]
  rfl

/-- A derivation is copied, and cut off at `v`, where the constant has the same value. -/
theorem forward (h : g.Rewritten v k c g') (known : ∀ d, g.Evaluates v d → d = c)
    (evaluates : g.Evaluates x d) : g'.Evaluates (subst v k x) d := by
  have atValue : ∀ d, g.Evaluates v d → g'.Evaluates (subst v k v) d := by
    intro d evaluates
    rw [subst_self, known d evaluates]
    exact evaluates_integer h.constant
  induction evaluates using Evaluates.induct with
  | integer x n operands found =>
    by_cases hx : x = v
    · rw [hx] at found ⊢
      exact atValue n (evaluates_integer found)
    · rw [subst_of_ne hx]
      exact evaluates_integer (h.node_of_ne found hx)
  | operator x d kind l r a b found result left right ihl ihr =>
    by_cases hx : x = v
    · rw [hx] at found ⊢
      exact atValue d (evaluates_operator found result left right)
    · rw [subst_of_ne hx]
      exact evaluates_operator (h.node_of_ne found hx) result ihl ihr

/-- A derivation after the rewrite comes from one before, with that of `v` put in for the constant. -/
theorem backward (h : g.Rewritten v k c g') (value : g.Evaluates v c) (evaluates : g'.Evaluates x d) :
    ∀ y, y ≠ k → subst v k y = x → g.Evaluates y d := by
  have older : ∀ {y kind operands}, y ≠ v → y ≠ k → g'.node y = some (kind, operands) →
      ∃ former, g.node y = some (kind, former) ∧ former.map (subst v k) = operands := by
    intro y kind operands hv hk found
    rw [h.others y hv hk, Option.map_eq_some_iff] at found
    obtain ⟨⟨_, former⟩, found, same⟩ := found
    cases same
    exact ⟨former, found, rfl⟩
  induction evaluates using Evaluates.induct with
  | integer x n operands found =>
    intro y hk hy
    by_cases hv : y = v
    · rw [← hy, hv, subst_self, h.constant] at found
      cases found
      rw [hv]
      exact value
    · rw [subst_of_ne hv] at hy
      subst hy
      obtain ⟨former, before, -⟩ := older hv hk found
      exact evaluates_integer before
  | operator x d kind l r a b found result _ _ ihl ihr =>
    intro y hk hy
    by_cases hv : y = v
    · rw [← hy, hv, subst_self, h.constant] at found
      cases found
    · rw [subst_of_ne hv] at hy
      subst hy
      obtain ⟨former, before, same⟩ := older hv hk found
      have unused := h.unused y kind former before
      obtain ⟨l', rest, rfl, hl, same⟩ := List.map_eq_cons_iff.1 same
      obtain ⟨r', rest, rfl, hr, same⟩ := List.map_eq_cons_iff.1 same
      rw [List.map_eq_nil_iff.1 same] at before unused
      refine evaluates_operator before result (ihl l' ?_ hl) (ihr r' ?_ hr)
      · intro heq
        exact unused (heq ▸ List.mem_cons_self ..)
      · intro heq
        exact unused (heq ▸ List.mem_cons_of_mem _ (List.mem_cons_self ..))

theorem evaluates_iff (h : g.Rewritten v k c g') (folds : g.fold v = .ok (some c)) (hv : x ≠ v)
    (hk : x ≠ k) : g'.Evaluates x d ↔ g.Evaluates x d := by
  refine ⟨fun after => ?_, fun before => ?_⟩
  · exact h.backward ((evaluates_of_fold folds).2 rfl) after x hk (subst_of_ne hv)
  · rw [← subst_of_ne hv]
    exact h.forward (fun d => (evaluates_of_fold folds).1) before

/-- Integer constants stay what they are; what was folded is none. -/
theorem kindOf_integer (h : g.Rewritten v k c g') (folds : g.fold v = .ok (some c)) {n : Int32}
    (constant : g.kindOf x = some (.integer n)) : x ≠ v ∧ g'.kindOf x = some (.integer n) := by
  obtain ⟨e, entry, kind⟩ := kindOf_eq_some.1 constant
  have hx : x ≠ v := by
    intro heq
    obtain ⟨e', _, _, _, _, entry', -, -, -, result⟩ := fold_eq_some.1 folds
    rw [← heq, entry] at entry'
    cases entry'
    rw [kind] at result
    cases result
  obtain ⟨e', entry', kind', -⟩ := node_eq_some.1 (h.node_of_ne (node_eq_some.2 ⟨e, entry, kind, rfl⟩) hx)
  exact ⟨hx, kindOf_eq_some.2 ⟨e', entry', kind'⟩⟩

/-- Whatever else was foldable still is, with the same result. -/
theorem fold_eq (h : g.Rewritten v k c g') (folds : g.fold v = .ok (some c)) (shaped : g.Shaped)
    (hx : x ≠ v) (foldable : g.isFoldable x = .ok true) :
    g'.isFoldable x = .ok true ∧ ∃ d, g.fold x = .ok (some d) ∧ g'.fold x = .ok (some d) := by
  obtain ⟨e, entry, kind, constants⟩ := isFoldable_eq_true.1 foldable
  have same : e.operands.map (subst v k) = e.operands := by
    refine (List.map_congr_left fun y hy => ?_).trans (List.map_id _)
    obtain ⟨n, constant⟩ := constants y hy
    exact subst_of_ne (h.kindOf_integer folds constant).1
  have after := h.node_of_ne (node_eq_some.2 ⟨e, entry, rfl, rfl⟩) hx
  rw [same] at after
  obtain ⟨e', entry', kind', operands'⟩ := node_eq_some.1 after
  have two : e.operands.length = 2 := by
    have arity := shaped x e entry
    rcases kind with ⟨op, kind⟩ | ⟨op, kind⟩
    · rw [kind] at arity
      exact arity
    · rw [kind] at arity
      exact arity
  obtain ⟨l, r, operands⟩ := List.length_eq_two.1 two
  obtain ⟨a, left⟩ := constants l (by simp [operands])
  obtain ⟨b, right⟩ := constants r (by simp [operands])
  obtain ⟨d, result⟩ : ∃ d, evalKind e.kind a b = some d := by
    rcases kind with ⟨op, kind⟩ | ⟨op, kind⟩
    · exact ⟨_, by rw [kind]; rfl⟩
    · exact ⟨_, by rw [kind]; rfl⟩
  refine ⟨isFoldable_eq_true.2 ⟨e', entry', kind' ▸ kind, fun y hy => ?_⟩, d,
    fold_eq_some.2 ⟨e, l, r, a, b, entry, operands, left, right, result⟩,
    fold_eq_some.2 ⟨e', l, r, a, b, entry', operands'.trans operands,
      (h.kindOf_integer folds left).2, (h.kindOf_integer folds right).2, kind' ▸ result⟩⟩
  obtain ⟨n, constant⟩ := constants y (operands' ▸ hy)
  exact ⟨n, (h.kindOf_integer folds constant).2⟩

end Rewritten

/-! ## The three edits -/

theorem node_entered (e : Value) (x : ValueId) :
    (g.entered e).node x = if x = g.next then some (e.kind, e.operands) else g.node x :=
  view_entered (fun e => (e.kind, e.operands)) (fun _ _ => rfl) e x

theorem node_without (operands : List ValueId) (x : ValueId) :
    (g.without v operands).node x = if x = v then none else g.node x :=
  view_without (fun e => (e.kind, e.operands)) (fun _ _ => rfl) v operands x

theorem Substituted.node {old new : ValueId} (h : g.Substituted old new g') (x : ValueId) :
    g'.node x = (g.node x).map fun n => (n.1, n.2.map (subst old new)) := by
  have frame := h.values x
  have slots : ∀ i, (g'.values[x]?.bind fun e => e.operands[i]?) =
      (g.values[x]?.bind fun e => e.operands[i]?).map (subst old new) := fun i => h.slots ⟨x, i⟩
  unfold Graph.node
  cases before : g.values[x]? with
  | none =>
    rw [before] at frame
    rw [Option.map_eq_none_iff.1 frame]
    rfl
  | some e =>
    rw [before] at frame slots
    obtain ⟨e', after, same⟩ := Option.map_eq_some_iff.1 frame
    rw [after] at slots ⊢
    have kind : e'.kind = e.kind := congrArg (fun f => f.2.1) same
    have operands : e'.operands = e.operands.map (subst old new) := by
      refine List.ext_getElem? fun i => ?_
      rw [List.getElem?_map]
      exact slots i
    simp [kind, operands]

theorem removeValue_node {entry : Value} (h : g.removeValue v = .ok (.ok entry, g')) (x : ValueId) :
    g'.node x = if x = v then none else g.node x := by
  obtain ⟨e, -, -, -, -, -, ⟨-, rfl⟩ | ⟨block, g₁, -, left, rfl⟩⟩ := removeValue_split h
  · exact node_without e.operands x
  · obtain ⟨_, _, gone, -, -, -, -, -, -, rfl⟩ := detach_ok left
    rw [node_without]
    unfold node
    rw [displaced, values_mapBlocks, getElem?_mapValues]
    cases g.values[x]? <;> rfl

/-- Removing what is no branch takes it out of the list it is in and leaves the edges. -/
theorem removeValue_blocks (wf : g.WellFormed) {entry : Value} {e : Value}
    (found : g.values[v]? = some e) (noBranch : e.kind ≠ .branch)
    (h : g.removeValue v = .ok (.ok entry, g')) (b : BlockId) :
    g'.blocks[b]? = g.blocks[b]?.map fun block =>
      { block with insts := block.insts.filter (· ≠ v) } := by
  obtain ⟨-, -, -, rfl⟩ := wf.removal_of_ok h
  have kept : ∀ a b, g.branches a b ≠ [v] := fun a b only =>
    noBranch (target_of_branches_eq found only).2.branch
  show (g.blocks.map _)[b]? = _
  rw [Std.ExtTreeMap.getElem?_map]
  refine Option.map_congr fun B hb => ?_
  simp only [kept, ne_eq, not_false_eq_true, decide_true, List.filter_true]
  split
  · rfl
  · rename_i elsewhere
    -- the value is in no other list
    have unlisted : B.insts.filter (· ≠ v) = B.insts := by
      refine List.filter_eq_self.2 fun x hx => decide_eq_true fun heq => elsewhere ?_
      rw [wf.placed.filed.iff, instsOf_eq hb]
      exact heq ▸ hx
    rw [unlisted]

/-- Writing slots that no edge depends on leaves the blocks. -/
theorem blocks_writeOperands {order : List Use} {new : ValueId} (apart : ∀ u ∈ order, g.source u = none)
    (h : order.foldlM (fun g u => do return (← g.writeOperand u.user u.index new).2) g = .ok g') :
    g'.blocks = g.blocks := by
  induction order generalizing g with
  | nil =>
    rw [List.foldlM_nil, pure_eq_ok] at h
    rw [h]
  | cons u order ih =>
    simp only [List.foldlM_cons, bind_eq_ok, pure_eq_ok, Prod.exists] at h
    obtain ⟨_, ⟨old, g₁, written, rfl⟩, h⟩ := h
    have framed := writeOperand_framed written
    have rest := ih (fun s hs => (framed.source s).trans (apart s (List.mem_cons_of_mem u hs))) h
    refine rest.trans ?_
    obtain ⟨e, entry, -, ⟨-, rfl⟩ | ⟨-, -, -, done⟩⟩ := writeOperand_eq_ok.1 written
    · rfl
    · have none : edgeSource? e u.index = none := by
        have own := apart u (List.mem_cons_self ..)
        rw [source, entry] at own
        exact own
      rw [none] at done
      rw [done]
      rfl

theorem jumps_of_entered {e : Value} (noBranch : e.kind ≠ .branch) (h : (g.entered e).Jumps x v) :
    g.Jumps x v := by
  obtain ⟨user, found, target⟩ := h
  by_cases hx : x = g.next
  · rw [hx, getElem?_entered_self] at found
    cases found
    exact absurd target.branch noBranch
  · rw [getElem?_entered_of_ne hx, Option.map_eq_some_iff] at found
    obtain ⟨former, found, rfl⟩ := found
    exact ⟨former, found, target⟩

/-- The constant is entered and substituted, and the value removed. -/
theorem rewritten_of_edits {g₂ g₃ : Graph} {e removed : Value} (num : g.Numbered) (useDef : g.UseDef)
    (kind : e.kind = .integer c) (none : e.operands = []) (ne : v ≠ g.next)
    (substituted : (g.entered e).Substituted v g.next g₂)
    (removal : g₂.removeValue v = .ok (.ok removed, g₃)) : g.Rewritten v g.next c g₃ where
  others x hv hk := by
    rw [removeValue_node removal, if_neg hv, substituted.node, node_entered, if_neg hk]
  gone := by
    rw [removeValue_node removal, if_pos rfl]
  constant := by
    rw [removeValue_node removal, if_neg ne.symm, substituted.node, node_entered, if_pos rfl, kind, none]
    rfl
  absent := by
    rw [node, num.values_next]
    rfl
  unused x kind operands found := by
    obtain ⟨user, entry, -, rfl⟩ := node_eq_some.1 found
    exact fun held => num.next_not_mem (useDef.operands_live entry g.next held)

/-- What folding `v` into the constant `k` leaves. -/
structure Folded (g : Graph) (v k : ValueId) (c : Int32) (g' : Graph) : Prop where
  evaluates : ∀ x d, x ≠ v → x ≠ k → (g'.Evaluates x d ↔ g.Evaluates x d)
  foldable : ∀ x, x ≠ v → g.isFoldable x = .ok true →
    g'.isFoldable x = .ok true ∧ g'.fold x = g.fold x
  blocks : ∀ b : BlockId, g'.blocks[b]? = g.blocks[b]?.map fun block =>
    { block with insts := block.insts.filter (· ≠ v) }
  constant : g'.Evaluates k c
  gone : v ∉ g'.values

end Graph

/-! ## Every run -/

namespace Workspace

variable {w : Workspace} {v k : ValueId} {c : Int32} {e : Value}

/-- Slots for blocks and callees do not hold other values, targets of detached branches apart. -/
theorem Built.fits_constant (built : w.Built) (entry : w.graph.values[v]? = some e)
    (noBlock : e.kind ≠ .block) (noFunction : e.kind ≠ .function) (free : ∀ x, ¬w.graph.Jumps x v)
    {u : Use} (held : w.graph.slot u = some v) : w.graph.Fits u k ∧ w.graph.source u = none := by
  have wf := built.wellFormed
  have kind : w.graph.kindOf v = some e.kind := Graph.kindOf_eq_some.2 ⟨e, entry, rfl⟩
  obtain ⟨user, found, operand⟩ := Graph.slot_eq_some.1 held
  have made := built.wellMade.1 u.user user found
  have range := (List.getElem?_eq_some_iff.1 operand).1
  have slot := Graph.isBlockSlot_iff (wf.shaped u.user user found) range
  have noTarget : ¬(user.kind = .branch ∧ user.isBlockSlot u.index = true) := by
    rintro ⟨branch, target⟩
    refine free u.user ⟨user, found, (Graph.hasTarget_iff_slot wf.shaped found).2 ⟨branch, u.index, target, ?_⟩⟩
    exact held
  have noPair : ¬(user.kind = .phi ∧ u.index % 2 = 1) := by
    rintro ⟨phi, odd⟩
    have block := (wf.catalogued.block v).1 (made.incoming phi u.index v odd operand)
    rw [kind] at block
    exact noBlock (Option.some.inj block)
  have noCallee : ¬(user.kind = .call ∧ u.index = 0) := by
    rintro ⟨call, first⟩
    rw [first] at operand
    have function := (wf.catalogued.function v).1 (made.callee call v operand)
    rw [kind] at function
    exact noFunction (Option.some.inj function)
  refine ⟨⟨fun user' found' holds => ?_, fun user' found' call first => ?_⟩, ?_⟩
  · rw [found] at found'
    cases found'
    have target := slot.2 holds
    rcases holds with ⟨branch, -⟩ | pair
    · exact absurd ⟨branch, target⟩ noTarget
    · exact absurd pair noPair
  · rw [found] at found'
    cases found'
    exact absurd ⟨call, first⟩ noCallee
  · rw [Graph.source, found]
    exact if_neg noTarget

/-- Such a value gives way to any other, in any order of its slots, and no edge moves. -/
theorem Built.replace_constant (built : w.Built) (entry : w.graph.values[v]? = some e)
    (noBlock : e.kind ≠ .block) (noFunction : e.kind ≠ .function) (free : ∀ x, ¬w.graph.Jumps x v)
    (live : k ∈ w.graph.values) (ne : v ≠ k) {order : List Use} (perm : order.Perm e.uses.toList) :
    ∃ g', w.graph.replaceUses order k = .ok (.ok (), g') ∧ w.graph.Substituted v k g' ∧
      g'.blocks = w.graph.blocks := by
  have fits : ∀ u, w.graph.slot u = some v → w.graph.Fits u k ∧ w.graph.source u = none :=
    fun u held => built.fits_constant entry noBlock noFunction free held
  rcases built.replaceUses_cases entry live ne perm with ⟨-, g', run, done⟩ | ⟨refused, -⟩
  · refine ⟨g', run, done, ?_⟩
    simp only [Graph.replaceUses, bind_eq_ok] at run
    obtain ⟨refusal, -, run⟩ := run
    cases refusal with
    | some reason => simp [pure_eq_ok] at run
    | none =>
      simp only [bind_eq_ok, pure_eq_ok, Prod.mk.injEq] at run
      obtain ⟨_, written, -, rfl⟩ := run
      have members := built.useDef.mem_order entry perm
      exact Graph.blocks_writeOperands (fun u hu => (fits u ((members u).1 hu)).2)
        (by simpa only [bind_eq_ok] using written)
  · exact absurd (fun u held => (fits u held).1) refused

/-- An instruction that no slot holds is removed. -/
theorem Built.remove_unused (built : w.Built) (entry : w.graph.values[v]? = some e)
    (inst : e.kind.isInst = true) (unused : w.graph.usesOf v = ∅) :
    ∃ removed g', w.graph.removeInst v = .ok (.ok removed, g') ∧
      w.graph.removeValue v = .ok (.ok removed, g') := by
  have wf := built.wellFormed
  have noBlock : e.kind ≠ .block := fun kind => by
    rw [kind] at inst
    cases inst
  have noFunction : e.kind ≠ .function := fun kind => by
    rw [kind] at inst
    cases inst
  obtain ⟨⟨answer, g'⟩, run⟩ := Graph.removeValue_total wf entry noBlock noFunction
  have same := Graph.removeInst_eq entry inst
  cases answer with
  | ok removed => exact ⟨removed, g', same.trans run, run⟩
  | error reason =>
    cases ((Graph.removeValue_answered wf run).exact reason).1 rfl with
    | inUse entry held =>
      rw [← wf.useDef, unused] at held
      simp at held

/-- What can be folded is a binary operator or a comparison, of an integer type. -/
theorem Built.operator_of_fold (built : w.Built) (entry : w.graph.values[v]? = some e)
    (folds : w.graph.fold v = .ok (some c)) :
    ((∃ op, e.kind = .binary op) ∨ ∃ op, e.kind = .compare op) ∧ e.ty.isInt = true := by
  obtain ⟨e', l, r, a, b, entry', -, -, -, result⟩ := Graph.fold_eq_some.1 folds
  rw [entry] at entry'
  cases entry'
  have made := (built.wellMade.1 v e entry).result
  cases kind : e.kind with
  | binary op =>
    rw [kind] at made
    exact ⟨.inl ⟨op, rfl⟩, by rw [made _ rfl]; rfl⟩
  | compare op =>
    rw [kind] at made
    exact ⟨.inr ⟨op, rfl⟩, by rw [made _ rfl]; rfl⟩
  | _ =>
    rw [kind] at result
    cases result

/-- Once the constant is there, it takes the place of the operator, which then goes. -/
theorem Built.fold_edits (built : w.Built) (entry : w.graph.values[v]? = some e)
    (folds : w.graph.fold v = .ok (some c)) (free : ∀ x, ¬w.graph.Jumps x v) {constant : Value}
    (drafted : (Draft.integerOf e.ty c).value w.graph = .ok constant)
    (same : constant = { ty := e.ty, kind := .integer c }) {order : List Use}
    (perm : order.Perm e.uses.toList) :
    ∃ g₂ removed g₃,
      (w.graph.entered constant).replaceUses order w.graph.next = .ok (.ok (), g₂) ∧
      g₂.removeInst v = .ok (.ok removed, g₃) ∧ w.graph.Folded v w.graph.next c g₃ := by
  have num := built.numbered
  obtain ⟨operator, -⟩ := built.operator_of_fold entry folds
  have ne : v ≠ w.graph.next := Nat.ne_of_lt (num.values v (Table.mem_of_getElem? entry))
  have kind : constant.kind = .integer c := by rw [same]
  have none : constant.operands = [] := by rw [same]
  -- `v` is in the graph with the constant what it was
  have built₁ : (w.withGraph (w.graph.entered constant)).Built :=
    built.changes (.single (.graph (.enter drafted (by simp [none]))))
  have grown := Graph.grown_entered num (Draft.value_plain drafted).toIdle none
  have entry₁ : (w.graph.entered constant).values[v]? = some e :=
    (grown.old v (Table.mem_of_getElem? entry)).trans entry
  have free₁ : ∀ x, ¬(w.graph.entered constant).Jumps x v :=
    fun x jumps => free x (Graph.jumps_of_entered (by simp [kind]) jumps)
  obtain ⟨g₂, replaced, substituted, blocks₂⟩ := built₁.replace_constant entry₁
    (by rcases operator with ⟨op, kind⟩ | ⟨op, kind⟩ <;> simp [kind])
    (by rcases operator with ⟨op, kind⟩ | ⟨op, kind⟩ <;> simp [kind])
    free₁ (Graph.mem_entered.2 (.inl rfl)) ne perm
  have built₂ : ((w.withGraph (w.graph.entered constant)).withGraph g₂).Built :=
    built₁.changes (changes_withGraph (Graph.replaceUses_changes replaced))
  -- nothing holds it any more
  obtain ⟨e₂, entry₂, frame⟩ : ∃ e₂, g₂.values[v]? = some e₂ ∧ e₂.frame = e.frame := by
    have frame := substituted.values v
    rw [show (w.withGraph (w.graph.entered constant)).graph.values[v]? = some e from entry₁] at frame
    exact Option.map_eq_some_iff.1 frame
  have kind₂ : e₂.kind = e.kind := congrArg (fun f => f.2.1) frame
  obtain ⟨removed, g₃, removal, removal'⟩ := built₂.remove_unused (e := e₂) entry₂
    (by rw [kind₂]; rcases operator with ⟨op, kind⟩ | ⟨op, kind⟩ <;> (rw [kind]; rfl))
    substituted.usesOld
  have rewritten := Graph.rewritten_of_edits num built.useDef kind none ne substituted removal'
  refine ⟨g₂, removed, g₃, replaced, removal, ?_⟩
  refine ⟨fun x d hv hk => rewritten.evaluates_iff folds hv hk, fun x hv foldable => ?_, fun b => ?_,
    Graph.evaluates_integer rewritten.constant, fun live => ?_⟩
  · obtain ⟨still, d, before, after⟩ := rewritten.fold_eq folds built.shaped hv foldable
    exact ⟨still, after.trans before.symm⟩
  · have noBranch : e₂.kind ≠ .branch := by
      rw [kind₂]
      rcases operator with ⟨op, kind⟩ | ⟨op, kind⟩ <;> simp [kind]
    rw [Graph.removeValue_blocks built₂.wellFormed entry₂ noBranch removal']
    show g₂.blocks[b]?.map _ = _
    rw [blocks₂]
    rfl
  · obtain ⟨entry, found⟩ := Table.getElem?_of_mem live
    have gone := rewritten.gone
    rw [Graph.node, found] at gone
    cases gone

/-- Folding an operator keeps the meaning of the graph, after every run. Unless the handles have run out,
the constant is created; it then replaces the operator whatever order the slots are visited in, and the
operator is removed. Every other value evaluates as before, what else was foldable still is and to the
same result, and the blocks lose the operator from their instruction lists and nothing more. -/
theorem folding_keeps_meaning (h : w.Reachable) (entry : w.graph.values[v]? = some e)
    (folds : w.graph.fold v = .ok (some c)) (free : ∀ x, ¬w.graph.Jumps x v) {spot : Option BlockId}
    (known : ∀ b ∈ spot, b ∈ w.graph.blocks) :
    (¬w.graph.next + 1 < Graph.handleLimit →
        w.graph.build (.integerOf e.ty c) spot = .error .tooManyValues) ∧
      (w.graph.next + 1 < Graph.handleLimit →
        ∃ k g₁, w.graph.build (.integerOf e.ty c) spot = .ok (k, g₁) ∧
          g₁.replaceAllUses v k = g₁.replaceUses e.uses.toList k ∧
          ∀ order : List Use, order.Perm e.uses.toList →
            ∃ g₂ removed g₃, g₁.replaceUses order k = .ok (.ok (), g₂) ∧
              g₂.removeInst v = .ok (.ok removed, g₃) ∧ w.graph.Folded v k c g₃) := by
  have built := h.built
  have num := built.numbered
  let constant : Value := { ty := e.ty, kind := .integer c }
  have drafted : (Draft.integerOf e.ty c).value w.graph = .ok constant := by
    simp [Draft.value, require, (built.operator_of_fold entry folds).2, constant]
  refine ⟨Graph.build_exhausted known drafted, fun room => ?_⟩
  refine ⟨w.graph.next, w.graph.entered constant,
    Graph.build_constant known drafted rfl rfl room, ?_,
    fun order perm => built.fold_edits entry folds free drafted rfl perm⟩
  have live := Table.mem_of_getElem? entry
  have grown := Graph.grown_entered num (Draft.value_plain drafted).toIdle rfl
  exact Graph.replaceAllUses_eq ((grown.old v live).trans entry) (Graph.mem_entered.2 (.inl rfl))
    (Nat.ne_of_lt (num.values v live))

theorem fold_condition : loop.graph.fold 5 = .ok (some 1) := by decide +kernel

theorem ty_condition : loop.graph.values[5]?.map Value.ty = some .i1 := by decide +kernel

/-- The condition of the loop is held by a branch, but as what it tests. -/
theorem not_jumps_condition (x : ValueId) : ¬loop.graph.Jumps x 5 := by
  have built := reachable_loop.built
  have uses : (loop.graph.usesOf 5).toList = [⟨6, 0⟩] := by decide +kernel
  have branch : (loop.graph.values[6]?.map fun b => b.isBlockSlot 0) = some false := by decide +kernel
  rintro ⟨user, found, target⟩
  obtain ⟨-, i, slot, held⟩ := (Graph.hasTarget_iff_slot built.shaped found).1 target
  have recorded := Std.ExtTreeSet.mem_toList.2 ((built.useDef 5 ⟨x, i⟩).2 held)
  rw [uses, List.mem_singleton, Use.mk.injEq] at recorded
  obtain ⟨rfl, rfl⟩ := recorded
  rw [found, Option.map_some, slot] at branch
  cases branch

/-- The condition of the branch into the loop compares a constant with itself. -/
theorem folding_keeps_meaning_loop : loop.Reachable ∧ loop.graph.fold 5 = .ok (some 1) ∧
    (∀ x, ¬loop.graph.Jumps x 5) ∧
    ∃ g₁ g₂ removed g₃, loop.graph.build (.integerOf .i1 1) (some 2) = .ok (11, g₁) ∧
      g₁.replaceAllUses 5 11 = .ok (.ok (), g₂) ∧ g₂.removeInst 5 = .ok (.ok removed, g₃) ∧
      loop.graph.Folded 5 11 1 g₃ := by
  have known : ∀ b ∈ some 2, b ∈ loop.graph.blocks := by
    rintro b ⟨⟩
    decide +kernel
  obtain ⟨e, entry, ty⟩ := Option.map_eq_some_iff.1 ty_condition
  obtain ⟨k, g₁, creation, all, every⟩ :=
    (folding_keeps_meaning reachable_loop entry fold_condition not_jumps_condition known).2
      (by decide +kernel)
  obtain ⟨g₂, removed, g₃, replaced, removal, folded⟩ := every _ (.refl _)
  rw [ty] at creation
  have number : (loop.graph.build (.integerOf .i1 1) (some 2)).map (·.1) = .ok 11 := by decide +kernel
  rw [creation] at number
  obtain rfl : k = 11 := Except.ok.inj number
  exact ⟨reachable_loop, fold_condition, not_jumps_condition, g₁, g₂, removed, g₃, creation,
    all.trans replaced, removal, folded⟩

/-- The same condition when the handles have run out: it still folds and nothing jumps to it, and yet the
constant can not be created. -/
theorem folding_out_of_handles : ∃ (w : Workspace) (e : Value), w.Reachable ∧
    w.graph = { loop.graph with next := Graph.handleLimit - 1 } ∧
    w.graph.values[5]? = some e ∧ w.graph.fold 5 = .ok (some 1) ∧ (∀ x, ¬w.graph.Jumps x 5) ∧
    w.graph.build (.integerOf e.ty 1) none = .error .tooManyValues := by
  obtain ⟨w, reached, same⟩ := reachable_loop.exists_exhausted
  obtain ⟨e, entry, ty⟩ := Option.map_eq_some_iff.1 ty_condition
  refine ⟨w, e, reached, same, ?_⟩
  rw [same, ty]
  exact ⟨entry, fold_condition, not_jumps_condition, Graph.build_exhausted (by simp) rfl (by decide)⟩

end Workspace

end SsaGraph
