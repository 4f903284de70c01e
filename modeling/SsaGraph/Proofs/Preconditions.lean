import SsaGraph.Proofs.Replacement

/-!
# Preconditions

An operation that changes a graph follows handles that are stored in it: operands, users, parents,
targets, the instructions of a block. Each lookup on the way could fault. After a run none of them does,
so what is left are the handles that the caller passes in.

Results:
* `Graph.setOperand_succeeds_iff` and the like: the condition under which each operation goes through;
* `faults_exactly`: the edits fault exactly when the condition fails, after every run.
-/
namespace SsaGraph

/-- The operation ends in a fault. -/
def Faults {α : Type} (x : Except Fault α) : Prop := ∃ fault, x = .error fault

/-- A fault comes from the first step if the rest always goes through. -/
theorem faults_bind_iff {α β : Type} {x : Except Fault α} {f : α → Except Fault β} {p : Prop}
    (succeeds : (∃ r, x = .ok r) ↔ p) (rest : ∀ a, ∃ r, f a = .ok r) : Faults (x >>= f) ↔ ¬p := by
  rw [← succeeds]
  cases x with
  | error fault => simp [Faults, bind, Except.bind]
  | ok a =>
    obtain ⟨r, hr⟩ := rest a
    simp [Faults, bind, Except.bind, hr]

theorem Table.not_exists_entry {α : Type} {table : Table α} {id : ValueId} {P : α → Prop} :
    (¬∃ e, table[id]? = some e ∧ P e) ↔ id ∉ table ∨ ∃ e, table[id]? = some e ∧ ¬P e := by
  by_cases found : id ∈ table <;> simp [found]

namespace Graph

variable {g g' : Graph} {v inst phi value user : ValueId} {block : BlockId}

/-! ## Operands -/

theorem setOperand_succeeds_iff (wf : g.WellFormed) {index : Nat} :
    (∃ r, g.setOperand user index value = .ok r) ↔ value ∈ g.values ∧ user ∈ g.values := by
  refine ⟨fun ⟨r, h⟩ => ?_, fun ⟨live, userLive⟩ => setOperand_total wf live userLive index⟩
  simp only [setOperand, slotRefusal?, bind_eq_ok, require_eq_ok, value_eq_ok] at h
  obtain ⟨-, live, _, ⟨e, he, -⟩, -⟩ := h
  exact ⟨live, Table.mem_of_getElem? he⟩

theorem addIncoming_succeeds_iff (cat : g.Catalogued) :
    (∃ g', g.addIncoming phi value block = .ok g') ↔
      g.kindOf phi = some .phi ∧ block ∈ g.blocks ∧ value ∈ g.values ∧ g.tyOf value = g.tyOf phi := by
  refine ⟨fun ⟨g', h⟩ => ?_, fun ⟨kind, blockLive, live, ty⟩ => ?_⟩
  · simp only [addIncoming, bind_eq_ok, value_eq_ok, require_eq_ok] at h
    obtain ⟨p, hp, -, kind, -, blockLive, v, hv, -, ty, -⟩ := h
    refine ⟨kindOf_eq_some.2 ⟨p, hp, kind⟩, blockLive, Table.mem_of_getElem? hv, ?_⟩
    rw [tyOf_eq_some.2 ⟨v, hv, ty⟩, tyOf_eq_some.2 ⟨p, hp, rfl⟩]
  · obtain ⟨p, hp, isPhi⟩ := kindOf_eq_some.1 kind
    exact addIncoming_total cat hp isPhi blockLive (ty.trans (tyOf_eq_some.2 ⟨p, hp, rfl⟩))

/-- Both operands of the pair are added, in this order. -/
theorem operands_addIncoming (h : g.addIncoming phi value block = .ok g') :
    ∃ p p', g.values[phi]? = some p ∧ g'.values[phi]? = some p' ∧
      p'.operands = p.operands ++ [value, block] := by
  simp only [addIncoming, bind_eq_ok, value_eq_ok, pushOperand_eq_ok] at h
  obtain ⟨p, hp, -, -, -, -, _, -, -, -, _, ⟨_, -, -, rfl⟩, _, -, -, rfl⟩ := h
  refine ⟨p, _, hp, getElem?_extended_self (getElem?_extended_self hp _ value) _ block, ?_⟩
  simp [Value.extended]

/-! ## Removing -/

theorem removeValue_succeeds_iff (wf : g.WellFormed) : (∃ r, g.removeValue v = .ok r) ↔
    v ∈ g.values ∧ g.kindOf v ≠ some .block ∧ g.kindOf v ≠ some .function := by
  refine ⟨fun ⟨r, h⟩ => ?_, fun ⟨live, noBlock, noFunction⟩ => ?_⟩
  · simp only [removeValue, bind_eq_ok, value_eq_ok, require_eq_ok] at h
    obtain ⟨e, he, -, ⟨noBlock, noFunction⟩, -⟩ := h
    have kind : g.kindOf v = some e.kind := kindOf_eq_some.2 ⟨e, he, rfl⟩
    exact ⟨Table.mem_of_getElem? he, by simpa [kind] using noBlock, by simpa [kind] using noFunction⟩
  · obtain ⟨e, he⟩ := Table.getElem?_of_mem live
    rw [kindOf_eq_some.2 ⟨e, he, rfl⟩] at noBlock noFunction
    exact removeValue_total wf he (by simpa using noBlock) (by simpa using noFunction)

/-- A block or a function is no instruction, and is refused as such. -/
theorem removeInst_succeeds_iff (wf : g.WellFormed) :
    (∃ r, g.removeInst v = .ok r) ↔ v ∈ g.values := by
  refine ⟨fun ⟨r, h⟩ => ?_, fun live => ?_⟩
  · simp only [removeInst, bind_eq_ok, value_eq_ok] at h
    obtain ⟨e, he, -⟩ := h
    exact Table.mem_of_getElem? he
  · obtain ⟨e, he⟩ := Table.getElem?_of_mem live
    refine ok_bind (value_eq_ok.2 he) ?_
    split
    · exact ⟨_, rfl⟩
    · rename_i inst
      refine removeValue_total wf he (fun block => inst ?_) fun function => inst ?_
      · rw [block]
        rfl
      · rw [function]
        rfl

/-! ## Attaching and detaching -/

theorem detach_succeeds_iff (wf : g.WellFormed) : (∃ r, g.detach inst = .ok r) ↔
    ∃ e, g.values[inst]? = some e ∧ (e.kind.isInst = true → e.parent ≠ none) := by
  refine ⟨fun ⟨r, h⟩ => ?_, fun ⟨e, he, attached⟩ => ?_⟩
  · simp only [detach, bind_eq_ok, value_eq_ok] at h
    obtain ⟨e, he, h⟩ := h
    refine ⟨e, he, fun isInst detached => ?_⟩
    simp only [isInst, Bool.true_eq_false, if_false, detached] at h
    cases h
  · cases kind : e.kind.isInst with
    | false => exact ok_bind (value_eq_ok.2 he) ⟨_, by rw [if_pos kind]; rfl⟩
    | true =>
      obtain ⟨b, parent⟩ := Option.ne_none_iff_exists'.1 (attached kind)
      exact detach_total wf he parent

theorem attach_succeeds_iff (wf : g.WellFormed) : (∃ r, g.attach inst block = .ok r) ↔
    ∃ e, g.values[inst]? = some e ∧ (e.kind.isInst = true → e.parent = none →
      block ∈ g.blocks ∧ ∀ t, e.HasTarget t → t ∈ g.blocks) := by
  refine ⟨fun ⟨r, h⟩ => ?_, fun ⟨e, he, ready⟩ => ?_⟩
  · simp only [attach, bind_eq_ok, value_eq_ok] at h
    obtain ⟨e, he, h⟩ := h
    refine ⟨e, he, fun isInst detached => ?_⟩
    simp only [isInst, Bool.true_eq_false, if_false, detached, bind_eq_ok, require_eq_ok] at h
    obtain ⟨-, spot, h⟩ := h
    obtain ⟨answer, g'⟩ := r
    rw [wf.placed.place_answer he detached h] at h
    obtain ⟨e', _, targets, _, _, he', -, -, branch, live, -⟩ := place_ok h
    rw [he] at he'
    cases he'
    exact ⟨spot, fun t target => live t ((mem_of_targetsOf branch t).2 target)⟩
  · refine ok_bind (value_eq_ok.2 he) ?_
    split
    · exact ⟨_, rfl⟩
    · rename_i other
      have isInst : e.kind.isInst = true := by simpa using other
      split
      · exact ⟨_, rfl⟩
      · rename_i detached
        obtain ⟨spot, live⟩ := ready isInst detached
        obtain ⟨targets, branch⟩ := targetsOf_total (wf.shaped inst e he)
        refine ok_bind ((require_eq_ok (u := ())).2 spot) (place_total wf.placed he spot branch ?_)
        exact fun t ht => live t ((mem_of_targetsOf branch t).1 ht)

end Graph

/-! ## Every run -/

namespace Workspace

variable {w w' : Workspace}

/-- Replacing does not fault on the way, in whatever order the slots are visited. -/
theorem Built.replaceUses_succeeds (built : w.Built) {old new : ValueId} {v : Value} {order : List Use}
    (entry : w.graph.values[old]? = some v) (live : new ∈ w.graph.values) (ne : old ≠ new)
    (perm : order.Perm v.uses.toList) : ∃ r, w.graph.replaceUses order new = .ok r := by
  rcases built.replaceUses_cases entry live ne perm with ⟨-, g', run, -⟩ | ⟨-, reason, run⟩
  · exact ⟨_, run⟩
  · exact ⟨_, run⟩

theorem Built.replaceAllUses_succeeds_iff (built : w.Built) {old new : ValueId} :
    (∃ r, w.graph.replaceAllUses old new = .ok r) ↔
      new ∈ w.graph.values ∧ (old ≠ new → old ∈ w.graph.values) := by
  refine ⟨fun ⟨r, h⟩ => ?_, fun ⟨live, oldLive⟩ => ?_⟩
  · simp only [Graph.replaceAllUses, bind_eq_ok, require_eq_ok] at h
    obtain ⟨-, live, h⟩ := h
    refine ⟨live, fun ne => ?_⟩
    rw [if_neg ne, bind_eq_ok] at h
    obtain ⟨v, entry, -⟩ := h
    exact Table.mem_of_getElem? (Graph.value_eq_ok.1 entry)
  · refine ok_bind ((require_eq_ok (u := ())).2 live) ?_
    split
    · exact ⟨_, rfl⟩
    · rename_i ne
      obtain ⟨v, entry⟩ := Table.getElem?_of_mem (oldLive ne)
      exact ok_bind (Graph.value_eq_ok.2 entry) (built.replaceUses_succeeds entry live ne (.refl _))

/-- The edits of an existing program fault on their preconditions and on nothing else. -/
structure FaultsExactly (w : Workspace) : Prop where
  setOperand : ∀ user index value, Faults (w.apply (.setOperand user index value)) ↔
    value ∉ w.graph.values ∨ user ∉ w.graph.values
  replaceAllUses : ∀ old new, Faults (w.apply (.replaceAllUses old new)) ↔
    new ∉ w.graph.values ∨ old ≠ new ∧ old ∉ w.graph.values
  /-- No order of the slots makes a difference. -/
  replaceUses : ∀ old new v order, w.graph.values[old]? = some v → new ∈ w.graph.values → old ≠ new →
    List.Perm order v.uses.toList → ¬Faults (w.graph.replaceUses order new)
  addIncoming : ∀ phi value block, Faults (w.apply (.addIncoming phi value block)) ↔
    w.graph.kindOf phi ≠ some .phi ∨ block ∉ w.graph.blocks ∨ value ∉ w.graph.values ∨
      w.graph.tyOf value ≠ w.graph.tyOf phi
  incoming : ∀ phi value block answer w', w.apply (.addIncoming phi value block) = .ok (answer, w') →
    ∃ p p', w.graph.values[phi]? = some p ∧ w'.graph.values[phi]? = some p' ∧
      p'.operands = p.operands ++ [value, block]
  removeValue : ∀ v, Faults (w.apply (.removeValue v)) ↔
    v ∉ w.graph.values ∨ w.graph.kindOf v = some .block ∨ w.graph.kindOf v = some .function
  removeInst : ∀ v, Faults (w.apply (.removeInst v)) ↔ v ∉ w.graph.values
  detach : ∀ inst, Faults (w.apply (.detach inst)) ↔ inst ∉ w.graph.values ∨
    ∃ e, w.graph.values[inst]? = some e ∧ e.kind.isInst = true ∧ e.parent = none
  attach : ∀ inst block, Faults (w.apply (.attach inst block)) ↔ inst ∉ w.graph.values ∨
    ∃ e, w.graph.values[inst]? = some e ∧ e.kind.isInst = true ∧ e.parent = none ∧
      (block ∉ w.graph.blocks ∨ ∃ t, e.HasTarget t ∧ t ∉ w.graph.blocks)

/-- After every run, the edits that change existing values fault exactly when a handle that is passed in
does not exist or does not fit; nothing that is stored in the graph makes them fault. -/
theorem faults_exactly (h : w.Reachable) : w.FaultsExactly := by
  have wf := h.built.wellFormed
  refine ⟨fun user index value => ?_, fun old new => ?_, fun old new v order entry live ne perm => ?_,
    fun phi value block => ?_, fun phi value block answer w' run => ?_, fun v => ?_, fun v => ?_,
    fun inst => ?_, fun inst block => ?_⟩
  · refine (faults_bind_iff (Graph.setOperand_succeeds_iff wf) fun _ => ⟨_, rfl⟩).trans ?_
    rw [Classical.not_and_iff_not_or_not]
  · refine (faults_bind_iff h.built.replaceAllUses_succeeds_iff fun _ => ⟨_, rfl⟩).trans ?_
    rw [Classical.not_and_iff_not_or_not, Classical.not_imp]
  · rintro ⟨fault, run⟩
    obtain ⟨r, run'⟩ := h.built.replaceUses_succeeds entry live ne perm
    rw [run] at run'
    cases run'
  · refine (faults_bind_iff (Graph.addIncoming_succeeds_iff wf.catalogued) fun _ => ⟨_, rfl⟩).trans ?_
    simp only [Classical.not_and_iff_not_or_not]
  · simp only [apply, bind_eq_ok, pure_eq_ok, Prod.mk.injEq] at run
    obtain ⟨g, run, -, rfl⟩ := run
    exact Graph.operands_addIncoming run
  · refine (faults_bind_iff (Graph.removeValue_succeeds_iff wf) fun _ => ⟨_, rfl⟩).trans ?_
    simp only [Classical.not_and_iff_not_or_not, Classical.not_not]
  · exact faults_bind_iff (Graph.removeInst_succeeds_iff wf) fun _ => ⟨_, rfl⟩
  · refine (faults_bind_iff (Graph.detach_succeeds_iff wf) fun _ => ⟨_, rfl⟩).trans ?_
    simp only [Table.not_exists_entry, Classical.not_imp, Classical.not_not]
  · refine (faults_bind_iff (Graph.attach_succeeds_iff wf) fun _ => ⟨_, rfl⟩).trans ?_
    simp only [Table.not_exists_entry, Classical.not_imp, Classical.not_and_iff_not_or_not,
      Classical.not_forall]

/-- A block of the loop can not be removed, while the jump, which is attached, can. -/
theorem faults_exactly_loop : loop.Reachable ∧ Faults (loop.apply (.removeValue 3)) ∧
    ¬Faults (loop.apply (.removeInst 10)) ∧ ¬Faults (loop.apply (.detach 10)) := by
  obtain ⟨-, -, -, -, -, removeValue, removeInst, detach, -⟩ := faults_exactly reachable_loop
  have block : loop.graph.kindOf 3 = some .block := by decide +kernel
  have live : 10 ∈ loop.graph.values := by decide +kernel
  have attached : loop.graph.parentOf 10 = some 3 := by decide +kernel
  refine ⟨reachable_loop, (removeValue 3).2 (.inr (.inl block)), fun fault => ?_, fun fault => ?_⟩
  · exact (removeInst 10).1 fault live
  · rcases (detach 10).1 fault with absent | ⟨e, entry, -, detached⟩
    · exact absent live
    · rw [Graph.parentOf, entry, Option.bind_some, detached] at attached
      cases attached

end Workspace

end SsaGraph
