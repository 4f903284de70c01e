import SsaGraph.Proofs.Replacement

/-!
# Refusals

An edit that does not fit the graph is refused, and the workspace stays as it was. `Graph.Refuses` says
which edits those are and for which reason, in terms of the graph before the edit.

That nothing changes is not plain from the operations: placing an instruction takes the tail of a list
out before it may find the instruction there already, and removing a value detaches it first. Neither
can be refused halfway in a graph whose lists and parents agree.

Results:
* `Graph.setOperand_answered` and the like: each operation refuses exactly what it has to;
* `refusals_exact`: the same for every edit after every run.
-/
namespace SsaGraph

/-- The edit does not fit the graph, for this reason. -/
inductive Graph.Refuses (g : Graph) : Edit → Refusal → Prop
  | range {user value : ValueId} {index : Nat} {e : Value} (entry : g.values[user]? = some e)
      (out : e.operands.length ≤ index) :
      Refuses g (.setOperand user index value) (.operandOutOfRange user index e.operands.length)
  | noBlock {user value : ValueId} {index : Nat} {e : Value} (entry : g.values[user]? = some e)
      (inside : index < e.operands.length) (slot : e.HoldsBlock index) (none : value ∉ g.blocks) :
      Refuses g (.setOperand user index value) (.notBlock value)
  | noFunction {user value : ValueId} {e : Value} (entry : g.values[user]? = some e)
      (inside : 0 < e.operands.length) (kind : e.kind = .call) (none : value ∉ g.functions) :
      Refuses g (.setOperand user 0 value) (.notFunction value)
  /-- One of the slots to write refuses the new value. -/
  | replace {old new : ValueId} {u : Use} {reason : Refusal} (ne : old ≠ new)
      (held : g.slot u = some old) (refused : Refuses g (.setOperand u.user u.index new) reason) :
      Refuses g (.replaceAllUses old new) reason
  | inUse {v : ValueId} {e : Value} {u : Use} (entry : g.values[v]? = some e)
      (held : g.slot u = some v) : Refuses g (.removeValue v) (.valueInUse v e.uses.size)
  | instInUse {v : ValueId} {e : Value} {reason : Refusal} (entry : g.values[v]? = some e)
      (kind : e.kind.isInst = true) (refused : Refuses g (.removeValue v) reason) :
      Refuses g (.removeInst v) reason
  | removeOther {v : ValueId} {e : Value} (entry : g.values[v]? = some e)
      (kind : e.kind.isInst = false) : Refuses g (.removeInst v) (.notInstruction v)
  | attachOther {v : ValueId} {block : BlockId} {e : Value} (entry : g.values[v]? = some e)
      (kind : e.kind.isInst = false) : Refuses g (.attach v block) (.notInstruction v)
  | detachOther {v : ValueId} {e : Value} (entry : g.values[v]? = some e)
      (kind : e.kind.isInst = false) : Refuses g (.detach v) (.notInstruction v)
  | attached {v : ValueId} {block current : BlockId} {e : Value} (entry : g.values[v]? = some e)
      (kind : e.kind.isInst = true) (parent : e.parent = some current) :
      Refuses g (.attach v block) (.alreadyAttached v current)

namespace Graph

variable {g g' : Graph} {α : Type}

/-- The answer is a refusal exactly for the reasons there are, and then the graph is as it was. -/
structure Answered (g : Graph) (e : Edit) (answer : Except Refusal α) (g' : Graph) : Prop where
  exact : ∀ reason, answer = .error reason ↔ g.Refuses e reason
  same : ∀ reason, answer = .error reason → g' = g

theorem Answered.of_refused {e : Edit} {reason : Refusal} (refused : g.Refuses e reason)
    (only : ∀ r, g.Refuses e r → r = reason) : g.Answered e (.error reason : Except Refusal α) g :=
  ⟨fun _ => ⟨fun h => Except.error.inj h ▸ refused, fun h => congrArg _ (only _ h).symm⟩, fun _ _ => rfl⟩

theorem Answered.of_ok {e : Edit} {a : α} (none : ∀ r, ¬g.Refuses e r) :
    g.Answered e (.ok a : Except Refusal α) g' :=
  ⟨fun r => iff_of_false (by simp) (none r), by simp⟩

/-! ## Slots -/

theorem slotRefusal_eq_some (shaped : g.Shaped) {user value : ValueId} {index : Nat} {reason : Refusal} :
    g.slotRefusal? user index value = .ok (some reason) ↔
      g.Refuses (.setOperand user index value) reason := by
  refine ⟨fun h => ?_, fun h => ?_⟩
  · simp only [slotRefusal?, bind_eq_ok, value_eq_ok] at h
    obtain ⟨v, hv, h⟩ := h
    by_cases out : v.operands.length ≤ index
    · rw [if_pos out, pure_eq_ok, Option.some.injEq] at h
      rw [h]
      exact .range hv out
    · have inside := Nat.not_le.1 out
      rw [if_neg out] at h
      split at h
      · rename_i block
        rw [pure_eq_ok, Option.some.injEq] at h
        rw [h]
        exact .noBlock hv inside ((isBlockSlot_iff (shaped user v hv) inside).1 block.1) block.2
      · split at h
        · rename_i callee
          rw [pure_eq_ok, Option.some.injEq] at h
          obtain ⟨isCallee, absent⟩ := callee
          simp only [Value.isCalleeSlot, decide_eq_true_eq] at isCallee
          obtain ⟨kind, rfl⟩ := isCallee
          rw [h]
          exact .noFunction hv inside kind absent
        · rw [pure_eq_ok] at h
          cases h
  · cases h with
    | range entry out =>
      simp only [slotRefusal?, value_eq_ok.2 entry, bind, Except.bind, if_pos out]
      rfl
    | noBlock entry inside slot none =>
      have isBlock := (isBlockSlot_iff (shaped user _ entry) inside).2 slot
      simp only [slotRefusal?, value_eq_ok.2 entry, bind, Except.bind, if_neg (Nat.not_le.2 inside),
        isBlock, none, not_false_eq_true, and_self, if_true]
      rfl
    | noFunction entry inside kind none =>
      have other : ∀ e : Value, e.kind = .call → e.isBlockSlot 0 = false ∧ e.isCalleeSlot 0 = true := by
        intro e call
        simp [Value.isBlockSlot, Value.isCalleeSlot, call]
      obtain ⟨noBlock, callee⟩ := other _ kind
      simp only [slotRefusal?, value_eq_ok.2 entry, bind, Except.bind, if_neg (Nat.not_le.2 inside),
        noBlock, callee, none, Bool.false_eq_true, false_and, if_false, not_false_eq_true, and_self, if_true]
      rfl

theorem setOperand_answered (shaped : g.Shaped) {user value : ValueId} {index : Nat}
    {answer : Except Refusal ValueId} (h : g.setOperand user index value = .ok (answer, g')) :
    g.Answered (.setOperand user index value) answer g' := by
  simp only [setOperand, bind_eq_ok] at h
  obtain ⟨-, -, refusal, hr, h⟩ := h
  have unique : ∀ r, g.Refuses (.setOperand user index value) r → refusal = some r := by
    intro r refused
    rw [(slotRefusal_eq_some shaped).2 refused] at hr
    exact (Except.ok.inj hr).symm
  cases refusal with
  | some reason =>
    simp only [pure_eq_ok, Prod.mk.injEq] at h
    obtain ⟨rfl, rfl⟩ := h
    exact .of_refused ((slotRefusal_eq_some shaped).1 hr) fun r refused =>
      (Option.some.inj (unique r refused)).symm
  | none =>
    simp only [bind_eq_ok, pure_eq_ok, Prod.exists, Prod.mk.injEq] at h
    obtain ⟨old, _, -, rfl, -⟩ := h
    exact .of_ok fun r refused => by cases unique r refused

theorem firstRefusal_eq_some {value : ValueId} {uses : List Use} {reason : Refusal}
    (h : g.firstRefusal? value uses = .ok (some reason)) :
    ∃ u ∈ uses, g.slotRefusal? u.user u.index value = .ok (some reason) := by
  induction uses with
  | nil => cases h
  | cons u uses ih =>
    simp only [firstRefusal?, bind_eq_ok] at h
    obtain ⟨refusal, hr, h⟩ := h
    cases refusal with
    | some r =>
      cases h
      exact ⟨u, List.mem_cons_self .., hr⟩
    | none =>
      obtain ⟨s, hs, refused⟩ := ih h
      exact ⟨s, List.mem_cons_of_mem u hs, refused⟩

/-- Which slot refuses first depends on the order, but not whether one does. -/
theorem replaceUses_answered (wf : g.WellFormed) {old new : ValueId} {v : Value} {order : List Use}
    {answer : Except Refusal Unit} (ne : old ≠ new) (entry : g.values[old]? = some v)
    (perm : order.Perm v.uses.toList) (h : g.replaceUses order new = .ok (answer, g')) :
    (∀ reason, answer = .error reason → g' = g ∧ g.Refuses (.replaceAllUses old new) reason) ∧
      ∀ reason, g.Refuses (.replaceAllUses old new) reason → ∃ r, answer = .error r := by
  have members := wf.useDef.mem_order entry perm
  simp only [replaceUses, bind_eq_ok] at h
  obtain ⟨refusal, hr, h⟩ := h
  cases refusal with
  | some reason =>
    simp only [pure_eq_ok, Prod.mk.injEq] at h
    obtain ⟨rfl, same⟩ := h
    obtain ⟨u, hu, refused⟩ := firstRefusal_eq_some hr
    have why : g.Refuses (.replaceAllUses old new) reason :=
      .replace ne ((members u).1 hu) ((slotRefusal_eq_some wf.shaped).1 refused)
    exact ⟨fun r hr => ⟨same, Except.error.inj hr ▸ why⟩, fun _ _ => ⟨reason, rfl⟩⟩
  | none =>
    simp only [bind_eq_ok, pure_eq_ok, Prod.mk.injEq] at h
    obtain ⟨_, -, rfl, -⟩ := h
    refine ⟨by simp, fun reason refused => ?_⟩
    cases refused with
    | replace _ held refused =>
      have accepted := firstRefusal_eq_none.1 hr _ ((members _).2 held)
      rw [(slotRefusal_eq_some wf.shaped).2 refused] at accepted
      cases accepted

/-! ## Removing -/

section Entry

variable {v : ValueId} {e : Value} {reason : Refusal} (entry : g.values[v]? = some e)

include entry

theorem refuses_removeValue : g.Refuses (.removeValue v) reason ↔
    (∃ u, g.slot u = some v) ∧ reason = .valueInUse v e.uses.size := by
  refine ⟨fun h => ?_, fun ⟨⟨u, held⟩, why⟩ => why ▸ .inUse entry held⟩
  cases h with
  | inUse entry' held =>
    rw [entry] at entry'
    cases entry'
    exact ⟨⟨_, held⟩, rfl⟩

theorem refuses_removeInst : g.Refuses (.removeInst v) reason ↔
    if e.kind.isInst = true then g.Refuses (.removeValue v) reason else reason = .notInstruction v := by
  refine ⟨fun h => ?_, fun h => ?_⟩
  · cases h with
    | instInUse entry' kind refused =>
      rw [entry] at entry'
      cases entry'
      rwa [if_pos kind]
    | removeOther entry' kind =>
      rw [entry] at entry'
      cases entry'
      simp [kind]
  · split at h
    · rename_i kind
      exact .instInUse entry kind h
    · rename_i kind
      exact h ▸ .removeOther entry (by simpa using kind)

theorem refuses_detach : g.Refuses (.detach v) reason ↔
    e.kind.isInst = false ∧ reason = .notInstruction v := by
  refine ⟨fun h => ?_, fun ⟨kind, why⟩ => why ▸ .detachOther entry kind⟩
  cases h with
  | detachOther entry' kind =>
    rw [entry] at entry'
    cases entry'
    exact ⟨kind, rfl⟩

theorem refuses_attach {block : BlockId} : g.Refuses (.attach v block) reason ↔
    if e.kind.isInst = true then ∃ current, e.parent = some current ∧ reason = .alreadyAttached v current
    else reason = .notInstruction v := by
  refine ⟨fun h => ?_, fun h => ?_⟩
  · cases h with
    | attached entry' kind parent =>
      rw [entry] at entry'
      cases entry'
      rw [if_pos kind]
      exact ⟨_, parent, rfl⟩
    | attachOther entry' kind =>
      rw [entry] at entry'
      cases entry'
      simp [kind]
  · split at h
    · rename_i kind
      obtain ⟨current, parent, why⟩ := h
      exact why ▸ .attached entry kind parent
    · rename_i kind
      exact h ▸ .attachOther entry (by simpa using kind)

/-- Removing an instruction is removing a value. -/
theorem removeInst_eq (kind : e.kind.isInst = true) : g.removeInst v = g.removeValue v := by
  simp only [removeInst, value_eq_ok.2 entry, bind, Except.bind, kind, Bool.true_eq_false, if_false]

end Entry

theorem detach_answered {v : ValueId} {answer : Except Refusal BlockId}
    (h : g.detach v = .ok (answer, g')) : g.Answered (.detach v) answer g' := by
  simp only [detach, bind_eq_ok, value_eq_ok] at h
  obtain ⟨e, entry, h⟩ := h
  split at h
  · rename_i other
    simp only [pure_eq_ok, Prod.mk.injEq] at h
    obtain ⟨rfl, rfl⟩ := h
    exact ⟨fun r => by simp [refuses_detach entry, other, eq_comm], fun _ _ => rfl⟩
  · rename_i inst
    split at h
    · cases h
    · simp only [bind_eq_ok, pure_eq_ok, Prod.mk.injEq] at h
      obtain ⟨_, -, _, -, _, -, _, -, rfl, -⟩ := h
      exact .of_ok fun r => by simp [refuses_detach entry, inst]

/-- What is attached is an instruction, so that detaching it on the way is not refused. -/
theorem removeValue_answered (wf : g.WellFormed) {v : ValueId} {answer : Except Refusal Value}
    (h : g.removeValue v = .ok (answer, g')) : g.Answered (.removeValue v) answer g' := by
  simp only [removeValue, bind_eq_ok, value_eq_ok] at h
  obtain ⟨e, entry, -, -, h⟩ := h
  have free := wf.useDef.isEmpty_iff entry
  split at h
  · rename_i used
    simp only [pure_eq_ok, Prod.mk.injEq] at h
    obtain ⟨rfl, rfl⟩ := h
    have held : ∃ u, g'.slot u = some v := Classical.not_not.1 fun none => by simp [free.2 none] at used
    refine ⟨fun r => ?_, fun _ _ => rfl⟩
    rw [refuses_removeValue entry, and_iff_right held]
    simp [eq_comm]
  · rename_i unused
    have none : ∀ r, ¬g.Refuses (.removeValue v) r := by
      intro r refused
      exact free.1 (by simpa using unused) ((refuses_removeValue entry).1 refused).1
    split at h
    · simp only [bind_eq_ok, pure_eq_ok, Prod.exists, Prod.mk.injEq] at h
      obtain ⟨_, _, -, rfl, -⟩ := h
      exact .of_ok none
    · rename_i block attached
      simp only [bind_eq_ok, Prod.exists] at h
      obtain ⟨left, g₁, hl, h⟩ := h
      cases left with
      | ok =>
        simp only [bind_eq_ok, pure_eq_ok, Prod.exists, Prod.mk.injEq] at h
        obtain ⟨_, _, -, rfl, -⟩ := h
        exact .of_ok none
      | error reason =>
        obtain ⟨k, kind, inst⟩ := wf.placed.inst v block (parentOf_eq_some.2 ⟨e, entry, attached⟩)
        rw [kindOf, entry, Option.map_some, Option.some.injEq] at kind
        have refused := ((detach_answered hl).exact reason).1 rfl
        simp [refuses_detach entry, kind, inst] at refused

theorem removeInst_answered (wf : g.WellFormed) {v : ValueId} {answer : Except Refusal Value}
    (h : g.removeInst v = .ok (answer, g')) : g.Answered (.removeInst v) answer g' := by
  simp only [removeInst, bind_eq_ok, value_eq_ok] at h
  obtain ⟨e, entry, h⟩ := h
  split at h
  · rename_i other
    simp only [pure_eq_ok, Prod.mk.injEq] at h
    obtain ⟨rfl, rfl⟩ := h
    exact ⟨fun r => by simp [refuses_removeInst entry, other, eq_comm], fun _ _ => rfl⟩
  · rename_i inst
    have answered := removeValue_answered wf h
    exact ⟨fun r => by simp [refuses_removeInst entry, inst, answered.exact], answered.same⟩

/-! ## Attaching -/

/-- A detached instruction is in no list, so none refuses it. -/
theorem attach_answered (placed : g.Placed) {v : ValueId} {block : BlockId}
    {answer : Except Refusal Unit} (h : g.attach v block = .ok (answer, g')) :
    g.Answered (.attach v block) answer g' := by
  simp only [attach, bind_eq_ok, value_eq_ok] at h
  obtain ⟨e, entry, h⟩ := h
  split at h
  · rename_i other
    simp only [pure_eq_ok, Prod.mk.injEq] at h
    obtain ⟨rfl, rfl⟩ := h
    exact ⟨fun r => by simp [refuses_attach entry, other, eq_comm], fun _ _ => rfl⟩
  · rename_i inst
    split at h
    · rename_i current parent
      simp only [pure_eq_ok, Prod.mk.injEq] at h
      obtain ⟨rfl, rfl⟩ := h
      exact ⟨fun r => by simp [refuses_attach entry, inst, parent, eq_comm], fun _ _ => rfl⟩
    · rename_i parent
      simp only [bind_eq_ok] at h
      obtain ⟨-, -, h⟩ := h
      rw [placed.place_answer entry parent h]
      exact .of_ok fun r => by simp [refuses_attach entry, inst, parent]

end Graph

/-! ## Every run -/

namespace Workspace

variable {w w' : Workspace} {e : Edit} {answer : Except Refusal Reply}

/-- The edit is refused exactly if the graph has a reason for it, and then nothing changes. The reason
is the one there is, except that the slots to replace may refuse for several. -/
structure RefusedExactly (w : Workspace) (e : Edit) (answer : Except Refusal Reply) (w' : Workspace) :
    Prop where
  same : ∀ reason, answer = .error reason → w' = w
  why : ∀ reason, answer = .error reason → w.graph.Refuses e reason
  refused : ∀ reason, w.graph.Refuses e reason → ∃ r, answer = .error r
  only : (∀ old new, e ≠ .replaceAllUses old new) →
    ∀ reason, w.graph.Refuses e reason → answer = .error reason

theorem RefusedExactly.of_iff (exact : ∀ reason, answer = .error reason ↔ w.graph.Refuses e reason)
    (same : ∀ reason, answer = .error reason → w' = w) : w.RefusedExactly e answer w' :=
  ⟨same, fun r => (exact r).1, fun r h => ⟨r, (exact r).2 h⟩, fun _ r => (exact r).2⟩

/-- An edit that is never refused. -/
theorem RefusedExactly.of_ok {reply : Reply} (none : ∀ reason, ¬w.graph.Refuses e reason) :
    w.RefusedExactly e (.ok reply) w' :=
  .of_iff (fun r => iff_of_false (by simp) (none r)) (by simp)

theorem map_eq_error {α β : Type} {x : Except Refusal α} {f : α → β} {reason : Refusal} :
    x.map f = .error reason ↔ x = .error reason := by
  cases x <;> simp [Except.map]

theorem refusedExactly_withGraph {α : Type} {x : Except Refusal α} {g : Graph} (f : α → Reply)
    (h : w.graph.Answered e x g) : w.RefusedExactly e (x.map f) (w.withGraph g) := by
  refine .of_iff (fun r => map_eq_error.trans (h.exact r)) fun r hr => ?_
  rw [h.same r (map_eq_error.1 hr)]
  rfl

theorem refusedExactly_keepRemoved {v : ValueId} {x : Except Refusal Value} {g : Graph}
    (h : w.graph.Answered e x g) :
    w.RefusedExactly e (w.keepRemoved v (x, g)).1 (w.keepRemoved v (x, g)).2 := by
  cases x with
  | ok entry =>
    exact .of_ok fun r refused => by cases (h.exact r).2 refused
  | error reason =>
    refine .of_iff (fun r => ?_) fun r _ => ?_
    · rw [← h.exact r]
      simp [keepRemoved]
    · simp only [keepRemoved]
      rw [h.same reason rfl]
      rfl

theorem refusedExactly_replace (wf : w.graph.WellFormed) {old new : ValueId} {v : Value}
    {order : List Use} {x : Except Refusal Unit} {g : Graph} (ne : old ≠ new)
    (entry : w.graph.values[old]? = some v) (perm : order.Perm v.uses.toList)
    (h : w.graph.replaceUses order new = .ok (x, g)) :
    w.RefusedExactly (.replaceAllUses old new) (x.map fun _ => .done) (w.withGraph g) := by
  obtain ⟨why, some⟩ := Graph.replaceUses_answered wf ne entry perm h
  refine ⟨fun r hr => ?_, fun r hr => (why r (map_eq_error.1 hr)).2, fun r hr => ?_,
    fun other => absurd rfl (other old new)⟩
  · rw [(why r (map_eq_error.1 hr)).1]
    rfl
  · obtain ⟨r', hr'⟩ := some r hr
    exact ⟨r', map_eq_error.2 hr'⟩

theorem Built.refusedExactly (built : w.Built) (edit : w.Step e answer w') :
    w.RefusedExactly e answer w' := by
  have wf := built.wellFormed
  cases e with
  | replaceAllUses old new =>
    rcases edit.replace_cases with ⟨heq, rfl, -⟩ | ⟨v, order, done, g, -, ne, entry, perm, run, rfl, rfl⟩
    · refine .of_ok fun r refused => ?_
      cases refused with
      | replace ne => exact ne heq
    · exact refusedExactly_replace wf ne entry perm run
  | define | declare | addGlobal | addBlock | build =>
    obtain ⟨run⟩ := edit
    simp only [apply, bind_eq_ok, pure_eq_ok, Prod.exists, Prod.mk.injEq] at run
    obtain ⟨_, _, -, rfl, -⟩ := run
    exact .of_ok fun r refused => by cases refused
  | reinsert =>
    obtain ⟨run⟩ := edit
    simp only [apply, bind_eq_ok, pure_eq_ok, Prod.exists, Prod.mk.injEq] at run
    obtain ⟨_, -, _, _, -, rfl, -⟩ := run
    exact .of_ok fun r refused => by cases refused
  | rename | addIncoming =>
    obtain ⟨run⟩ := edit
    simp only [apply, bind_eq_ok, pure_eq_ok, Prod.mk.injEq] at run
    obtain ⟨_, -, rfl, -⟩ := run
    exact .of_ok fun r refused => by cases refused
  | setOperand =>
    obtain ⟨run⟩ := edit
    simp only [apply, bind_eq_ok, pure_eq_ok, Prod.exists, Prod.mk.injEq] at run
    obtain ⟨_, _, h, rfl, rfl⟩ := run
    exact refusedExactly_withGraph _ (Graph.setOperand_answered wf.shaped h)
  | removeValue =>
    obtain ⟨run⟩ := edit
    simp only [apply, bind_eq_ok, pure_eq_ok, Prod.exists] at run
    obtain ⟨x, g, h, run⟩ := run
    rw [show answer = _ from congrArg Prod.fst run, show w' = _ from congrArg Prod.snd run]
    exact refusedExactly_keepRemoved (Graph.removeValue_answered wf h)
  | removeInst =>
    obtain ⟨run⟩ := edit
    simp only [apply, bind_eq_ok, pure_eq_ok, Prod.exists] at run
    obtain ⟨x, g, h, run⟩ := run
    rw [show answer = _ from congrArg Prod.fst run, show w' = _ from congrArg Prod.snd run]
    exact refusedExactly_keepRemoved (Graph.removeInst_answered wf h)
  | attach =>
    obtain ⟨run⟩ := edit
    simp only [apply, bind_eq_ok, pure_eq_ok, Prod.exists, Prod.mk.injEq] at run
    obtain ⟨_, _, h, rfl, rfl⟩ := run
    exact refusedExactly_withGraph _ (Graph.attach_answered wf.placed h)
  | detach =>
    obtain ⟨run⟩ := edit
    simp only [apply, bind_eq_ok, pure_eq_ok, Prod.exists, Prod.mk.injEq] at run
    obtain ⟨_, _, h, rfl, rfl⟩ := run
    exact refusedExactly_withGraph _ (Graph.detach_answered h)

/-- After every run, an edit that does not fault is refused exactly for the reasons of `Graph.Refuses`,
and a refused edit leaves the whole workspace as it was. To remove an instruction is to remove a
value. -/
theorem refusals_exact (h : w.Reachable) (edit : w.Step e answer w') :
    w.RefusedExactly e answer w' ∧
      ∀ (v : ValueId) (entry : Value), w.graph.values[v]? = some entry → entry.kind.isInst = true →
        w.graph.removeInst v = w.graph.removeValue v :=
  ⟨h.built.refusedExactly edit, fun _ _ found kind => Graph.removeInst_eq found kind⟩

/-- The phi of the loop is used by itself and by the addition, which is attached already. -/
theorem refusals_exact_loop : loop.Reachable ∧
    (loop.Step (.removeValue 7) (.error (.valueInUse 7 2)) loop ∧
      loop.graph.Refuses (.removeValue 7) (.valueInUse 7 2)) ∧
    loop.Step (.attach 9 2) (.error (.alreadyAttached 9 3)) loop ∧
      loop.graph.Refuses (.attach 9 2) (.alreadyAttached 9 3) := by
  have removal : ∃ w', loop.Step (.removeValue 7) (.error (.valueInUse 7 2)) w' :=
    Step.of_answer (by decide +kernel)
  have attachment : ∃ w', loop.Step (.attach 9 2) (.error (.alreadyAttached 9 3)) w' :=
    Step.of_answer (by decide +kernel)
  obtain ⟨w₁, remove⟩ := removal
  obtain ⟨w₂, attach⟩ := attachment
  obtain ⟨same₁, why₁, -, -⟩ := (refusals_exact reachable_loop remove).1
  obtain ⟨same₂, why₂, -, -⟩ := (refusals_exact reachable_loop attach).1
  rw [same₁ _ rfl] at remove
  rw [same₂ _ rfl] at attach
  exact ⟨reachable_loop, ⟨remove, why₁ _ rfl⟩, attach, why₂ _ rfl⟩

end Workspace

end SsaGraph
