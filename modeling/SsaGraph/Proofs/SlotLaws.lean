import SsaGraph.Proofs.Refusals
import SsaGraph.Proofs.Shapes

/-!
# Laws of writing a slot

A write to an operand slot moves a use, and for a target of an attached branch it may drop one edge and
add another. Other slots can lie on both edges, so two orders of the same writes pass through different
graphs: an edge is dropped and recorded again on one way and kept on the other. What slots hold at the
end settles all of it, since uses and edges are what the slots say (`Framed.equalUpToEdgeOrder`).

Results:
* `Graph.setOperand_succeeds`, `Graph.setOperand_written`: when a write goes through and what it leaves;
* `slot_update_laws`: after every run a write can be undone, the later of two writes to one slot counts,
  and writes to different slots commute, all up to the order inside lists of predecessors and successors.
-/
namespace SsaGraph

namespace Graph

variable {g g' g₁ g₂ : Graph} {u : Use} {old new x : ValueId}

/-! ## Graphs that differ in their slots -/

/-- Two graphs with the frame of one graph and the same slots have the same uses and edges. -/
theorem Framed.equalUpToEdgeOrder (framed₁ : g.Framed g₁) (framed₂ : g.Framed g₂)
    (wf₁ : g₁.WellFormed) (wf₂ : g₂.WellFormed) (slots : ∀ u, g₁.slot u = g₂.slot u) :
    g₁.EqualUpToEdgeOrder g₂ := by
  have edges : ∀ a b, g₁.Edge a b ↔ g₂.Edge a b :=
    edge_congr (fun u => (framed₁.source u).trans (framed₂.source u).symm) fun u _ => slots u
  obtain ⟨succs, preds⟩ := wf₁.records.perm (wf₂.records.congr edges)
  refine ⟨values_eq_of_views (fun x => ?_) slots fun x => ?_, ?_, ?_, fun b => ?_, succs, preds⟩
  · exact (framed₁.frame x).trans (framed₂.frame x).symm
  · refine Std.ExtTreeSet.ext_mem fun u => ?_
    rw [wf₁.useDef, wf₂.useDef, slots]
  · exact framed₁.functions.trans framed₂.functions.symm
  · exact framed₁.next.trans framed₂.next.symm
  · exact (framed₁.blockFrame b).trans (framed₂.blockFrame b).symm

/-! ## When a write goes through -/

/-- The slot is there and takes the value. -/
structure CanHold (g : Graph) (u : Use) (x : ValueId) : Prop where
  live : x ∈ g.values
  slot : ∃ e, g.values[u.user]? = some e ∧ u.index < e.operands.length ∧ g.Accepts e u.index x

/-- What a slot can hold does not depend on what slots hold. -/
theorem Framed.canHold_iff (h : g.Framed g') : g'.CanHold u x ↔ g.CanHold u x := by
  have ⟨f, b, same, _, shape⟩ := h
  have entries : ∀ y : ValueId, g'.values[y]? = g.values[y]?.map (f y) := fun y => by
    rw [shape, values_mapBlocks, getElem?_mapValues]
  have live : x ∈ g'.values ↔ x ∈ g.values := by
    rw [shape, values_mapBlocks, mem_mapValues]
  refine ⟨fun can => ⟨live.1 can.live, ?_⟩, fun can => ⟨live.2 can.live, ?_⟩⟩
  · obtain ⟨e', he', range, accepts⟩ := can.slot
    rw [entries, Option.map_eq_some_iff] at he'
    obtain ⟨e, he, rfl⟩ := he'
    exact ⟨e, he, (same _ e).arity ▸ range, (h.accepts (same _ e) _ _).1 accepts⟩
  · obtain ⟨e, he, range, accepts⟩ := can.slot
    refine ⟨f u.user e, by rw [entries, he]; rfl, ?_, (h.accepts (same _ e) _ _).2 accepts⟩
    rw [(same _ e).arity]
    exact range

theorem setOperand_eq_ok : g.setOperand u.user u.index new = .ok (.ok old, g') ↔
    g.CanHold u new ∧ g.writeOperand u.user u.index new = .ok (old, g') := by
  simp only [setOperand, bind_eq_ok, require_eq_ok]
  refine ⟨fun h => ?_, fun h => ?_⟩
  · obtain ⟨-, live, refusal, hr, h⟩ := h
    cases refusal with
    | some reason => simp [pure_eq_ok] at h
    | none =>
      simp only [bind_eq_ok, pure_eq_ok, Prod.exists, Prod.mk.injEq, Except.ok.injEq] at h
      obtain ⟨_, _, run, rfl, rfl⟩ := h
      exact ⟨⟨live, slotRefusal_eq_none.1 hr⟩, run⟩
  · obtain ⟨can, run⟩ := h
    refine ⟨(), can.live, none, slotRefusal_eq_none.2 can.slot, ?_⟩
    simp only [bind_eq_ok]
    exact ⟨_, run, rfl⟩

theorem setOperand_succeeds (wf : g.WellFormed) (can : g.CanHold u new) (held : g.slot u = some old) :
    ∃ g', g.setOperand u.user u.index new = .ok (.ok old, g') := by
  simp only [setOperand_eq_ok]
  by_cases same : old = new
  · obtain ⟨e, he, ho⟩ := slot_eq_some.1 held
    exact ⟨g, can, writeOperand_eq_ok.2 ⟨e, he, ho, .inl ⟨same, rfl⟩⟩⟩
  · obtain ⟨g', run⟩ := writeOperand_total wf held same can.live (slotRefusal_eq_none.2 can.slot)
    exact ⟨g', can, run⟩

/-- `g'` is `g` with `new` in the slot in place of `old`, and what follows from it. -/
structure Written (g : Graph) (u : Use) (old new : ValueId) (g' : Graph) : Prop where
  can : g.CanHold u new
  held : g.slot u = some old
  framed : g.Framed g'
  slots : ∀ s, g'.slot s = if s = u then some new else g.slot s

theorem setOperand_written (h : g.setOperand u.user u.index new = .ok (.ok old, g')) :
    g.Written u old new g' := by
  obtain ⟨can, run⟩ := setOperand_eq_ok.1 h
  obtain ⟨e, he, held, -⟩ := writeOperand_eq_ok.1 run
  exact ⟨can, slot_eq_some.2 ⟨e, he, held⟩, writeOperand_framed run, slot_writeOperand run⟩

namespace Written

theorem slot_self (h : g.Written u old new g') : g'.slot u = some new := by
  rw [h.slots, if_pos rfl]

theorem slot_of_ne (h : g.Written u old new g') {s : Use} (ne : s ≠ u) : g'.slot s = g.slot s := by
  rw [h.slots, if_neg ne]

end Written

/-! ## Slots that hold what they would not take -/

/-- A target slot of a detached branch holds something that is no block. -/
def Astray (g : Graph) (u : Use) : Prop := ∃ e x, g.values[u.user]? = some e ∧ e.kind = .branch ∧
  e.parent = none ∧ e.HoldsBlock u.index ∧ e.operands[u.index]? = some x ∧ x ∉ g.blocks

/-- Any other slot would take again what it holds: callees and incoming blocks were checked when they
were written, and the targets of an attached branch when it was attached. -/
theorem WellFormed.canHold_held (wf : g.WellFormed) {e : Value} (entry : g.values[u.user]? = some e)
    (made : g.WellMade e) (held : g.slot u = some old) (inPlace : ¬g.Astray u) : g.CanHold u old := by
  have ho : e.operands[u.index]? = some old := by
    obtain ⟨e', he', ho⟩ := slot_eq_some.1 held
    rw [entry] at he'
    cases he'
    exact ho
  have range := (List.getElem?_eq_some_iff.1 ho).1
  refine ⟨wf.useDef.live held, e, entry, range, fun isBlock => ?_, fun isCallee => ?_⟩
  · have slot := (isBlockSlot_iff (wf.shaped _ e entry) range).1 isBlock
    rcases id slot with ⟨branch, -⟩ | ⟨phi, odd⟩
    · cases parent : e.parent with
      | none =>
        exact Decidable.not_not.1 fun none => inPlace ⟨e, old, entry, branch, parent, slot, ho, none⟩
      | some block =>
        have leaves : g.source u = some block := source_eq_some.2 ⟨e, entry, ⟨branch, isBlock⟩, parent⟩
        exact (wf.records.mem_blocks ⟨u, leaves, held⟩).2
    · exact made.incoming phi u.index old odd ho
  · simp only [Value.isCalleeSlot, decide_eq_true_eq] at isCallee
    exact made.callee isCallee.1 old (isCallee.2 ▸ ho)

/-- Once such a slot was written it refuses what it held. -/
theorem Astray.refuses (h : g.Astray u) (held : g.slot u = some old) (framed : g.Framed g') :
    g'.Refuses (.setOperand u.user u.index old) (.notBlock old) := by
  obtain ⟨e, x, entry, -, -, slot, hx, none⟩ := h
  rw [Graph.slot, entry, Option.bind_some, hx] at held
  cases held
  obtain ⟨e', entry', same⟩ := framed.value entry
  refine .noBlock entry' ?_ ?_ fun block => none ((framed.mem_blocks _).1 block)
  · rw [same.arity]
    exact (List.getElem?_eq_some_iff.1 hx).1
  · simpa only [Value.HoldsBlock, same.kind, same.arity] using slot

theorem setOperand_refused (wf : g.WellFormed) {reason : Refusal} (live : x ∈ g.values)
    (userLive : u.user ∈ g.values) (refused : g.Refuses (.setOperand u.user u.index x) reason) :
    g.setOperand u.user u.index x = .ok (.error reason, g) := by
  obtain ⟨⟨answer, g'⟩, run⟩ := setOperand_total wf live userLive u.index
  have answered := setOperand_answered wf.shaped run
  have why := (answered.exact reason).2 refused
  rw [run, why, answered.same reason why]

end Graph

/-! ## Every run -/

namespace Workspace

variable {w w' w₁ w₂ : Workspace} {u s t : Use} {a b x y old new : ValueId}

/-- The workspaces differ at most in the order inside lists of predecessors and successors. -/
structure EqualUpToEdgeOrder (w w' : Workspace) : Prop where
  graph : w.graph.EqualUpToEdgeOrder w'.graph
  name : w.program.name = w'.program.name
  functions : w.program.functions = w'.program.functions
  globals : w.program.globals = w'.program.globals
  removed : w.removed = w'.removed

/-- Writing `new` to the slot goes through, answers with `old` and leaves `w'`. -/
def Writes (w : Workspace) (u : Use) (new old : ValueId) (w' : Workspace) : Prop :=
  w.apply (.setOperand u.user u.index new) = .ok (.ok (.handle old), w')

theorem writes_iff : w.Writes u new old w' ↔
    ∃ g', w.graph.setOperand u.user u.index new = .ok (.ok old, g') ∧ w' = w.withGraph g' := by
  simp only [Writes, apply, bind_eq_ok, pure_eq_ok, Prod.exists, Prod.mk.injEq]
  refine ⟨fun h => ?_, fun h => ?_⟩
  · obtain ⟨answer, g', run, done, same⟩ := h
    cases answer with
    | error reason => cases done
    | ok id =>
      cases done
      exact ⟨g', run, same⟩
  · obtain ⟨g', run, same⟩ := h
    exact ⟨.ok old, g', run, rfl, same⟩

theorem Writes.written (h : w.Writes u new old w') : w.graph.Written u old new w'.graph := by
  obtain ⟨g', run, rfl⟩ := writes_iff.1 h
  exact Graph.setOperand_written run

theorem Writes.built (built : w.Built) (h : w.Writes u new old w') : w'.Built :=
  (Step.apply h).built built

theorem Built.writes (built : w.Built) (can : w.graph.CanHold u new)
    (held : w.graph.slot u = some old) : ∃ w', w.Writes u new old w' := by
  obtain ⟨g', run⟩ := Graph.setOperand_succeeds built.wellFormed can held
  exact ⟨_, writes_iff.2 ⟨g', run, rfl⟩⟩

/-- The workspaces differ in their graphs only. -/
def SameOutside (w w' : Workspace) : Prop := w' = w.withGraph w'.graph

theorem SameOutside.trans (h : w.SameOutside w₁) (h' : w₁.SameOutside w₂) : w.SameOutside w₂ := by
  rw [SameOutside, h', h]
  rfl

theorem Writes.sameOutside (h : w.Writes u new old w') : w.SameOutside w' := by
  obtain ⟨g', -, rfl⟩ := writes_iff.1 h
  rfl

/-- Two ways of writing from one workspace that end with the same slots. -/
theorem equalUpToEdgeOrder_of_slots (built₁ : w₁.Built) (built₂ : w₂.Built)
    (framed₁ : w.graph.Framed w₁.graph) (framed₂ : w.graph.Framed w₂.graph)
    (out₁ : w.SameOutside w₁) (out₂ : w.SameOutside w₂)
    (slots : ∀ u, w₁.graph.slot u = w₂.graph.slot u) : w₁.EqualUpToEdgeOrder w₂ := by
  have graphs := framed₁.equalUpToEdgeOrder framed₂ built₁.wellFormed built₂.wellFormed slots
  rw [out₁, out₂]
  exact ⟨graphs, rfl, rfl, rfl, rfl⟩

/-- What was written to a slot can be replaced by what it held, unless that went astray. -/
theorem Built.undo (built : w.Built) (write : w.Writes u new old w₁) (inPlace : ¬w.graph.Astray u) :
    ∃ w₂, w₁.Writes u old new w₂ ∧ w₂.EqualUpToEdgeOrder w := by
  have written := write.written
  obtain ⟨e, entry, -⟩ := written.can.slot
  have can := built.wellFormed.canHold_held entry (built.wellMade.1 _ e entry) written.held inPlace
  obtain ⟨w₂, back⟩ := (write.built built).writes (written.framed.canHold_iff.2 can) written.slot_self
  refine ⟨w₂, back, equalUpToEdgeOrder_of_slots (w := w) (back.built (write.built built)) built
    (written.framed.trans back.written.framed) (.refl _) (write.sameOutside.trans back.sameOutside) rfl
    fun s => ?_⟩
  by_cases hs : s = u
  · rw [hs, back.written.slot_self, written.held]
  · rw [back.written.slot_of_ne hs, written.slot_of_ne hs]

theorem Built.no_undo (built : w.Built) (write : w.Writes u new old w₁) (astray : w.graph.Astray u) :
    w₁.apply (.setOperand u.user u.index old) = .ok (.error (.notBlock old), w₁) := by
  have wf := (write.built built).wellFormed
  have written := write.written
  obtain ⟨e, entry, -⟩ := (written.framed.canHold_iff.2 written.can).slot
  obtain ⟨old', held⟩ := Table.getElem?_of_mem (built.wellFormed.useDef.live written.held)
  obtain ⟨_, live, -⟩ := written.framed.value held
  have refused := Graph.setOperand_refused wf (Table.mem_of_getElem? live) (Table.mem_of_getElem? entry)
    (astray.refuses written.held written.framed)
  simp only [apply, bind_eq_ok]
  exact ⟨_, refused, rfl⟩

theorem Built.overwrite (built : w.Built) (first : w.Writes u x a w₁) (second : w₁.Writes u y b w₂) :
    b = x ∧ ∃ w', w.Writes u y a w' ∧ w₂.EqualUpToEdgeOrder w' := by
  have held := second.written.held
  rw [first.written.slot_self] at held
  have can := first.written.framed.canHold_iff.1 second.written.can
  obtain ⟨w', alone⟩ := built.writes can first.written.held
  refine ⟨(Option.some.inj held).symm, w', alone, ?_⟩
  refine equalUpToEdgeOrder_of_slots (second.built (first.built built)) (alone.built built)
    (first.written.framed.trans second.written.framed) alone.written.framed
    (first.sameOutside.trans second.sameOutside) alone.sameOutside fun s => ?_
  by_cases hs : s = u
  · rw [hs, second.written.slot_self, alone.written.slot_self]
  · rw [second.written.slot_of_ne hs, first.written.slot_of_ne hs, alone.written.slot_of_ne hs]

/-- A write to another slot neither allows nor forbids a write, and does not change its answer. -/
theorem Built.writes_iff_of_ne (built : w.Built) (ne : t ≠ s) (first : w.Writes s x a w₁) :
    (∃ w', w₁.Writes t y b w') ↔ ∃ w', w.Writes t y b w' := by
  have written := first.written
  refine ⟨fun ⟨w', second⟩ => ?_, fun ⟨w', second⟩ => ?_⟩
  · refine built.writes (written.framed.canHold_iff.1 second.written.can) ?_
    rw [← written.slot_of_ne ne]
    exact second.written.held
  · refine (first.built built).writes (written.framed.canHold_iff.2 second.written.can) ?_
    rw [written.slot_of_ne ne]
    exact second.written.held

theorem Built.commute (built : w.Built) (ne : s ≠ t) {w₁₂ w₂₁ : Workspace} (first : w.Writes s x a w₁)
    (then₁ : w₁.Writes t y b w₁₂) (second : w.Writes t y b w₂) (then₂ : w₂.Writes s x a w₂₁) :
    w₁₂.EqualUpToEdgeOrder w₂₁ := by
  refine equalUpToEdgeOrder_of_slots (then₁.built (first.built built)) (then₂.built (second.built built))
    (first.written.framed.trans then₁.written.framed) (second.written.framed.trans then₂.written.framed)
    (first.sameOutside.trans then₁.sameOutside) (second.sameOutside.trans then₂.sameOutside) fun u => ?_
  by_cases hs : u = s
  · rw [hs, then₁.written.slot_of_ne ne, first.written.slot_self, then₂.written.slot_self]
  · rw [then₂.written.slot_of_ne hs]
    by_cases ht : u = t
    · rw [ht, then₁.written.slot_self, second.written.slot_self]
    · rw [then₁.written.slot_of_ne ht, first.written.slot_of_ne hs, second.written.slot_of_ne ht]

/-- Writing slots is updating places that do not depend on each other. -/
structure SlotLaws (w : Workspace) : Prop where
  undo : ∀ u new old w₁, w.Writes u new old w₁ → ¬w.graph.Astray u →
    ∃ w₂, w₁.Writes u old new w₂ ∧ w₂.EqualUpToEdgeOrder w
  no_undo : ∀ u new old w₁, w.Writes u new old w₁ → w.graph.Astray u →
    w₁.apply (.setOperand u.user u.index old) = .ok (.error (.notBlock old), w₁)
  /-- The second write answers with what the first one wrote. -/
  overwrite : ∀ u x y a b w₁ w₂, w.Writes u x a w₁ → w₁.Writes u y b w₂ →
    b = x ∧ ∃ w', w.Writes u y a w' ∧ w₂.EqualUpToEdgeOrder w'
  /-- One order goes through as soon as the other does. -/
  swap : ∀ s t x y a b w₁ w₁₂, s ≠ t → w.Writes s x a w₁ → w₁.Writes t y b w₁₂ →
    ∃ w₂ w₂₁, w.Writes t y b w₂ ∧ w₂.Writes s x a w₂₁ ∧ w₁₂.EqualUpToEdgeOrder w₂₁
  /-- Both orders go through as soon as each write does by itself. -/
  commute : ∀ s t x y a b w₁ w₂, s ≠ t → w.Writes s x a w₁ → w.Writes t y b w₂ →
    ∃ w₁₂ w₂₁, w₁.Writes t y b w₁₂ ∧ w₂.Writes s x a w₂₁ ∧ w₁₂.EqualUpToEdgeOrder w₂₁

/-- After every run the writes to operand slots obey the laws of updates, up to the order inside lists
of predecessors and successors. A write can be undone, except for a target slot of a detached branch that
held no block; the later of two writes to one slot counts; and writes to different slots commute, whether
they are slots of one branch, of two branches of a block or of any other values. -/
theorem slot_update_laws (h : w.Reachable) : w.SlotLaws := by
  have built := h.built
  refine ⟨fun _ _ _ _ write inPlace => built.undo write inPlace,
    fun _ _ _ _ write astray => built.no_undo write astray,
    fun _ _ _ _ _ _ _ first second => built.overwrite first second,
    fun s t x y a b w₁ w₁₂ ne first then₁ => ?_, fun s t x y a b w₁ w₂ ne first second => ?_⟩
  · obtain ⟨w₂, second⟩ := (built.writes_iff_of_ne ne.symm first).1 ⟨w₁₂, then₁⟩
    obtain ⟨w₂₁, then₂⟩ := (built.writes_iff_of_ne ne second).2 ⟨w₁, first⟩
    exact ⟨w₂, w₂₁, second, then₂, built.commute ne first then₁ second then₂⟩
  · obtain ⟨w₁₂, then₁⟩ := (built.writes_iff_of_ne ne.symm first).2 ⟨w₂, second⟩
    obtain ⟨w₂₁, then₂⟩ := (built.writes_iff_of_ne ne second).2 ⟨w₁, first⟩
    exact ⟨w₁₂, w₂₁, then₁, then₂, built.commute ne first then₁ second then₂⟩

/-- The loop with a detached jump to the comparison, which is no block. -/
def strayed : Workspace := loop.perform [.build (.jump 5) none]

/-- Both targets of a branch of the loop move to the first block, in either order, and the first of them
back again; the jump that went astray can be put right, but not undone. -/
theorem slot_update_laws_strayed : strayed.Reachable ∧
    (∃ w₁ w₂, strayed.Writes ⟨6, 1⟩ 2 3 w₁ ∧ w₁.Writes ⟨6, 1⟩ 3 2 w₂ ∧ w₂.EqualUpToEdgeOrder strayed) ∧
    (∃ w₁ w₂ w₁₂ w₂₁, strayed.Writes ⟨6, 1⟩ 2 3 w₁ ∧ strayed.Writes ⟨6, 2⟩ 2 3 w₂ ∧
      w₁.Writes ⟨6, 2⟩ 2 3 w₁₂ ∧ w₂.Writes ⟨6, 1⟩ 2 3 w₂₁ ∧ w₁₂.EqualUpToEdgeOrder w₂₁) ∧
    ∃ w₁, strayed.Writes ⟨11, 0⟩ 2 5 w₁ ∧
      w₁.apply (.setOperand 11 0 5) = .ok (.error (.notBlock 5), w₁) := by
  have run : strayed.Reachable := reachable_loop.perform _
  have laws := slot_update_laws run
  have write : ∀ (u : Use) (x y : ValueId),
      (strayed.apply (.setOperand u.user u.index x)).map Prod.fst = .ok (.ok (.handle y)) →
        ∃ w₁, strayed.Writes u x y w₁ := fun u x y answered => by
    obtain ⟨w₁, edit⟩ := Step.of_answer answered
    cases edit with
    | apply run => exact ⟨w₁, run⟩
  obtain ⟨w₁, onTrue⟩ := write ⟨6, 1⟩ 2 3 (by decide +kernel)
  obtain ⟨w₂, onFalse⟩ := write ⟨6, 2⟩ 2 3 (by decide +kernel)
  obtain ⟨w₃, jump⟩ := write ⟨11, 0⟩ 2 5 (by decide +kernel)
  have inPlace : ¬strayed.graph.Astray ⟨6, 1⟩ := by
    rintro ⟨e, x, entry, -, detached, -⟩
    have attached : strayed.graph.parentOf 6 = some 2 := by decide +kernel
    rw [Graph.parentOf, entry, Option.bind_some, detached] at attached
    cases attached
  have astray : strayed.graph.Astray ⟨11, 0⟩ := by
    have found : (strayed.graph.values[11]?.any fun e => e.kind = .branch ∧ e.parent = none ∧
      e.operands = [5]) = true := by decide +kernel
    obtain ⟨e, entry, shape⟩ := Option.any_eq_true _ _ |>.1 found
    obtain ⟨branch, detached, operands⟩ := decide_eq_true_eq.mp shape
    refine ⟨e, 5, entry, branch, detached, .inl ⟨branch, .inl ⟨?_, rfl⟩⟩, ?_, by decide +kernel⟩
    · rw [operands]
      rfl
    · rw [operands]
      rfl
  obtain ⟨w₂', back, same⟩ := laws.undo _ _ _ _ onTrue inPlace
  obtain ⟨w₁₂, w₂₁, then₁, then₂, equal⟩ := laws.commute _ _ _ _ _ _ _ _ (by decide) onTrue onFalse
  exact ⟨run, ⟨w₁, w₂', onTrue, back, same⟩, ⟨w₁, w₂, w₁₂, w₂₁, onTrue, onFalse, then₁, then₂, equal⟩,
    w₃, jump, laws.no_undo _ _ _ _ jump astray⟩

end Workspace

end SsaGraph
