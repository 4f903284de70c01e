import SsaGraph.Proofs.Refusals

/-!
# What a removal takes away

A removal asks the use set of the value whether it may go, and drops edges by a look at one instruction
list. Both say the same as a walk over the whole graph: `Graph.holders` lists the slots that hold a value
and `Graph.branches` the branches along an edge. With them the graph after a removal is written down at
once, as `Graph.removal`.

Results:
* `Graph.UseDef.size_uses`: a use set has as many members as a walk finds slots;
* `Graph.WellFormed.removeValue_eq`: the answer of a removal and the graph it leaves;
* `removal_exact`: the same for every run.
-/
namespace SsaGraph

instance (e : Value) (dst : BlockId) : Decidable (e.HasTarget dst) :=
  inferInstanceAs (Decidable (_ ∨ _))

/-- The entry without a parent and without uses, as a removal answers with it. -/
def Value.released (e : Value) : Value := { e with parent := none, uses := ∅ }

namespace Graph

variable {g g₁ : Graph} {v : ValueId} {e : Value} {a b block : BlockId}

/-! ## Walks over the graph -/

/-- The slots that hold the value, in a walk over the operands of all values. -/
def holders (g : Graph) (v : ValueId) : List Use :=
  g.values.toList.flatMap fun p => (p.2.operands.zipIdx.filter (·.1 = v)).map fun s => ⟨p.1, s.2⟩

/-- The branches attached to `a` that have the target `b`, in a walk over all values. -/
def branches (g : Graph) (a b : BlockId) : List ValueId :=
  (g.values.toList.filter fun p => p.2.parent = some a ∧ p.2.HasTarget b).map Prod.fst

theorem mem_holders {u : Use} : u ∈ g.holders v ↔ g.slot u = some v := by
  rw [slot_eq_some]
  simp only [holders, List.mem_flatMap, Prod.exists, Std.ExtTreeMap.mem_toList_iff_getElem?_eq_some,
    List.mem_map, List.mem_filter, List.mk_mem_zipIdx_iff_getElem?, decide_eq_true_eq]
  refine ⟨fun h => ?_, fun h => ?_⟩
  · obtain ⟨x, e, entry, y, i, ⟨held, rfl⟩, rfl⟩ := h
    exact ⟨e, entry, held⟩
  · obtain ⟨e, entry, held⟩ := h
    exact ⟨u.user, e, entry, v, u.index, ⟨held, rfl⟩, rfl⟩

theorem holders_eq_nil : g.holders v = [] ↔ ∀ u, g.slot u ≠ some v := by
  simp only [List.eq_nil_iff_forall_not_mem, mem_holders, ne_eq]

theorem nodup_keys : (g.values.toList.map Prod.fst).Nodup := by
  refine List.pairwise_map.2 (Std.ExtTreeMap.distinct_keys_toList.imp fun apart heq => apart ?_)
  simpa using heq

theorem nodup_holders : (g.holders v).Nodup := by
  refine List.nodup_flatMap.2 ⟨fun p _ => ?_, ?_⟩
  · -- two slots of one value differ in their index
    have indices : (p.2.operands.zipIdx.map Prod.snd).Nodup := by
      rw [List.zipIdx_map_snd]
      exact List.nodup_range'
    have slots := (List.pairwise_map.1 indices).filter (·.1 = v)
    exact List.pairwise_map.2 (slots.imp fun apart heq => apart (congrArg Use.index heq))
  · refine (List.pairwise_map.1 nodup_keys).imp fun apart u left right => apart ?_
    obtain ⟨_, -, rfl⟩ := List.mem_map.1 left
    obtain ⟨_, -, heq⟩ := List.mem_map.1 right
    exact (congrArg Use.user heq).symm

/-- A use set has one member for each slot that a walk over the graph finds. -/
theorem UseDef.size_uses (useDef : g.UseDef) (entry : g.values[v]? = some e) :
    e.uses.size = (g.holders v).length := by
  have uses : g.usesOf v = e.uses := by
    rw [usesOf, entry]
    rfl
  rw [← Std.ExtTreeSet.length_toList]
  refine List.Perm.length_eq ((List.perm_ext_iff_of_nodup (Workspace.nodup_toList _) nodup_holders).2 ?_)
  intro u
  rw [Std.ExtTreeSet.mem_toList, mem_holders, ← useDef, uses]

theorem UseDef.uses_eq_empty (useDef : g.UseDef) (entry : g.values[v]? = some e)
    (free : g.holders v = []) : e.uses = ∅ := by
  rw [← Std.ExtTreeSet.isEmpty_iff, useDef.isEmpty_iff entry]
  rintro ⟨u, held⟩
  exact holders_eq_nil.1 free u held

theorem mem_branches {x : ValueId} : x ∈ g.branches a b ↔
    ∃ e, g.values[x]? = some e ∧ e.parent = some a ∧ e.HasTarget b := by
  simp [branches, Std.ExtTreeMap.mem_toList_iff_getElem?_eq_some]

/-- `v` is the only branch along the edge. -/
theorem branches_eq_singleton : g.branches a b = [v] ↔ ∀ x, x ∈ g.branches a b ↔ x = v := by
  have nodup : (g.branches a b).Nodup := nodup_keys.sublist (List.filter_sublist.map Prod.fst)
  rw [← List.perm_singleton, List.perm_ext_iff_of_nodup nodup (List.nodup_singleton v)]
  simp

theorem target_of_branches_eq (entry : g.values[v]? = some e) (only : g.branches a b = [v]) :
    e.parent = some a ∧ e.HasTarget b := by
  obtain ⟨e', entry', branch⟩ := mem_branches.1 ((branches_eq_singleton.1 only v).2 rfl)
  rw [entry] at entry'
  cases entry'
  exact branch

theorem Placed.runsAlong_iff_branches (placed : g.Placed) {except : Option ValueId} :
    g.RunsAlong except a b ↔ ∃ x ∈ g.branches a b, some x ≠ except := by
  have listed : ∀ x, (∃ B, g.blocks[a]? = some B ∧ x ∈ B.insts) ↔ g.parentOf x = some a := by
    intro x
    rw [placed.filed.iff, mem_instsOf]
  refine ⟨fun h => ?_, fun h => ?_⟩
  · obtain ⟨B, found, x, hx, ne, e, entry, target⟩ := h
    obtain ⟨e', entry', parent⟩ := parentOf_eq_some.1 ((listed x).1 ⟨B, found, hx⟩)
    rw [entry] at entry'
    cases entry'
    exact ⟨x, mem_branches.2 ⟨e, entry, parent, target⟩, ne⟩
  · obtain ⟨x, hx, ne⟩ := h
    obtain ⟨e, entry, parent, target⟩ := mem_branches.1 hx
    obtain ⟨B, found, hx⟩ := (listed x).2 (parentOf_eq_some.2 ⟨e, entry, parent⟩)
    exact ⟨B, found, x, hx, ne, e, entry, target⟩

/-! ## The graph after a removal -/

/-- The graph without the value. No use set has slots of it, the list it was in does not have it any
more, and an edge is gone if it was the only branch along it. -/
def removal (g : Graph) (v : ValueId) : Graph :=
  { g with
    values := (g.values.erase v).map fun _ e => { e with uses := e.uses.filter (·.user ≠ v) }
    blocks := g.blocks.map fun b block =>
      { block with
        insts := if g.parentOf v = some b then block.insts.filter (· ≠ v) else block.insts
        succs := block.succs.filter (g.branches b · ≠ [v])
        preds := block.preds.filter (g.branches · b ≠ [v]) } }

theorem getElem?_removal_self : (g.removal v).values[v]? = none := by
  simp [removal]

theorem getElem?_removal_of_ne {x : ValueId} (hx : x ≠ v) : (g.removal v).values[x]? =
    g.values[x]?.map fun e => { e with uses := e.uses.filter (·.user ≠ v) } := by
  have hc : ¬compare v x = .eq := by simpa using hx.symm
  simp [removal, Std.ExtTreeMap.getElem?_erase, hc]

/-- The slots of `v` in a use set are those of its operands. -/
theorem UseDef.diff_slotsOf (useDef : g.UseDef) (entry : g.values[v]? = some e) {x : ValueId} {e' : Value}
    (entry' : g.values[x]? = some e') :
    e'.uses \ slotsOf v e.operands x = e'.uses.filter (·.user ≠ v) := by
  refine Std.ExtTreeSet.ext_mem fun u => ?_
  have own : u ∈ e'.uses → u.user = v → e.operands[u.index]? = some x := by
    intro hu user
    have held := (useDef x u).1 (mem_usesOf.2 ⟨e', entry', hu⟩)
    rwa [slot, user, entry] at held
  simp only [Std.ExtTreeSet.mem_diff_iff, mem_slotsOf, Std.ExtTreeSet.mem_filter]
  grind

theorem UseDef.values_removal (useDef : g.UseDef) (entry : g.values[v]? = some e)
    (same : ∀ x, x ≠ v → g₁.values[x]? = g.values[x]?) :
    (g₁.without v e.operands).values = (g.removal v).values := by
  refine Std.ExtTreeMap.ext_getElem? fun x => ?_
  by_cases hx : x = v
  · rw [hx, getElem?_without_self, getElem?_removal_self]
  · rw [getElem?_without_of_ne hx, getElem?_removal_of_ne hx, same x hx]
    refine Option.map_congr fun e' entry' => ?_
    rw [useDef.diff_slotsOf entry entry']

/-- Nothing leaves the blocks when a detached value goes. -/
theorem UseDef.removal_of_detached (useDef : g.UseDef) (entry : g.values[v]? = some e)
    (detached : e.parent = none) : g.without v e.operands = g.removal v := by
  have parent : g.parentOf v = none := by
    rw [parentOf, entry]
    exact detached
  have kept : ∀ a b, g.branches a b ≠ [v] := by
    intro a b only
    have attached := (target_of_branches_eq entry only).1
    rw [detached] at attached
    cases attached
  have blocks : g.blocks = (g.removal v).blocks := by
    refine (Table.map_id _ fun b B _ => ?_).symm
    simp [parent, kept]
  exact congrArg₂ (fun values blocks => { g with values, blocks })
    (useDef.values_removal entry fun _ _ => rfl) blocks

/-- The edges that detaching a branch forgets are those it is alone on. -/
theorem Placed.only_branch_iff (placed : g.Placed) (entry : g.values[v]? = some e)
    (attached : e.parent = some block) {targets gone : List BlockId} (branch : targetsOf e = .ok targets)
    (unused : ∀ d, d ∈ gone ↔ d ∈ targets ∧ ¬g.RunsAlong (some v) block d) :
    g.branches a b = [v] ↔ a = block ∧ b ∈ gone := by
  rw [unused, mem_of_targetsOf branch, placed.runsAlong_iff_branches]
  refine ⟨fun only => ?_, fun h => ?_⟩
  · obtain ⟨parent, target⟩ := target_of_branches_eq entry only
    rw [attached] at parent
    cases parent
    refine ⟨rfl, target, ?_⟩
    rintro ⟨x, hx, ne⟩
    exact ne (congrArg some ((branches_eq_singleton.1 only x).1 hx))
  · obtain ⟨rfl, target, alone⟩ := h
    refine branches_eq_singleton.2 fun x => ⟨fun hx => ?_, ?_⟩
    · exact Classical.not_not.1 fun ne => alone ⟨x, hx, by simpa using ne⟩
    · rintro rfl
      exact mem_branches.2 ⟨e, entry, attached, target⟩

theorem UseDef.removal_of_attached (useDef : g.UseDef) (placed : g.Placed)
    (entry : g.values[v]? = some e) (attached : e.parent = some block) {targets gone : List BlockId}
    (branch : targetsOf e = .ok targets)
    (unused : ∀ d, d ∈ gone ↔ d ∈ targets ∧ ¬g.RunsAlong (some v) block d) :
    (g.displaced v block gone).without v e.operands = g.removal v := by
  have parent : g.parentOf v = some block := parentOf_eq_some.2 ⟨e, entry, attached⟩
  have only : ∀ {a b}, g.branches a b = [v] ↔ a = block ∧ b ∈ gone :=
    placed.only_branch_iff entry attached branch unused
  have values : ((g.displaced v block gone).without v e.operands).values = (g.removal v).values := by
    refine useDef.values_removal entry fun x hx => ?_
    rw [displaced, values_mapBlocks, getElem?_mapValues]
    cases g.values[x]? <;> simp [Value.moved, hx]
  have blocks : (g.displaced v block gone).blocks = (g.removal v).blocks := by
    refine Table.map_congr fun b B _ => ?_
    have succs : B.succs.filter (g.branches b · ≠ [v]) =
        if b = block then B.succs.filter (· ∉ gone) else B.succs := by
      split
      · rename_i own
        simp [only, own]
      · rename_i other
        simp [only, other]
    have preds : B.preds.filter (g.branches · b ≠ [v]) =
        if b ∈ gone then B.preds.filter (· ≠ block) else B.preds := by
      split
      · rename_i cut
        simp [only, cut]
      · rename_i uncut
        simp [only, uncut]
    rw [succs, preds]
    simp only [Block.relisted, Block.unlinked, parent, Option.some.injEq, eq_comm]
  exact congrArg₂ (fun values blocks => { g with values, blocks }) values blocks

/-- The value with this entry can be removed. -/
structure Free (g : Graph) (v : ValueId) (e : Value) : Prop where
  entry : g.values[v]? = some e
  noBlock : e.kind ≠ .block
  noFunction : e.kind ≠ .function
  unheld : g.holders v = []

/-- What a removal answers, and the graph it leaves, for a value that may be asked for. -/
theorem WellFormed.removeValue_eq (wf : g.WellFormed) (entry : g.values[v]? = some e)
    (noBlock : e.kind ≠ .block) (noFunction : e.kind ≠ .function) :
    g.removeValue v = .ok (if g.holders v = [] then (.ok e.released, g.removal v)
      else (.error (.valueInUse v (g.holders v).length), g)) := by
  obtain ⟨⟨answer, g'⟩, run⟩ := removeValue_total wf entry noBlock noFunction
  have size := wf.useDef.size_uses entry
  rw [run]
  cases answer with
  | error reason =>
    have refused := ((removeValue_answered wf run).exact reason).1 rfl
    obtain ⟨⟨u, held⟩, rfl⟩ := (refuses_removeValue entry).1 refused
    rw [if_neg (List.ne_nil_of_mem (mem_holders.2 held)), removeValue_refused run, size]
  | ok data =>
    obtain ⟨e', entry', unused, -, -, rfl, way⟩ := removeValue_split run
    rw [entry] at entry'
    cases entry'
    rw [if_pos (List.eq_nil_of_length_eq_zero (by rw [← size, unused]; rfl)), Value.released,
      unused]
    rcases way with ⟨detached, rfl⟩ | ⟨block, g₁, attached, left, rfl⟩
    · rw [wf.useDef.removal_of_detached entry detached]
    · obtain ⟨e', targets, gone, entry', -, -, branch, cut, -, rfl⟩ := detach_ok left
      rw [entry] at entry'
      cases entry'
      rw [wf.useDef.removal_of_attached wf.placed entry attached branch cut]

theorem WellFormed.removal_of_ok (wf : g.WellFormed) {g' : Graph} {data : Value}
    (h : g.removeValue v = .ok (.ok data, g')) : ∃ e, g.Free v e ∧ data = e.released ∧ g' = g.removal v := by
  obtain ⟨e, entry, -, noBlock, noFunction, -, -⟩ := removeValue_split h
  rw [wf.removeValue_eq entry noBlock noFunction] at h
  by_cases unheld : g.holders v = []
  · rw [if_pos unheld] at h
    cases h
    exact ⟨e, ⟨entry, noBlock, noFunction, unheld⟩, rfl, rfl⟩
  · rw [if_neg unheld] at h
    cases h

end Graph

/-! ## Every run -/

namespace Workspace

variable {w : Workspace} {v : ValueId} {e : Value}

theorem apply_removeValue_eq : w.apply (.removeValue v) =
    (w.graph.removeValue v).map (w.keepRemoved v) := by
  rw [apply, graph]
  cases w.program.graph.removeValue v <;> rfl

/-- After every run, a value that is no block and no function can be removed unless some slot holds it,
and the refusal counts the slots of the whole graph that do. What is answered is the entry of the value
without its parent and its uses. The graph that is left differs from the one before in the value, in
slots of it in use sets, in its place in a list, and in the edges that it was the only branch on. -/
theorem removal_exact (h : w.Reachable) (entry : w.graph.values[v]? = some e) (noBlock : e.kind ≠ .block)
    (noFunction : e.kind ≠ .function) :
    w.apply (.removeValue v) = .ok (if w.graph.holders v = [] then
        (.ok (.removed e.released),
          { w.withGraph (w.graph.removal v) with removed := w.removed.insert v e.released })
      else (.error (.valueInUse v (w.graph.holders v).length), w)) := by
  rw [apply_removeValue_eq, h.built.wellFormed.removeValue_eq entry noBlock noFunction]
  split
  · rfl
  · rfl

/-- The loop with a jump behind the branch of the first block, which goes the same way. -/
def detour : Workspace := loop.perform [.build (.jump 3) (some 2)]

/-- The phi of the loop stands in two slots. Nothing uses the branch, and the edge stays when it goes as
long as the jump is there. -/
theorem removal_exact_detour : detour.Reachable ∧
    detour.apply (.removeValue 7) = .ok (.error (.valueInUse 7 2), detour) ∧
    (∃ e w', detour.graph.values[6]? = some e ∧ e.operands = [5, 3, 3] ∧
      detour.apply (.removeValue 6) = .ok (.ok (.removed e.released), w') ∧
        w'.graph.instsOf 2 = [5, 11] ∧ w'.graph.predsOf 3 = [2, 3]) ∧
    ∃ e w', loop.graph.values[6]? = some e ∧
      loop.apply (.removeValue 6) = .ok (.ok (.removed e.released), w') ∧
        w'.graph.instsOf 2 = [5] ∧ w'.graph.predsOf 3 = [3] := by
  have run : detour.Reachable := reachable_loop.perform _
  have shape : ∀ {w : Workspace} {v : ValueId} {p : Value → Bool},
      w.graph.values[v]?.any (fun e => e.kind ≠ .block ∧ e.kind ≠ .function ∧ p e) = true →
        ∃ e, w.graph.values[v]? = some e ∧ e.kind ≠ .block ∧ e.kind ≠ .function ∧ p e = true := by
    intro w v p found
    obtain ⟨e, entry, shape⟩ := Option.any_eq_true _ _ |>.1 found
    exact ⟨e, entry, decide_eq_true_eq.mp shape⟩
  obtain ⟨phi, phiEntry, phiBlock, phiFunction, -⟩ := shape (w := detour) (v := 7) (p := fun _ => true)
    (by decide +kernel)
  obtain ⟨e, entry, noBlock, noFunction, operands⟩ := shape (w := detour) (v := 6)
    (p := fun e => e.operands = [5, 3, 3]) (by decide +kernel)
  obtain ⟨e', entry', noBlock', noFunction', -⟩ := shape (w := loop) (v := 6) (p := fun _ => true)
    (by decide +kernel)
  have used := removal_exact run phiEntry phiBlock phiFunction
  have unused := removal_exact run entry noBlock noFunction
  have alone := removal_exact reachable_loop entry' noBlock' noFunction'
  rw [if_neg (by decide +kernel)] at used
  rw [if_pos (by decide +kernel)] at unused alone
  refine ⟨run, used.trans ?_, ⟨e, _, entry, by simpa using operands, unused, ?_, ?_⟩,
    e', _, entry', alone, ?_, ?_⟩
  · have two : (detour.graph.holders 7).length = 2 := by decide +kernel
    rw [two]
  · show (detour.graph.removal 6).instsOf 2 = _
    decide +kernel
  · show (detour.graph.removal 6).predsOf 3 = _
    decide +kernel
  · show (loop.graph.removal 6).instsOf 2 = _
    decide +kernel
  · show (loop.graph.removal 6).predsOf 3 = _
    decide +kernel

end Workspace

end SsaGraph
