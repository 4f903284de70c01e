import SsaGraph.Proofs.Preconditions
import SsaGraph.Proofs.SlotLaws

/-!
# Attaching and detaching

An instruction gets into the list of a block when it is built there or when it is attached later, and
both lead to the same workspace. When it is detached and attached again, edges are forgotten and
recorded anew, and the instruction comes back at the end of its group: the phis of the block, or the
whole list. `Graph.listedWith` is a list with one more instruction and `Graph.SameButList` compares two
graphs apart from one such list.

Results:
* `Built.build_eq_thenAttach`, `Built.reinsert_eq_thenAttach`: building in a block is building and
  attaching;
* `Built.detach_attach`: what detaching and attaching again leaves;
* `attaching_inverts_detaching`: both for every run.
-/
namespace SsaGraph

/-! ## Groups -/

namespace Graph

variable {g g' g₁ : Graph} {inst : ValueId} {block : BlockId} {insts before after : List ValueId}

/-- The list with one more instruction: a phi after the phis, anything else at the end. -/
def listedWith (g : Graph) (inst : ValueId) (insts : List ValueId) : List ValueId :=
  if g.kindOf inst = some .phi then
    insts.filter (g.kindOf · = some .phi) ++ inst :: insts.filter (g.kindOf · ≠ some .phi)
  else
    insts ++ [inst]

/-- The instruction is the last of the phis, or the last of all if it is no phi. -/
def LastOfGroup (g : Graph) (inst : ValueId) (insts : List ValueId) : Prop :=
  if g.kindOf inst = some .phi then (insts.filter (g.kindOf · = some .phi)).getLast? = some inst
  else insts.getLast? = some inst

theorem phis_append_others
    (sorted : insts.Pairwise fun v u => g.IsPhi u → g.IsPhi v) :
    insts.filter (g.kindOf · = some .phi) ++ insts.filter (g.kindOf · ≠ some .phi) = insts := by
  induction insts with
  | nil => rfl
  | cons v insts ih =>
    obtain ⟨first, sorted⟩ := List.pairwise_cons.1 sorted
    by_cases phi : g.kindOf v = some .phi
    · simpa [phi] using ih sorted
    · -- nothing behind `v` is a phi
      have others : ∀ u ∈ insts, g.kindOf u ≠ some .phi := fun u hu isPhi =>
        phi (isPhi_iff.1 (first u hu (isPhi_iff.2 isPhi)))
      have none : insts.filter (g.kindOf · = some .phi) = [] := by simpa using others
      simpa [phi, none] using others

theorem Spot.eq_listedWith (spot : g.Spot (g.kindOf inst = some .phi) before after)
    (sorted : (before ++ after).Pairwise fun v u => g.IsPhi u → g.IsPhi v) :
    before ++ inst :: after = g.listedWith inst (before ++ after) := by
  unfold listedWith
  split
  · rename_i phi
    obtain ⟨phis, head⟩ := spot.phi phi
    have phis : ∀ v ∈ before, g.kindOf v = some .phi := fun v hv => isPhi_iff.1 (phis v hv)
    have others : ∀ v ∈ after, g.kindOf v ≠ some .phi := by
      intro v hv isPhi
      cases after with
      | nil => cases hv
      | cons u after =>
        obtain ⟨-, right, -⟩ := List.pairwise_append.1 sorted
        refine head u (by simp) ?_
        rcases List.mem_cons.1 hv with rfl | hv
        · exact isPhi_iff.2 isPhi
        · exact (List.pairwise_cons.1 right).1 v hv (isPhi_iff.2 isPhi)
    have left : before.filter (g.kindOf · = some .phi) = before ∧
        before.filter (g.kindOf · ≠ some .phi) = [] := by simpa using phis
    have right : after.filter (g.kindOf · = some .phi) = [] ∧
        after.filter (g.kindOf · ≠ some .phi) = after := by simpa using others
    simp only [List.filter_append, left, right, List.append_nil, List.nil_append]
  · rename_i other
    rw [spot.other other, List.append_nil]

theorem filter_ne_of_last {front : List ValueId} (nodup : (front ++ [inst]).Nodup) :
    (front ++ [inst]).filter (· ≠ inst) = front := by
  have apart := (List.nodup_append.1 nodup).2.2
  have kept : front.filter (· ≠ inst) = front :=
    List.filter_eq_self.2 fun v hv => decide_eq_true fun heq => apart v hv inst (by simp) heq
  rw [List.filter_append, kept]
  simp

/-- The last of a group is back in its place after it was taken out. -/
theorem listedWith_of_last (nodup : insts.Nodup)
    (sorted : insts.Pairwise fun v u => g.IsPhi u → g.IsPhi v) (last : g.LastOfGroup inst insts) :
    g.listedWith inst (insts.filter (· ≠ inst)) = insts := by
  unfold LastOfGroup at last
  unfold listedWith
  split at last
  · rename_i phi
    rw [if_pos phi]
    obtain ⟨phis, split⟩ := List.getLast?_eq_some_iff.1 last
    have left : (insts.filter (· ≠ inst)).filter (g.kindOf · = some .phi) = phis := by
      have own := nodup.filter (g.kindOf · = some .phi)
      rw [split] at own
      rw [List.filter_comm, split, filter_ne_of_last own]
    have right : (insts.filter (· ≠ inst)).filter (g.kindOf · ≠ some .phi) =
        insts.filter (g.kindOf · ≠ some .phi) := by
      rw [List.filter_filter]
      refine List.filter_congr fun v _ => ?_
      by_cases hv : v = inst
      · simp [hv, phi]
      · simp [hv]
    rw [left, right, ← List.singleton_append, ← List.append_assoc, ← split]
    exact phis_append_others sorted
  · rename_i other
    rw [if_neg other]
    obtain ⟨front, rfl⟩ := List.getLast?_eq_some_iff.1 last
    rw [filter_ne_of_last nodup]

/-! ## Building in a block -/

section Spot

variable {spot : Option BlockId} (known : ∀ b ∈ spot, b ∈ g.blocks)

include known

theorem build_eq {draft : Draft} {x : Except Fault Value} (drafted : draft.value g = x) :
    g.build draft spot = x >>= fun e => g.insert e spot := by
  rw [build, checkSpot_ok known, drafted]
  rfl

theorem reinsert_eq (e : Value) : g.reinsert e spot = g.insert e spot := by
  rw [reinsert, checkSpot_ok known]
  rfl

end Spot

theorem attach_eq_place {e : Value} (entry : g.values[inst]? = some e) (kind : e.kind.isInst = true)
    (detached : e.parent = none) (live : block ∈ g.blocks) :
    g.attach inst block = g.place inst block := by
  rw [attach, value_eq_ok.2 entry]
  simp only [bind, Except.bind, kind, Bool.true_eq_false, if_false, detached,
    (require_eq_ok (u := ())).2 live]

theorem insert_none (e : Value) : g.insert e none = g.create e := by
  rw [insert]
  cases g.create e <;> rfl

/-- What can not be inserted detached can not be inserted in a block either. -/
theorem insert_fault {e : Value} {spot : Option BlockId} {fault : Fault}
    (h : g.insert e none = .error fault) : g.insert e spot = .error fault := by
  rw [insert_none] at h
  rw [insert, h]
  rfl

/-- Otherwise inserting it in a block is to attach it afterwards, and its list does not refuse it. -/
theorem insert_attach (num : g.Numbered) (placed : g.Placed) {e : Value} (plain : e.Plain)
    (kind : e.kind.isInst = true) (live : block ∈ g.blocks) {id : ValueId}
    (h : g.insert e none = .ok (id, g₁)) :
    (∃ fault, g₁.attach id block = .error fault ∧ g.insert e (some block) = .error fault) ∨
      ∃ g₂, g₁.attach id block = .ok (.ok (), g₂) ∧ g.insert e (some block) = .ok (id, g₂) := by
  rw [insert_none] at h
  obtain ⟨-, -, rfl, rfl⟩ := create_eq_ok.1 h
  have entry := getElem?_entered_self (g := g) e
  rw [attach_eq_place entry kind plain.parent live, insert, h]
  cases run : (g.entered e).place g.next block with
  | error fault =>
    refine .inl ⟨fault, rfl, (if_pos kind).trans ?_⟩
    rw [run]
    rfl
  | ok result =>
    obtain ⟨answer, g₂⟩ := result
    have placed₁ := placed.of_samePlaces (samePlaces_entered num plain.toIdle)
    obtain rfl := placed₁.place_answer entry plain.parent run
    refine .inr ⟨g₂, rfl, (if_pos kind).trans ?_⟩
    rw [run]
    rfl

end Graph

/-- The draft describes an instruction and no constant. -/
def Draft.isInst : Draft → Bool
  | integer _ | integerOf .. | undef _ => false
  | _ => true

theorem Draft.isInst_value {g : Graph} {draft : Draft} {v : Value} (h : draft.value g = .ok v) :
    v.kind.isInst = draft.isInst := by
  cases draft with
  | call callee args =>
    simp only [Draft.value, bind_eq_ok] at h
    obtain ⟨func, -, h⟩ := h
    split at h
    · simp only [bind_eq_ok, pure_eq_ok] at h
      obtain ⟨-, -, rfl⟩ := h
      rfl
    · cases h
  | ret value =>
    cases value <;> simp only [Draft.value, bind_eq_ok, pure_eq_ok] at h
    · subst h
      rfl
    · obtain ⟨-, -, -, -, rfl⟩ := h
      rfl
  | integer | jump =>
    simp only [Draft.value, pure_eq_ok] at h
    subst h
    rfl
  | integerOf | undef | alloca | phi | binary | compare | elemPtr =>
    simp only [Draft.value, bind_eq_ok, pure_eq_ok] at h
    obtain ⟨_, -, rfl⟩ := h
    rfl
  | branch | store | load =>
    simp only [Draft.value, bind_eq_ok, pure_eq_ok] at h
    obtain ⟨_, -, _, -, rfl⟩ := h
    rfl
  | zext =>
    simp only [Draft.value, bind_eq_ok, pure_eq_ok] at h
    obtain ⟨_, -, _, -, _, -, rfl⟩ := h
    rfl

namespace Workspace

variable {w : Workspace} {inst : ValueId} {block : BlockId}

/-- Creates something and then attaches it, and answers with its handle. -/
def thenAttach (w : Workspace) (creation : Edit) (block : BlockId) :
    Except Fault (Except Refusal Reply × Workspace) := do
  match ← w.apply creation with
  | (.ok (.handle id), w) =>
    let (answer, w) ← w.apply (.attach id block)
    return (answer.map fun _ => .handle id, w)
  | other => return other

theorem thenAttach_eq {creation : Edit} {id : ValueId} {answer : Except Refusal Reply}
    {w₁ w₂ : Workspace} (first : w.apply creation = .ok (.ok (.handle id), w₁))
    (second : w₁.apply (.attach id block) = .ok (answer, w₂)) :
    w.thenAttach creation block = .ok (answer.map fun _ => .handle id, w₂) := by
  rw [thenAttach, first]
  show w₁.apply (.attach id block) >>= _ = _
  rw [second]
  rfl

theorem apply_attach_eq (base : Workspace) (g : Graph) (inst : ValueId) (block : BlockId) :
    (base.withGraph g).apply (.attach inst block) =
      (g.attach inst block).map fun r => (r.1.map fun _ => .done, base.withGraph r.2) := by
  simp only [apply, withGraph]
  cases g.attach inst block <;> rfl

/-- An edit that inserts the value `e`, wherever it is told to. -/
theorem Built.insert_eq_thenAttach (built : w.Built) {e : Value} (plain : e.Plain)
    (kind : e.kind.isInst = true) (live : block ∈ w.graph.blocks) (base : Workspace)
    {creation : Option BlockId → Edit}
    (inserts : ∀ spot, (∀ b ∈ spot, b ∈ w.graph.blocks) → w.apply (creation spot) =
      (w.graph.insert e spot).map fun r => (.ok (.handle r.1), base.withGraph r.2)) :
    w.apply (creation (some block)) = w.thenAttach (creation none) block := by
  rw [inserts (some block) (by simpa using live), thenAttach, inserts none (by simp)]
  cases detached : w.graph.insert e none with
  | error fault =>
    rw [Graph.insert_fault detached]
    rfl
  | ok result =>
    obtain ⟨id, g₁⟩ := result
    show _ = (base.withGraph g₁).apply (.attach id block) >>= _
    rw [apply_attach_eq]
    rcases Graph.insert_attach built.numbered built.placed plain kind live detached with
      ⟨fault, attach, whole⟩ | ⟨g₂, attach, whole⟩
    · rw [attach, whole]
      rfl
    · rw [attach, whole]
      rfl

theorem Built.build_eq_thenAttach (built : w.Built) {draft : Draft} (isInst : draft.isInst = true)
    (live : block ∈ w.graph.blocks) :
    w.apply (.build draft (some block)) = w.thenAttach (.build draft none) block := by
  have edit : ∀ spot, w.apply (.build draft spot) =
      (w.graph.build draft spot).map fun r => (.ok (.handle r.1), w.withGraph r.2) := by
    intro spot
    rw [apply, graph]
    cases w.program.graph.build draft spot <;> rfl
  cases drafted : draft.value w.graph with
  | error fault =>
    have faults : ∀ spot, (∀ b ∈ spot, b ∈ w.graph.blocks) →
        w.apply (.build draft spot) = .error fault := by
      intro spot known
      rw [edit, Graph.build_eq known drafted]
      rfl
    rw [thenAttach, faults none (by simp), faults (some block) (by simpa using live)]
    rfl
  | ok e =>
    refine built.insert_eq_thenAttach (Draft.value_plain drafted) ((Draft.isInst_value drafted).trans isInst)
      live w fun spot known => ?_
    rw [edit, Graph.build_eq known drafted]
    rfl

theorem apply_reinsert_eq {v : ValueId} {e : Value} {spot : Option BlockId}
    (found : w.removed[v]? = some e) (known : ∀ b ∈ spot, b ∈ w.graph.blocks) :
    w.apply (.reinsert v spot) = (w.graph.insert e spot).map fun r =>
      (.ok (.handle r.1), { w.withGraph r.2 with removed := w.removed.erase v }) := by
  rw [apply, removedEntry, Table.fetch_eq_ok.2 found]
  show w.graph.reinsert e spot >>= _ = _
  rw [Graph.reinsert_eq known]
  cases w.graph.insert e spot <;> rfl

theorem Built.reinsert_eq_thenAttach (built : w.Built) {v : ValueId} {e : Value}
    (found : w.removed[v]? = some e) (kind : e.kind.isInst = true) (live : block ∈ w.graph.blocks) :
    w.apply (.reinsert v (some block)) = w.thenAttach (.reinsert v none) block := by
  exact built.insert_eq_thenAttach (built.stored v e found) kind live
    { w with removed := w.removed.erase v } fun spot known => apply_reinsert_eq found known

end Workspace

/-! ## Detaching and attaching again -/

namespace Graph

variable {g g' : Graph} {inst : ValueId} {block : BlockId} {e : Value}

/-- `g'` is `g` with another instruction list in the block, up to the order inside lists of predecessors
and successors. -/
structure SameButList (g : Graph) (block : BlockId) (insts : List ValueId) (g' : Graph) : Prop where
  values : g'.values = g.values
  functions : g'.functions = g.functions
  next : g'.next = g.next
  owners : ∀ b, g'.funcOf b = g.funcOf b
  lists : ∀ b, g'.instsOf b = if b = block then insts else g.instsOf b
  succs : ∀ a, (g'.succsOf a).Perm (g.succsOf a)
  preds : ∀ b, (g'.predsOf b).Perm (g.predsOf b)

theorem SameButList.equalUpToEdgeOrder (h : g.SameButList block (g.instsOf block) g') :
    g'.EqualUpToEdgeOrder g := by
  refine ⟨h.values, h.functions, h.next, fun b => ?_, h.succs, h.preds⟩
  have owner := h.owners b
  have list := h.lists b
  rw [ite_eq_right_iff.2 fun heq => by rw [heq]] at list
  simp only [funcOf, instsOf] at owner list
  cases hb : g.blocks[b]? with
  | none =>
    rw [hb] at owner
    rw [Option.map_eq_none_iff.1 owner]
  | some B =>
    rw [hb] at owner list
    obtain ⟨B', hb', same⟩ := Option.map_eq_some_iff.1 owner
    rw [hb'] at list ⊢
    simp only [Option.map_some, Option.getD_some] at list
    simp [Block.frame, same, list]

theorem Placed.isInst_of_parent (placed : g.Placed) (entry : g.values[inst]? = some e)
    (attached : e.parent = some block) : e.kind.isInst = true := by
  obtain ⟨k, kind, isInst⟩ := placed.inst inst block (parentOf_eq_some.2 ⟨e, entry, attached⟩)
  rw [kindOf, entry, Option.map_some, Option.some.injEq] at kind
  rw [kind]
  exact isInst

theorem WellFormed.detach_attached (wf : g.WellFormed) (entry : g.values[inst]? = some e)
    (attached : e.parent = some block) :
    ∃ gone, g.detach inst = .ok (.ok block, g.displaced inst block gone) := by
  obtain ⟨⟨answer, g'⟩, run⟩ := detach_total wf entry attached
  cases answer with
  | error reason =>
    have refused := ((detach_answered run).exact reason).1 rfl
    simp [refuses_detach entry, wf.placed.isInst_of_parent entry attached] at refused
  | ok b =>
    obtain ⟨e', _, gone, entry', -, attached', -, -, -, rfl⟩ := detach_ok run
    rw [entry] at entry'
    cases entry'
    rw [attached] at attached'
    cases attached'
    exact ⟨gone, run⟩

theorem WellFormed.attach_detached (wf : g.WellFormed) (entry : g.values[inst]? = some e)
    (kind : e.kind.isInst = true) (detached : e.parent = none) (live : block ∈ g.blocks)
    (targets : ∀ t, e.HasTarget t → t ∈ g.blocks) : ∃ targets, g.attach inst block =
      .ok (.ok (), g.placed inst block (g.listedWith inst (g.instsOf block)) targets) := by
  obtain ⟨⟨answer, g'⟩, run⟩ := (attach_succeeds_iff wf).2 ⟨e, entry, fun _ _ => ⟨live, targets⟩⟩
  rw [run]
  rw [attach_eq_place entry kind detached live] at run
  have done := wf.placed.place_answer entry detached run
  subst done
  obtain ⟨e', b, targets, before, after, entry', found, -, -, -, list, spot, rfl⟩ := place_ok run
  rw [entry] at entry'
  cases entry'
  have kinds : g.kindOf inst = some e.kind := kindOf_eq_some.2 ⟨e, entry, rfl⟩
  have sorted := wf.placed.phisFirst block
  rw [instsOf_eq found, list] at sorted ⊢
  rw [← Spot.eq_listedWith (by simpa [kinds] using spot) sorted]
  exact ⟨targets, rfl⟩

theorem listedWith_displaced (gone : List BlockId) :
    (g.displaced inst block gone).listedWith inst ((g.displaced inst block gone).instsOf block) =
      g.listedWith inst ((g.instsOf block).filter (· ≠ inst)) := by
  have kinds : ∀ x, (g.displaced inst block gone).kindOf x = g.kindOf x :=
    kindOf_mapValues fun _ _ => rfl
  simp only [listedWith, kinds, instsOf_displaced, if_true]

/-- Detaching and attaching again gives every value back what it had. -/
theorem values_displaced_placed (entry : g.values[inst]? = some e) (attached : e.parent = some block)
    (gone insts targets : List ValueId) :
    ((g.displaced inst block gone).placed inst block insts targets).values = g.values := by
  show (g.values.map (Value.moved inst none)).map (Value.moved inst (some block)) = g.values
  rw [Table.map_map]
  refine Table.map_id _ fun x e' found => ?_
  by_cases hx : x = inst
  · rw [hx, entry] at found
    cases found
    simp [Value.moved, hx, ← attached]
  · simp [Value.moved, hx]

theorem funcOf_placed (insts targets : List ValueId) (b : BlockId) :
    (g.placed inst block insts targets).funcOf b = g.funcOf b := by
  refine (funcOf_mapBlocks (g := g.mapValues _) ?_ b).trans rfl
  exact fun _ _ => rfl

theorem funcOf_displaced (gone : List BlockId) (b : BlockId) :
    (g.displaced inst block gone).funcOf b = g.funcOf b := by
  refine (funcOf_mapBlocks (g := g.mapValues _) ?_ b).trans rfl
  exact fun _ _ => rfl

theorem mem_displaced (gone : List BlockId) (b : BlockId) :
    b ∈ (g.displaced inst block gone).blocks ↔ b ∈ g.blocks :=
  mem_mapBlocks (g := g.mapValues _) _ b

theorem edge_of_values (same : g'.values = g.values) (a b : BlockId) : g'.Edge a b ↔ g.Edge a b := by
  simp only [Edge, source, slot, same]

theorem sameButList_reattached (wf : g.WellFormed) (entry : g.values[inst]? = some e)
    (attached : e.parent = some block) (live : block ∈ g.blocks) {gone targets : List BlockId}
    {insts : List ValueId}
    (wf' : ((g.displaced inst block gone).placed inst block insts targets).WellFormed) :
    g.SameButList block insts ((g.displaced inst block gone).placed inst block insts targets) := by
  have values := values_displaced_placed entry attached gone insts targets
  obtain ⟨succs, preds⟩ := wf'.records.perm (wf.records.congr (edge_of_values values))
  refine ⟨values, rfl, rfl, fun b => ?_, fun b => ?_, succs, preds⟩
  · rw [funcOf_placed, funcOf_displaced]
  · rw [instsOf_placed ((mem_displaced gone block).2 live), instsOf_displaced]
    by_cases hb : b = block
    · simp [hb]
    · simp [hb]

end Graph

/-! ## Every run -/

namespace Workspace

variable {w : Workspace} {inst : ValueId} {block : BlockId} {e : Value}

/-- An attached instruction can be detached and attached again to its block. -/
theorem Built.detach_attach (built : w.Built) (entry : w.graph.values[inst]? = some e)
    (attached : e.parent = some block) :
    ∃ g₁ g₂, w.apply (.detach inst) = .ok (.ok (.handle block), w.withGraph g₁) ∧
      (w.withGraph g₁).apply (.attach inst block) = .ok (.ok .done, w.withGraph g₂) ∧
      w.graph.SameButList block
        (w.graph.listedWith inst ((w.graph.instsOf block).filter (· ≠ inst))) g₂ := by
  have wf := built.wellFormed
  have kind := wf.placed.isInst_of_parent entry attached
  have live := wf.placed.block_of_parent (Graph.parentOf_eq_some.2 ⟨e, entry, attached⟩)
  obtain ⟨gone, detach⟩ := wf.detach_attached entry attached
  have left : w.apply (.detach inst) =
      .ok (.ok (.handle block), w.withGraph (w.graph.displaced inst block gone)) := by
    simp only [apply, bind_eq_ok]
    exact ⟨_, detach, rfl⟩
  have built₁ := (Step.apply left).built built
  have wf₁ : (w.graph.displaced inst block gone).WellFormed := built₁.wellFormed
  have entry₁ : (w.graph.displaced inst block gone).values[inst]? = some { e with parent := none } := by
    simp [Graph.displaced, entry, Value.moved]
  obtain ⟨targets, attach⟩ := wf₁.attach_detached entry₁ kind rfl
    ((Graph.mem_displaced gone block).2 live) fun t target =>
      (Graph.mem_displaced gone t).2 (wf.target_live entry attached target)
  rw [Graph.listedWith_displaced] at attach
  have back := apply_attach_eq w (w.graph.displaced inst block gone) inst block
  rw [attach] at back
  have built₂ := (Step.apply back).built built₁
  exact ⟨_, _, left, back, Graph.sameButList_reattached wf entry attached live built₂.wellFormed⟩

/-- What attaching undoes and what it repeats. -/
structure Reattaching (w : Workspace) : Prop where
  /-- Building in a block is building and attaching, with the same answer or fault. -/
  build : ∀ draft block, draft.isInst = true → block ∈ w.graph.blocks →
    w.apply (.build draft (some block)) = w.thenAttach (.build draft none) block
  reinsert : ∀ v e block, w.removed[v]? = some e → e.kind.isInst = true → block ∈ w.graph.blocks →
    w.apply (.reinsert v (some block)) = w.thenAttach (.reinsert v none) block
  /-- Detaching and attaching again changes one list and no other part of the workspace. -/
  detach : ∀ inst block, w.graph.parentOf inst = some block → ∃ g₁ g₂,
    w.apply (.detach inst) = .ok (.ok (.handle block), w.withGraph g₁) ∧
      (w.withGraph g₁).apply (.attach inst block) = .ok (.ok .done, w.withGraph g₂) ∧
        w.graph.SameButList block
            (w.graph.listedWith inst ((w.graph.instsOf block).filter (· ≠ inst))) g₂ ∧
          (w.graph.LastOfGroup inst (w.graph.instsOf block) →
            (w.withGraph g₂).EqualUpToEdgeOrder w)

/-- After every run, building an instruction in a block is the same as building it and attaching it to
the block, and detaching an instruction and attaching it again changes nothing, up to the order inside
lists of predecessors and successors, but that the instruction moves to the end of its group. -/
theorem attaching_inverts_detaching (h : w.Reachable) : w.Reattaching := by
  have built := h.built
  refine ⟨fun _ _ isInst live => built.build_eq_thenAttach isInst live,
    fun _ _ _ found kind live => built.reinsert_eq_thenAttach found kind live,
    fun inst block parent => ?_⟩
  obtain ⟨e, entry, attached⟩ := Graph.parentOf_eq_some.1 parent
  obtain ⟨g₁, g₂, left, back, same⟩ := built.detach_attach entry attached
  refine ⟨g₁, g₂, left, back, same, fun last => ⟨?_, rfl, rfl, rfl, rfl⟩⟩
  have placed := built.placed
  rw [Graph.listedWith_of_last (placed.filed.nodup block) (placed.phisFirst block) last] at same
  exact same.equalUpToEdgeOrder

/-- In the loop the addition goes behind the jump, and the only phi stays where it is; a phi built in the
loop is one built and attached. -/
theorem attaching_inverts_detaching_loop : loop.Reachable ∧
    (∃ w₁ w₂, loop.apply (.detach 9) = .ok (.ok (.handle 3), w₁) ∧
      w₁.apply (.attach 9 3) = .ok (.ok .done, w₂) ∧ w₂.graph.instsOf 3 = [7, 10, 9] ∧
        w₂.graph.instsOf 2 = [5, 6]) ∧
    (∃ w₁ w₂, loop.apply (.detach 7) = .ok (.ok (.handle 3), w₁) ∧
      w₁.apply (.attach 7 3) = .ok (.ok .done, w₂) ∧ w₂.EqualUpToEdgeOrder loop) ∧
    loop.apply (.build (.phi .i32) (some 3)) =
      loop.thenAttach (.build (.phi .i32) none) 3 := by
  have laws := attaching_inverts_detaching reachable_loop
  obtain ⟨g₁, g₂, left, back, same, -⟩ := laws.detach 9 3 (by decide +kernel)
  obtain ⟨g₃, g₄, left', back', -, unmoved⟩ := laws.detach 7 3 (by decide +kernel)
  refine ⟨reachable_loop, ⟨_, _, left, back, ?_, ?_⟩, ⟨_, _, left', back', unmoved ?_⟩,
    laws.build _ 3 rfl (by decide +kernel)⟩
  · exact (same.lists 3).trans (by decide +kernel)
  · exact (same.lists 2).trans (by decide +kernel)
  · unfold Graph.LastOfGroup
    decide +kernel

end Workspace

end SsaGraph
