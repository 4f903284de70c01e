import SsaGraph.Proofs.Catalogue
import SsaGraph.Proofs.ControlFlow

/-!
# Operations that go through

In the graph of a built workspace every lookup that an operation makes on its way finds its entry, so
an operation faults only on what its caller hands in. `Graph.WellFormed` collects what this rests on.

Results:
* `Graph.writeOperand_total`: a write to a slot goes through whenever the slot accepts the value;
* `Graph.place_total`, `Graph.detach_total`: so does placing an instruction whose targets are blocks, and
  detaching one that is attached;
* `Graph.removeValue_total`, `Graph.addIncoming_total`: so does removing what is neither a block nor a
  function, and adding a pair of the right type to a phi.
-/
namespace SsaGraph

namespace Graph

variable {g g' : Graph}

/-- What is known of the graph of every built workspace. -/
structure WellFormed (g : Graph) : Prop where
  shaped : g.Shaped
  useDef : g.UseDef
  placed : g.Placed
  records : g.Records g.Edge
  catalogued : g.Catalogued

/-! ## Branches of a block -/

theorem targetsOf_total {v : Value} (arity : v.kind.Arity v.operands.length) :
    ∃ targets, targetsOf v = .ok targets := by
  unfold targetsOf
  split
  · rename_i branch
    rw [branch] at arity
    simp only [Value.targets, bind_eq_ok, Value.isConditional_eq_ok]
    rcases arity with one | three
    · obtain ⟨t, ht⟩ := List.length_eq_one_iff.1 one
      refine ⟨[t], _, ⟨branch, rfl⟩, ?_⟩
      have target : v.trueTarget = .ok t := Value.trueTarget_eq_ok.2 ⟨branch, by simp [ht]⟩
      simp [one, target]
    · obtain ⟨c, t, f, hf⟩ := List.length_eq_three.1 three
      refine ⟨[t, f], _, ⟨branch, rfl⟩, ?_⟩
      have onTrue : v.trueTarget = .ok t := Value.trueTarget_eq_ok.2 ⟨branch, by simp [hf]⟩
      have onFalse : v.falseTarget = .ok f := Value.falseTarget_eq_ok.2 ⟨branch, three, by simp [hf]⟩
      simp [three, onTrue, onFalse, bind_eq_ok]
  · exact ⟨[], rfl⟩

theorem anyM_total {α : Type} {p : α → Except Fault Bool} {l : List α}
    (each : ∀ a ∈ l, ∃ r, p a = .ok r) : ∃ r, l.anyM p = .ok r := by
  induction l with
  | nil => exact ⟨false, rfl⟩
  | cons a l ih =>
    obtain ⟨first, ha⟩ := each a (List.mem_cons_self ..)
    obtain ⟨rest, hl⟩ := ih fun b hb => each b (List.mem_cons_of_mem a hb)
    simp only [List.anyM, bind_eq_ok]
    cases first with
    | true => exact ⟨true, true, ha, rfl⟩
    | false => exact ⟨rest, false, ha, hl⟩

theorem Placed.insts_live (placed : g.Placed) {block : BlockId} {b : Block}
    (hb : g.blocks[block]? = some b) : ∀ inst ∈ b.insts, inst ∈ g.values := by
  intro inst hi
  obtain ⟨v, hv, -⟩ := parentOf_eq_some.1 ((placed.filed.iff inst block).2 (mem_instsOf.2 ⟨b, hb, hi⟩))
  exact Table.mem_of_getElem? hv

theorem hasBranchTo_total (shaped : g.Shaped) (placed : g.Placed) {src : BlockId} (live : src ∈ g.blocks)
    (dst : BlockId) (except : Option ValueId) : ∃ r, g.hasBranchTo src dst except = .ok r := by
  obtain ⟨b, hb⟩ := Table.getElem?_of_mem live
  rw [hasBranchTo, block_eq_ok.2 hb]
  refine anyM_total (l := b.insts) fun inst hi => ?_
  obtain ⟨v, hv⟩ := Table.getElem?_of_mem (placed.insts_live hb inst hi)
  obtain ⟨targets, ht⟩ := targetsOf_total (shaped inst v hv)
  simp only [bind_eq_ok, value_eq_ok]
  by_cases skip : some inst = except
  · exact ⟨false, v, hv, by simp [skip, pure_eq_ok]⟩
  · refine ⟨decide (dst ∈ targets), v, hv, ?_⟩
    simp only [if_neg skip, bind_eq_ok, pure_eq_ok]
    exact ⟨targets, ht, rfl⟩

theorem link_total {src dst : BlockId} (srcLive : src ∈ g.blocks) (dstLive : dst ∈ g.blocks) :
    ∃ g', g.link src dst = .ok g' :=
  ⟨_, link_eq_ok.2 ⟨dstLive, srcLive, rfl⟩⟩

theorem unlinkUnused_total (shaped : g.Shaped) (placed : g.Placed) {src dst : BlockId}
    (srcLive : src ∈ g.blocks) (dstLive : dst ∈ g.blocks) (except : Option ValueId) :
    ∃ g', g.unlinkUnused src dst except = .ok g' := by
  obtain ⟨used, hu⟩ := hasBranchTo_total shaped placed srcLive dst except
  simp only [unlinkUnused, bind_eq_ok]
  cases used with
  | true => exact ⟨g, true, hu, rfl⟩
  | false => exact ⟨_, false, hu, unlink_eq_ok.2 ⟨dstLive, srcLive, rfl⟩⟩

/-! ## Writing slots -/

theorem slotRefusal_total {user : ValueId} (live : user ∈ g.values) (index : Nat) (value : ValueId) :
    ∃ refusal, g.slotRefusal? user index value = .ok refusal := by
  obtain ⟨v, hv⟩ := Table.getElem?_of_mem live
  rw [slotRefusal?, value_eq_ok.2 hv]
  simp only [bind, Except.bind]
  split
  · exact ⟨_, rfl⟩
  · split
    · exact ⟨_, rfl⟩
    · split
      · exact ⟨_, rfl⟩
      · exact ⟨_, rfl⟩

theorem firstRefusal_total {uses : List Use} (live : ∀ u ∈ uses, u.user ∈ g.values) (value : ValueId) :
    ∃ refusal, g.firstRefusal? value uses = .ok refusal := by
  induction uses with
  | nil => exact ⟨none, rfl⟩
  | cons u uses ih =>
    obtain ⟨first, hf⟩ := slotRefusal_total (live u (List.mem_cons_self ..)) u.index value
    obtain ⟨rest, hr⟩ := ih fun u' hu => live u' (List.mem_cons_of_mem u hu)
    simp only [firstRefusal?, bind_eq_ok]
    cases first with
    | none => exact ⟨rest, none, hf, hr⟩
    | some reason => exact ⟨some reason, some reason, hf, rfl⟩

theorem writeOperand_total (wf : g.WellFormed) {user old new : ValueId} {index : Nat}
    (held : g.slot ⟨user, index⟩ = some old) (ne : old ≠ new) (live : new ∈ g.values)
    (accepted : g.slotRefusal? user index new = .ok none) :
    ∃ g', g.writeOperand user index new = .ok (old, g') := by
  obtain ⟨v, hv, ho⟩ := slot_eq_some.1 held
  obtain ⟨v', hv', -, accepts⟩ := slotRefusal_eq_none.1 accepted
  rw [hv] at hv'
  cases hv'
  simp only [writeOperand_eq_ok]
  cases hs : edgeSource? v index with
  | none => exact ⟨_, v, hv, ho, .inr ⟨ne, wf.useDef.live held, live, by rw [hs]⟩⟩
  | some src =>
    have leaves : g.source ⟨user, index⟩ = some src := by
      rw [source, hv]
      exact hs
    obtain ⟨e, he, ⟨-, isTarget⟩, -⟩ := source_eq_some.1 leaves
    rw [hv] at he
    cases he
    obtain ⟨srcLive, oldLive⟩ := wf.records.mem_blocks ⟨⟨user, index⟩, leaves, held⟩
    obtain ⟨g₁, hu⟩ := unlinkUnused_total (wf.shaped.rewired ⟨user, index⟩ old new)
      (wf.placed.rewired ⟨user, index⟩ old new) srcLive oldLive none
    obtain ⟨gone, -, hg⟩ := unlinkUnused_ok hu
    have same : ∀ x, x ∈ g₁.blocks ↔ x ∈ g.blocks := by
      intro x
      rw [hg]
      exact mem_mapBlocks _ x
    obtain ⟨g₂, hl⟩ := link_total ((same src).2 srcLive) ((same new).2 (accepts.block isTarget))
    exact ⟨g₂, v, hv, ho, .inr ⟨ne, wf.useDef.live held, live, by rw [hs]; exact ⟨g₁, hu, hl⟩⟩⟩

/-- Any write to a slot that accepts the value. -/
theorem setOperand_total (wf : g.WellFormed) {user value : ValueId} (live : value ∈ g.values)
    (userLive : user ∈ g.values) (index : Nat) : ∃ r, g.setOperand user index value = .ok r := by
  obtain ⟨refusal, hr⟩ := slotRefusal_total userLive index value
  refine ok_bind ((require_eq_ok (u := ())).2 live) (ok_bind hr ?_)
  cases refusal with
  | some reason => exact ⟨_, rfl⟩
  | none =>
    obtain ⟨v, hv, range, -⟩ := slotRefusal_eq_none.1 hr
    have held : v.operands[index]? = some (v.operands[index]) := List.getElem?_eq_getElem range
    by_cases same : v.operands[index] = value
    · exact ok_bind (writeOperand_eq_ok.2 ⟨v, hv, held, .inl ⟨same, rfl⟩⟩) ⟨_, rfl⟩
    · obtain ⟨g', run⟩ := writeOperand_total wf (slot_eq_some.2 ⟨v, hv, held⟩) same live hr
      exact ok_bind run ⟨_, rfl⟩

/-! ## Placing and detaching -/

theorem checkSpot_ok {spot : Option BlockId} (known : ∀ b ∈ spot, b ∈ g.blocks) :
    g.checkSpot spot = .ok () := by
  cases spot with
  | none => rfl
  | some b => exact if_pos (known b rfl)

theorem splitPhis_total {insts : List ValueId} (live : ∀ inst ∈ insts, inst ∈ g.values) :
    ∃ r, g.splitPhis insts = .ok r := by
  induction insts with
  | nil => exact ⟨_, rfl⟩
  | cons inst insts ih =>
    obtain ⟨v, hv⟩ := Table.getElem?_of_mem (live inst (List.mem_cons_self ..))
    obtain ⟨split, rest⟩ := ih fun x hx => live x (List.mem_cons_of_mem inst hx)
    refine ok_bind (value_eq_ok.2 hv) ?_
    split
    · exact ok_bind rest ⟨_, rfl⟩
    · exact ⟨_, rfl⟩

theorem insertInst_total {insts : List ValueId} (live : ∀ inst ∈ insts, inst ∈ g.values)
    (inst : ValueId) (isPhi : Bool) : ∃ r, g.insertInst inst isPhi insts = .ok r := by
  unfold insertInst
  split
  · obtain ⟨split, run⟩ := splitPhis_total live
    exact ok_bind run ⟨_, rfl⟩
  · exact ⟨_, rfl⟩

theorem place_total (placed : g.Placed) {inst : ValueId} {block : BlockId} {v : Value}
    {targets : List BlockId} (entry : g.values[inst]? = some v) (spot : block ∈ g.blocks)
    (branch : targetsOf v = .ok targets) (live : ∀ t ∈ targets, t ∈ g.blocks) :
    ∃ r, g.place inst block = .ok r := by
  obtain ⟨b, hb⟩ := Table.getElem?_of_mem spot
  obtain ⟨⟨fits, insts⟩, hi⟩ := insertInst_total (placed.insts_live hb) inst (v.kind = .phi)
  refine ok_bind (value_eq_ok.2 entry) (ok_bind branch (ok_bind (block_eq_ok.2 hb) (ok_bind hi ?_)))
  refine ok_bind (updateBlock_eq_ok.2 ⟨spot, rfl⟩) ?_
  cases fits with
  | false => exact ⟨_, rfl⟩
  | true =>
    refine ok_bind (updateValue_eq_ok.2 ⟨Table.mem_of_getElem? entry, rfl⟩) ?_
    refine ok_bind (linkAll_eq_ok.2 ⟨fun t ht => ?_, rfl⟩) ⟨_, rfl⟩
    exact ⟨by simpa using live t ht, by simpa using spot⟩

theorem foldlM_unlinkUnused_total (shaped : g.Shaped) (placed : g.Placed) {src : BlockId}
    (srcLive : src ∈ g.blocks) {targets : List BlockId} (live : ∀ t ∈ targets, t ∈ g.blocks)
    (except : Option ValueId) :
    ∃ g', targets.foldlM (fun g dst => g.unlinkUnused src dst except) g = .ok g' := by
  induction targets generalizing g with
  | nil => exact ⟨g, rfl⟩
  | cons t targets ih =>
    obtain ⟨g₁, first⟩ := unlinkUnused_total shaped placed srcLive (live t (List.mem_cons_self ..)) except
    obtain ⟨gone, -, rfl⟩ := unlinkUnused_ok first
    have placed₁ := placed.of_samePlaces (samePlaces_mapBlocks (f := Block.unlinked src gone) fun _ _ => rfl)
    rw [List.foldlM_cons]
    refine ok_bind first (ih shaped placed₁ ((mem_mapBlocks _ src).2 srcLive) fun s hs => ?_)
    exact (mem_mapBlocks _ s).2 (live s (List.mem_cons_of_mem t hs))

/-- The targets of an attached branch are blocks, since its edges are recorded. -/
theorem WellFormed.target_live (wf : g.WellFormed) {inst : ValueId} {block t : BlockId} {v : Value}
    (entry : g.values[inst]? = some v) (attached : v.parent = some block) (target : v.HasTarget t) :
    t ∈ g.blocks := by
  obtain ⟨branch, i, isTarget, held⟩ := (hasTarget_iff_slot wf.shaped entry).1 target
  have leaves : g.source ⟨inst, i⟩ = some block :=
    source_eq_some.2 ⟨v, entry, ⟨branch, isTarget⟩, attached⟩
  exact (wf.records.mem_blocks ⟨⟨inst, i⟩, leaves, held⟩).2

theorem detach_total (wf : g.WellFormed) {inst : ValueId} {block : BlockId} {v : Value}
    (entry : g.values[inst]? = some v) (attached : v.parent = some block) :
    ∃ r, g.detach inst = .ok r := by
  have listed := (wf.placed.filed.iff inst block).1 (parentOf_eq_some.2 ⟨v, entry, attached⟩)
  obtain ⟨b, hb, -⟩ := mem_instsOf.1 listed
  have spot := Table.mem_of_getElem? hb
  obtain ⟨targets, branch⟩ := targetsOf_total (wf.shaped inst v entry)
  obtain ⟨g₁, unlinked⟩ := foldlM_unlinkUnused_total wf.shaped wf.placed spot
    (fun t ht => wf.target_live entry attached ((mem_of_targetsOf branch t).1 ht)) (some inst)
  obtain ⟨gone, -, rfl⟩ := foldlM_unlinkUnused_ok unlinked
  refine ok_bind (value_eq_ok.2 entry) ?_
  split
  · exact ⟨_, rfl⟩
  · rw [attached]
    refine ok_bind branch (ok_bind unlinked ?_)
    refine ok_bind (updateBlock_eq_ok.2 ⟨by simpa using spot, rfl⟩) ?_
    refine ok_bind (updateValue_eq_ok.2 ⟨?_, rfl⟩) ⟨_, rfl⟩
    simpa using Table.mem_of_getElem? entry

/-! ## Removing values and adding pairs -/

theorem removeValue_total (wf : g.WellFormed) {v : ValueId} {e : Value} (entry : g.values[v]? = some e)
    (noBlock : e.kind ≠ .block) (noFunction : e.kind ≠ .function) : ∃ r, g.removeValue v = .ok r := by
  have live := wf.useDef.operands_live entry
  refine ok_bind (value_eq_ok.2 entry) (ok_bind ((require_eq_ok (u := ())).2 ⟨noBlock, noFunction⟩) ?_)
  split
  · exact ⟨_, rfl⟩
  · rename_i used
    have own : v ∉ e.operands := by
      intro hv
      obtain ⟨i, hi⟩ := List.mem_iff_getElem?.1 hv
      exact (wf.useDef.isEmpty_iff entry).1 (by simpa using used)
        ⟨⟨v, i⟩, slot_eq_some.2 ⟨e, entry, hi⟩⟩
    split
    · exact ok_bind (discard_eq_ok.2 ⟨entry, own, live, rfl⟩) ⟨_, rfl⟩
    · rename_i block attached
      obtain ⟨⟨answer, g₁⟩, left⟩ := detach_total wf entry attached
      refine ok_bind left ?_
      cases answer with
      | error reason => exact ⟨_, rfl⟩
      | ok src =>
        obtain ⟨e', _, gone, entry', -, -, -, -, -, rfl⟩ := detach_ok left
        rw [entry] at entry'
        cases entry'
        have found : (g.displaced v src gone).values[v]? = some { e with parent := none } := by
          simp [displaced, entry, Value.moved]
        refine ok_bind (discard_eq_ok.2 ⟨found, own, fun op hop => ?_, rfl⟩) ⟨_, rfl⟩
        simpa [displaced] using live op hop

theorem addIncoming_total (cat : g.Catalogued) {phi value : ValueId} {block : BlockId} {p : Value}
    (entry : g.values[phi]? = some p) (kind : p.kind = .phi) (blockLive : block ∈ g.blocks)
    (ty : g.tyOf value = some p.ty) : ∃ g', g.addIncoming phi value block = .ok g' := by
  obtain ⟨v, hv, same⟩ := tyOf_eq_some.1 ty
  simp only [addIncoming, bind_eq_ok, value_eq_ok, require_eq_ok, pushOperand_eq_ok]
  refine ⟨_, p, entry, (), kind, (), blockLive, v, hv, (), same, _,
    ⟨p, entry, Table.mem_of_getElem? hv, rfl⟩, _, getElem?_extended_self entry _ value, ?_, rfl⟩
  exact (mem_mapValues _ block).2 (cat.live_block blockLive)

end Graph

theorem Workspace.Built.wellFormed {w : Workspace} (h : w.Built) : w.graph.WellFormed :=
  ⟨h.shaped, h.useDef, h.placed, h.records, h.catalogued⟩

end SsaGraph
