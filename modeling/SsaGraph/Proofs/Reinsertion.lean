import SsaGraph.Proofs.Reattachment
import SsaGraph.Proofs.Relabelling
import SsaGraph.Proofs.Removal

/-!
# Putting a removed value back

A value that is removed and put back comes under a new handle. Where nothing happened in between, all
that changes is the handle: the graph is the old one with the two handles exchanged, of which the new
one stands nowhere in the old graph. `Graph.Relabelled` says so of values, and `Program.RelabelledButList`
of programs, up to the place of the value in its list and the order inside lists of predecessors and
successors.

Results:
* `Graph.WellFormed.relabelled`: removing a value and entering it again renames it in every entry;
* `Built.removed_kept`: the entry that was removed waits unchanged until it is put back;
* `Built.reinsert_detached`, `Built.reinsert_attached`: the program after a value is put back at once;
* `reinsertion_renames`: all three for every run.
-/
namespace SsaGraph

/-! ## Renamed entries -/

def Use.relabel (r : ValueId → ValueId) (u : Use) : Use := ⟨r u.user, u.index⟩

/-- The entry with every handle in it renamed. -/
def Value.relabel (r : ValueId → ValueId) (e : Value) : Value :=
  { e with
    operands := e.operands.map r
    parent := e.parent.map r
    uses := .ofList (e.uses.toList.map (Use.relabel r)) Use.cmp }

theorem Value.mem_uses_relabel {r : ValueId → ValueId} {e : Value} {u : Use} :
    u ∈ (e.relabel r).uses ↔ ∃ t ∈ e.uses, t.relabel r = u := by
  simp [relabel, Std.ExtTreeSet.mem_ofList]

theorem map_swap {a b : ValueId} {l : List ValueId} (ha : a ∉ l) (hb : b ∉ l) :
    l.map (Equiv.swap a b) = l := by
  refine (List.map_congr_left fun x hx => ?_).trans (List.map_id l)
  exact Equiv.swap_apply_of_ne_of_ne (ne_of_mem_of_not_mem hx ha) (ne_of_mem_of_not_mem hx hb)

theorem Table.getElem?_swap {α : Type} {table : Table α} {a b : ValueId} (ha : a ∉ table)
    (hb : b ∉ table) (x : ValueId) : table[Equiv.swap a b x]? = table[x]? := by
  have left : table[a]? = none := by simpa using ha
  have right : table[b]? = none := by simpa using hb
  rw [Equiv.swap_apply_def]
  split
  · rename_i hx
    rw [hx, left, right]
  · split
    · rename_i hx
      rw [hx, left, right]
    · rfl

namespace Graph

variable {g g' : Graph} {v : ValueId} {e : Value}

/-- The entry of every value is under its renamed handle, and renamed as well. -/
def Relabelled (g : Graph) (σ : Equiv.Perm ValueId) (g' : Graph) : Prop :=
  ∀ x, g'.values[σ x]? = g.values[x]?.map (Value.relabel σ)

section Relabelled

variable {σ : Equiv.Perm ValueId} (h : g.Relabelled σ g')

include h

theorem Relabelled.kindOf (x : ValueId) : g'.kindOf (σ x) = g.kindOf x := by
  rw [Graph.kindOf, h x, Graph.kindOf, Option.map_map]
  rfl

theorem Relabelled.slot (u : Use) : g'.slot (u.relabel σ) = (g.slot u).map σ := by
  simp only [Graph.slot, Use.relabel, h u.user]
  cases g.values[u.user]? with
  | none => rfl
  | some e => simp [Value.relabel]

theorem Relabelled.source (u : Use) : g'.source (u.relabel σ) = (g.source u).map σ := by
  simp only [Graph.source, Use.relabel, h u.user]
  cases g.values[u.user]? with
  | none => rfl
  | some e =>
    have slots : (e.relabel σ).isBlockSlot u.index = e.isBlockSlot u.index := by
      simp [Value.isBlockSlot, Value.relabel]
    show edgeSource? (e.relabel σ) u.index = (edgeSource? e u.index).map σ
    unfold edgeSource?
    rw [slots, apply_ite (Option.map σ)]
    rfl

theorem Relabelled.edge (a b : BlockId) : g'.Edge (σ a) (σ b) ↔ g.Edge a b := by
  refine ⟨fun edge => ?_, fun edge => ?_⟩
  · obtain ⟨⟨user, index⟩, leaves, held⟩ := edge
    have origin : (⟨user, index⟩ : Use) = Use.relabel σ ⟨σ.symm user, index⟩ := by simp [Use.relabel]
    rw [origin, h.source] at leaves
    rw [origin, h.slot] at held
    have inj := Option.map_injective σ.injective
    exact ⟨_, inj leaves, inj held⟩
  · obtain ⟨u, leaves, held⟩ := edge
    refine ⟨u.relabel σ, ?_, ?_⟩
    · rw [h.source, leaves]
      rfl
    · rw [h.slot, held]
      rfl

/-- Edges follow from values, so their lists are renamed too. -/
theorem Relabelled.edges_perm (records : g.Records g.Edge) (records' : g'.Records g'.Edge) (a : BlockId) :
    (g'.succsOf (σ a)).Perm ((g.succsOf a).map σ) ∧ (g'.predsOf (σ a)).Perm ((g.predsOf a).map σ) := by
  have member : ∀ {l : List BlockId} {b : BlockId}, b ∈ l.map σ ↔ σ.symm b ∈ l := by
    intro l b
    rw [List.mem_map]
    refine ⟨?_, fun hb => ⟨_, hb, σ.apply_symm_apply b⟩⟩
    rintro ⟨c, hc, rfl⟩
    rwa [σ.symm_apply_apply]
  obtain ⟨succs, preds⟩ := records.nodup a
  obtain ⟨succs', preds'⟩ := records'.nodup (σ a)
  refine ⟨(List.perm_ext_iff_of_nodup succs' (succs.map σ.injective)).2 fun b => ?_,
    (List.perm_ext_iff_of_nodup preds' (preds.map σ.injective)).2 fun b => ?_⟩
  · rw [member, records.succs, records'.succs, ← h.edge, σ.apply_symm_apply]
  · rw [member, records.preds, records'.preds, ← h.edge, σ.apply_symm_apply]

end Relabelled

theorem listedWith_relabel {σ : Equiv.Perm ValueId} (kinds : ∀ x, g'.kindOf (σ x) = g.kindOf x)
    (inst : ValueId) (insts : List ValueId) :
    g'.listedWith (σ inst) (insts.map σ) = (g.listedWith inst insts).map σ := by
  unfold listedWith
  rw [kinds]
  split
  · simp [List.filter_map, Function.comp_def, kinds]
  · simp

/-! ## Removed and entered again -/

section Entered

variable (wf : g.WellFormed) (num : g.Numbered) (free : g.Free v e)

include wf free

theorem WellFormed.free_not_block : v ∉ g.blocks := by
  rw [wf.catalogued.block, kindOf, free.entry]
  simpa using free.noBlock

theorem WellFormed.free_not_function : v ∉ g.functions := by
  rw [wf.catalogued.function, kindOf, free.entry]
  simpa using free.noFunction

/-- Everything the entry needs is still there after the removal. -/
theorem WellFormed.operands_live_removal : ∀ op ∈ e.operands, op ∈ (g.removal v).values := by
  intro op hop
  obtain ⟨i, held⟩ := List.mem_iff_getElem?.1 hop
  have ne : op ≠ v := by
    rintro rfl
    exact holders_eq_nil.1 free.unheld ⟨op, i⟩ (slot_eq_some.2 ⟨e, free.entry, held⟩)
  obtain ⟨e', entry⟩ := Table.getElem?_of_mem (wf.useDef.operands_live free.entry op hop)
  have kept : (g.removal v).values[op]? = some { e' with uses := e'.uses.filter (·.user ≠ v) } := by
    rw [getElem?_removal_of_ne ne, entry]
    rfl
  exact Table.mem_of_getElem? kept

include num

/-- The uses that are left and those of the new handle are the old ones renamed. -/
theorem WellFormed.uses_relabel {x : ValueId} {e' : Value} (entry' : g.values[x]? = some e') :
    (e'.relabel (Equiv.swap v g.next)).uses =
      e'.uses.filter (·.user ≠ v) ∪ slotsOf g.next e.operands x := by
  have slots : ∀ u, u ∈ e'.uses ↔ g.slot u = some x := by
    intro u
    rw [← wf.useDef, mem_usesOf]
    simp [entry']
  have own : ∀ i, ⟨v, i⟩ ∈ e'.uses ↔ e.operands[i]? = some x := by
    intro i
    rw [slots, slot, free.entry]
    rfl
  have old : ∀ u ∈ e'.uses, u.user ≠ g.next := fun u hu =>
    Nat.ne_of_lt (num.values _ (live_of_slot ((slots u).1 hu)))
  refine Std.ExtTreeSet.ext_mem fun u => ?_
  rw [Value.mem_uses_relabel, Std.ExtTreeSet.mem_union_iff, mem_slotsOf]
  simp only [Std.ExtTreeSet.mem_filter, Std.ExtTreeSet.get_eq, decide_eq_true_eq, exists_prop]
  refine ⟨fun h => ?_, fun h => ?_⟩
  · obtain ⟨t, ht, rfl⟩ := h
    by_cases user : t.user = v
    · right
      rw [← own]
      refine ⟨by simp [Use.relabel, user], ?_⟩
      rwa [← user]
    · left
      have same : t.relabel (Equiv.swap v g.next) = t := by
        rw [Use.relabel, Equiv.swap_apply_of_ne_of_ne user (old t ht)]
      rw [same]
      exact ⟨ht, user⟩
  · rcases h with ⟨hu, user⟩ | ⟨user, held⟩
    · refine ⟨u, hu, ?_⟩
      rw [Use.relabel, Equiv.swap_apply_of_ne_of_ne user (old u hu)]
    · refine ⟨⟨v, u.index⟩, (own _).2 held, ?_⟩
      rw [Use.relabel, Equiv.swap_apply_left, ← user]

/-- Of an entry only its uses change: nothing holds the old handle, and it is no block. -/
theorem WellFormed.relabel_eq {x : ValueId} {e' : Value} (entry' : g.values[x]? = some e') :
    e'.relabel (Equiv.swap v g.next) =
      { e' with uses := (e'.relabel (Equiv.swap v g.next)).uses } := by
  have operands : e'.operands.map (Equiv.swap v g.next) = e'.operands := by
    refine map_swap (fun hv => ?_) fun hn => ?_
    · obtain ⟨i, held⟩ := List.mem_iff_getElem?.1 hv
      exact holders_eq_nil.1 free.unheld ⟨x, i⟩ (slot_eq_some.2 ⟨e', entry', held⟩)
    · exact num.next_not_mem (wf.useDef.operands_live entry' _ hn)
  have parent : e'.parent.map (Equiv.swap v g.next) = e'.parent := by
    cases attached : e'.parent with
    | none => rfl
    | some b =>
      have live := wf.placed.block_of_parent (parentOf_eq_some.2 ⟨e', entry', attached⟩)
      rw [Option.map_some, Equiv.swap_apply_of_ne_of_ne]
      · exact ne_of_mem_of_not_mem live (wf.free_not_block free)
      · exact Nat.ne_of_lt (num.blocks b live)
  simp [Value.relabel, operands, parent]

/-- Once the new entry has the parent of the old one, removing and entering is renaming. -/
theorem WellFormed.relabelled : g.Relabelled (Equiv.swap v g.next)
    (((g.removal v).entered e.released).mapValues (Value.moved g.next e.parent)) := by
  have old : v ≠ g.next := Nat.ne_of_lt (num.values v (Table.mem_of_getElem? free.entry))
  intro x
  rw [getElem?_mapValues]
  by_cases own : x = v
  · subst own
    have new : ((g.removal x).entered e.released).values[g.next]? = some e.released :=
      getElem?_entered_self (g := g.removal x) e.released
    have unused : (e.relabel (Equiv.swap x g.next)).uses = ∅ := by
      refine Std.ExtTreeSet.ext_mem fun u => ?_
      simp [Value.mem_uses_relabel, wf.useDef.uses_eq_empty free.entry free.unheld]
    rw [Equiv.swap_apply_left, new, free.entry, Option.map_some, Option.map_some,
      wf.relabel_eq num free free.entry, unused]
    simp [Value.moved, Value.released]
  · have others : ∀ {y : ValueId}, y ≠ g.next → ((g.removal v).entered e.released).values[y]? =
        (g.removal v).values[y]?.map fun e' =>
          { e' with uses := e'.uses ∪ slotsOf g.next e.operands y } :=
      fun hy => getElem?_entered_of_ne (g := g.removal v) hy
    by_cases fresh : x = g.next
    · rw [fresh, Equiv.swap_apply_right, others old, getElem?_removal_self, num.values_next]
      rfl
    · rw [Equiv.swap_apply_of_ne_of_ne own fresh, others fresh, getElem?_removal_of_ne own,
        Option.map_map, Option.map_map]
      refine Option.map_congr fun e' entry' => ?_
      rw [wf.relabel_eq num free entry', wf.uses_relabel num free entry']
      simp [Value.moved, fresh]

end Entered

theorem mem_removal (b : BlockId) : b ∈ (g.removal v).blocks ↔ b ∈ g.blocks :=
  Std.ExtTreeMap.mem_map

theorem funcOf_removal (b : BlockId) : (g.removal v).funcOf b = g.funcOf b := by
  refine (funcOf_mapBlocks ?_ b).trans rfl
  exact fun _ _ => rfl

theorem instsOf_removal (b : BlockId) : (g.removal v).instsOf b =
    if g.parentOf v = some b then (g.instsOf b).filter (· ≠ v) else g.instsOf b :=
  list_mapBlocks Block.insts (fun x l => if g.parentOf v = some x then l.filter (· ≠ v) else l)
    (fun _ _ => rfl) fun _ => by simp

theorem mapValues_moved_self {inst : ValueId} (found : g.values[inst]? = some e) :
    g.mapValues (Value.moved inst e.parent) = g := by
  refine congrArg (fun values => { g with values }) (Table.map_id _ fun x e' entry => ?_)
  by_cases hx : x = inst
  · rw [hx, found] at entry
    cases entry
    simp [Value.moved, hx]
  · simp [Value.moved, hx]

/-- What is inserted gets the next handle and keeps its entry, up to its place. -/
theorem insert_entry {spot : Option BlockId} {id : ValueId} (detached : e.parent = none)
    (h : g.insert e spot = .ok (id, g')) : id = g.next ∧ g'.values[g.next]? =
      some { e with parent := if e.kind.isInst = true then spot else none } := by
  have own := getElem?_entered_self (g := g) e
  simp only [insert, bind_eq_ok, Prod.exists, create_eq_ok] at h
  obtain ⟨_, _, ⟨-, -, rfl, rfl⟩, h⟩ := h
  have unplaced : e = { e with parent := none } := by rw [← detached]
  cases spot with
  | none =>
    simp only [pure_eq_ok, Prod.mk.injEq] at h
    obtain ⟨rfl, rfl⟩ := h
    rw [ite_self, ← unplaced]
    exact ⟨rfl, own⟩
  | some block =>
    dsimp only at h
    split at h
    · rename_i kind
      simp only [bind_eq_ok, Prod.exists] at h
      obtain ⟨answer, g₁, place, h⟩ := h
      cases answer with
      | error => cases h
      | ok =>
        simp only [pure_eq_ok, Prod.mk.injEq] at h
        obtain ⟨rfl, rfl⟩ := h
        obtain ⟨_, _, targets, _, _, -, -, -, -, -, -, -, rfl⟩ := place_ok place
        refine ⟨rfl, ?_⟩
        rw [placed, values_mapBlocks, getElem?_mapValues, own]
        simp [Value.moved, kind]
    · rename_i other
      simp only [pure_eq_ok, Prod.mk.injEq] at h
      obtain ⟨rfl, rfl⟩ := h
      rw [if_neg other, ← unplaced]
      exact ⟨rfl, own⟩

end Graph

/-! ## Programs -/

/-- `q` is `p` with renamed handles, but for one block, whose instructions are `insts` renamed, and up to
the order inside lists of predecessors and successors. -/
structure Program.RelabelledButList (p : Program) (σ : Equiv.Perm ValueId) (block : BlockId)
    (insts : List ValueId) (q : Program) : Prop where
  name : q.name = p.name
  functions : q.functions = p.functions.map σ
  globals : q.globals = p.globals.map σ
  values : p.graph.Relabelled σ q.graph
  bodies : ∀ f, q.graph.functions[σ f]? = p.graph.functions[f]?.map (Func.relabel σ)
  owners : ∀ b, q.graph.funcOf (σ b) = (p.graph.funcOf b).map σ
  lists : ∀ b, q.graph.instsOf (σ b) = (if b = block then insts else p.graph.instsOf b).map σ
  succs : ∀ a, (q.graph.succsOf (σ a)).Perm ((p.graph.succsOf a).map σ)
  preds : ∀ b, (q.graph.predsOf (σ b)).Perm ((p.graph.predsOf b).map σ)

namespace Workspace

variable {w w₁ : Workspace} {v : ValueId} {e : Value} {block : BlockId}

/-- The workspace without the value, whose entry is kept. -/
def releasing (w : Workspace) (v : ValueId) (e : Value) : Workspace :=
  { w.withGraph (w.graph.removal v) with removed := w.removed.insert v e.released }

theorem Built.apply_removeValue (built : w.Built) (free : w.graph.Free v e) :
    w.apply (.removeValue v) = .ok (.ok (.removed e.released), w.releasing v e) := by
  rw [apply_removeValue_eq, built.wellFormed.removeValue_eq free.entry free.noBlock free.noFunction,
    if_pos free.unheld]
  rfl

theorem Built.releasing_of_apply (built : w.Built) {reply : Reply}
    (run : w.apply (.removeValue v) = .ok (.ok reply, w₁)) :
    ∃ e, w.graph.Free v e ∧ reply = .removed e.released ∧ w₁ = w.releasing v e := by
  rw [apply_removeValue_eq] at run
  cases result : w.graph.removeValue v with
  | error fault =>
    rw [result] at run
    cases run
  | ok r =>
    obtain ⟨answer, g⟩ := r
    rw [result] at run
    cases answer with
    | error reason => cases run
    | ok data =>
      cases run
      obtain ⟨e, free, rfl, rfl⟩ := built.wellFormed.removal_of_ok result
      exact ⟨e, free, rfl, rfl⟩

/-- The workspace with the value put back without a place. -/
def returning (w : Workspace) (v : ValueId) (e : Value) : Workspace :=
  { w.withGraph ((w.graph.removal v).entered e.released) with
    removed := (w.removed.insert v e.released).erase v }

theorem apply_reinsert_none {w : Workspace} (found : w.removed[v]? = some e)
    (live : ∀ op ∈ e.operands, op ∈ w.graph.values) (room : w.graph.next + 1 < Graph.handleLimit) :
    w.apply (.reinsert v none) = .ok (.ok (.handle w.graph.next),
      { w.withGraph (w.graph.entered e) with removed := w.removed.erase v }) := by
  rw [apply_reinsert_eq found (by simp), Graph.insert_none, Graph.create_eq_ok.2 ⟨room, live, rfl, rfl⟩]
  rfl

theorem Built.reinsert_released (built : w.Built) (free : w.graph.Free v e)
    (room : w.graph.next + 1 < Graph.handleLimit) :
    (w.releasing v e).apply (.reinsert v none) =
      .ok (.ok (.handle w.graph.next), w.returning v e) := by
  have found : (w.releasing v e).removed[v]? = some e.released := by simp [releasing]
  have live := built.wellFormed.operands_live_removal free
  exact apply_reinsert_none found live room

/-- A detached value changes its handle and nothing else. -/
theorem Built.reinsert_detached (built : w.Built) (free : w.graph.Free v e) (detached : e.parent = none) :
    w.graph.Relabelled (Equiv.swap v w.graph.next) (w.returning v e).graph ∧
      (w.returning v e).program = { w.program with
        graph := { w.graph with values := (w.returning v e).graph.values, next := w.graph.next + 1 } } := by
  have wf := built.wellFormed
  refine ⟨?_, ?_⟩
  · have relabelled := wf.relabelled built.numbered free
    have own : ((w.graph.removal v).entered e.released).values[w.graph.next]? = some e.released :=
      Graph.getElem?_entered_self (g := w.graph.removal v) e.released
    have placed : ((w.graph.removal v).entered e.released).mapValues
        (Value.moved w.graph.next none) = (w.graph.removal v).entered e.released :=
      Graph.mapValues_moved_self own
    rwa [detached, placed] at relabelled
  · have blocks : (w.graph.removal v).blocks = w.graph.blocks := by
      rw [← wf.useDef.removal_of_detached free.entry detached]
      rfl
    exact congrArg (fun blocks => { w.program with graph := { w.graph with
      values := (w.returning v e).graph.values, blocks, next := w.graph.next + 1 } }) blocks

theorem Built.next_not_occurs (built : w.Built) : ¬w.Occurs w.graph.next := fun occurs =>
  Nat.lt_irrefl _ (built.occurs_lt occurs)

/-- An instruction that nothing holds is in no layout and no function, and neither is the next handle. -/
theorem Built.layouts_relabel (built : w.Built) (free : w.graph.Free v e) (kind : e.kind.isInst = true) :
    w.program.functions.map (Equiv.swap v w.graph.next) = w.program.functions ∧
      w.program.globals.map (Equiv.swap v w.graph.next) = w.program.globals ∧
        ∀ (f : FuncId) (func : Func), w.graph.functions[f]? = some func →
          func.relabel (Equiv.swap v w.graph.next) = func := by
  have wf := built.wellFormed
  have fresh := built.next_not_occurs
  refine ⟨map_swap (fun hv => ?_) fun hn => fresh (.layout (.inl hn)),
    map_swap (fun hv => ?_) fun hn => fresh (.layout (.inr hn)), fun f func found => ?_⟩
  · exact wf.free_not_function free ((built.laidOut.mem v).1 hv)
  · obtain ⟨isConst, isGlobal⟩ := (built.globals v hv).2 e free.entry
    rw [isGlobal] at kind
    cases kind
  · have params : func.params.map (Equiv.swap v w.graph.next) = func.params := by
      refine map_swap (fun hv => ?_) fun hn => fresh (.inFunction found (.inl hn))
      obtain ⟨index, isParam⟩ := (built.params f func found v hv).2 e free.entry
      rw [isParam] at kind
      cases kind
    have blocks : func.blocks.map (Equiv.swap v w.graph.next) = func.blocks := by
      refine map_swap (fun hv => ?_) fun hn => fresh (.inFunction found (.inr hn))
      have owner := (built.owned.filed.iff v f).2 (Graph.mem_blocksOf.2 ⟨func, found, hv⟩)
      obtain ⟨block, entry, -⟩ := Graph.funcOf_eq_some.1 owner
      exact wf.free_not_block free (Table.mem_of_getElem? entry)
    rw [Func.relabel, params, blocks]

theorem Built.funcOf_relabel (built : w.Built) (free : w.graph.Free v e) (b : BlockId) :
    (w.graph.funcOf b).map (Equiv.swap v w.graph.next) = w.graph.funcOf b := by
  cases owner : w.graph.funcOf b with
  | none => rfl
  | some f =>
    obtain ⟨func, found, -⟩ := Graph.mem_blocksOf.1 ((built.owned.filed.iff b f).1 owner)
    have live := Table.mem_of_getElem? found
    rw [Option.map_some, Equiv.swap_apply_of_ne_of_ne]
    · exact ne_of_mem_of_not_mem live (built.wellFormed.free_not_function free)
    · exact Nat.ne_of_lt (built.numbered.functions f live)

/-- No list but that of its block has the value. -/
theorem Built.instsOf_relabel (built : w.Built) {b : BlockId} (elsewhere : w.graph.parentOf v ≠ some b) :
    (w.graph.instsOf b).map (Equiv.swap v w.graph.next) = w.graph.instsOf b := by
  have filed := built.placed.filed
  refine map_swap (fun hv => elsewhere ((filed.iff v b).2 hv)) fun hn => ?_
  obtain ⟨e, entry, -⟩ := Graph.parentOf_eq_some.1 ((filed.iff _ b).2 hn)
  exact built.numbered.next_not_mem (Table.mem_of_getElem? entry)

/-- Renamed values, with nothing else changed but one list and the order of edges, make a renamed
program: the handle of an instruction that nothing holds stands nowhere else. -/
theorem Built.relabelledButList (built : w.Built) (free : w.graph.Free v e)
    (kind : e.kind.isInst = true) (live : block ∈ w.graph.blocks) {g' : Graph} {insts : List ValueId}
    (values : w.graph.Relabelled (Equiv.swap v w.graph.next) g') (records : g'.Records g'.Edge)
    (functions : g'.functions = w.graph.functions) (owners : ∀ b, g'.funcOf b = w.graph.funcOf b)
    (lists : ∀ b, g'.instsOf b =
      (if b = block then insts else w.graph.instsOf b).map (Equiv.swap v w.graph.next)) :
    w.program.RelabelledButList (Equiv.swap v w.graph.next) block insts
      { w.program with graph := g' } := by
  have wf := built.wellFormed
  have num := built.numbered
  obtain ⟨order, globals, bodies⟩ := built.layouts_relabel free kind
  -- neither handle is a block or a function, so that these keep theirs
  have blockKeys : ∀ b, w.graph.blocks[Equiv.swap v w.graph.next b]? = w.graph.blocks[b]? :=
    Table.getElem?_swap (wf.free_not_block free) fun hn => Nat.lt_irrefl _ (num.blocks _ hn)
  have functionKeys : ∀ f, w.graph.functions[Equiv.swap v w.graph.next f]? = w.graph.functions[f]? :=
    Table.getElem?_swap (wf.free_not_function free) fun hn => Nat.lt_irrefl _ (num.functions _ hn)
  have kept : Equiv.swap v w.graph.next block = block :=
    Equiv.swap_apply_of_ne_of_ne (ne_of_mem_of_not_mem live (wf.free_not_block free))
      (Nat.ne_of_lt (num.blocks block live))
  have edges := values.edges_perm wf.records records
  refine ⟨rfl, order.symm, globals.symm, values, fun f => ?_, fun b => ?_, fun b => ?_,
    fun a => (edges a).1, fun b => (edges b).2⟩
  · show g'.functions[Equiv.swap v w.graph.next f]? = w.graph.functions[f]?.map _
    rw [functions, functionKeys]
    cases found : w.graph.functions[f]? with
    | none => rfl
    | some func => rw [Option.map_some, bodies f func found]
  · show g'.funcOf (Equiv.swap v w.graph.next b) = (w.graph.funcOf b).map _
    rw [owners, built.funcOf_relabel free, Graph.funcOf, blockKeys]
    rfl
  · show g'.instsOf (Equiv.swap v w.graph.next b) = (if b = block then insts else w.graph.instsOf b).map _
    have same : w.graph.instsOf (Equiv.swap v w.graph.next b) = w.graph.instsOf b := by
      rw [Graph.instsOf, blockKeys]
      rfl
    have own : Equiv.swap v w.graph.next b = block ↔ b = block := by
      refine ⟨fun heq => (Equiv.swap v w.graph.next).injective (heq.trans kept.symm), ?_⟩
      rintro rfl
      exact kept
    rw [lists, same]
    simp only [own]

/-- The list of the block once the value is attached again, under the new handle. -/
theorem Built.listedWith_returning (built : w.Built) (free : w.graph.Free v e)
    (attached : e.parent = some block) :
    (w.returning v e).graph.listedWith w.graph.next ((w.returning v e).graph.instsOf block) =
      (w.graph.listedWith v ((w.graph.instsOf block).filter (· ≠ v))).map
        (Equiv.swap v w.graph.next) := by
  have parent : w.graph.parentOf v = some block := Graph.parentOf_eq_some.2 ⟨e, free.entry, attached⟩
  have kinds : ∀ x, (w.returning v e).graph.kindOf (Equiv.swap v w.graph.next x) = w.graph.kindOf x := by
    have moved : ∀ x, (((w.graph.removal v).entered e.released).mapValues
        (Value.moved w.graph.next e.parent)).kindOf x = (w.returning v e).graph.kindOf x :=
      Graph.kindOf_mapValues fun _ _ => rfl
    intro x
    rw [← moved]
    exact (built.wellFormed.relabelled built.numbered free).kindOf x
  have list : (w.returning v e).graph.instsOf block = (w.graph.instsOf block).filter (· ≠ v) :=
    (Graph.instsOf_removal block).trans (if_pos parent)
  have others : ((w.graph.instsOf block).filter (· ≠ v)).map (Equiv.swap v w.graph.next) =
      (w.graph.instsOf block).filter (· ≠ v) := by
    refine map_swap (by simp) fun hn => ?_
    obtain ⟨b, found, listed⟩ := Graph.mem_instsOf.1 (List.mem_of_mem_filter hn)
    exact built.numbered.next_not_mem (built.placed.insts_live found _ listed)
  rw [← Graph.listedWith_relabel kinds, Equiv.swap_apply_left, others, list]

/-- An attached value changes its handle and moves to the end of its group. -/
theorem Built.reinsert_attached (built : w.Built) (free : w.graph.Free v e)
    (attached : e.parent = some block) (room : w.graph.next + 1 < Graph.handleLimit) :
    ∃ w₃, (w.releasing v e).apply (.reinsert v (some block)) = .ok (.ok (.handle w.graph.next), w₃) ∧
      w.program.RelabelledButList (Equiv.swap v w.graph.next) block
        (w.graph.listedWith v ((w.graph.instsOf block).filter (· ≠ v))) w₃.program := by
  have wf := built.wellFormed
  have parent : w.graph.parentOf v = some block := Graph.parentOf_eq_some.2 ⟨e, free.entry, attached⟩
  have live := wf.placed.block_of_parent parent
  have live₁ : block ∈ (w.returning v e).graph.blocks := (Graph.mem_removal block).2 live
  have kind := wf.placed.isInst_of_parent free.entry attached
  have built₁ := (Step.apply (built.apply_removeValue free)).built built
  have found : (w.releasing v e).removed[v]? = some e.released := by simp [releasing]
  have first := built.reinsert_released free room
  have built₂ := (Step.apply first).built built₁
  have own : (w.returning v e).graph.values[w.graph.next]? = some e.released :=
    Graph.getElem?_entered_self (g := w.graph.removal v) e.released
  obtain ⟨targets, attach⟩ := built₂.wellFormed.attach_detached own kind rfl live₁ fun t target =>
    (Graph.mem_removal t).2 (wf.target_live free.entry attached target)
  rw [built.listedWith_returning free attached] at attach
  have second := apply_attach_eq (w.returning v e) (w.returning v e).graph w.graph.next block
  rw [attach] at second
  have built₃ := (Step.apply second).built built₂
  refine ⟨_, (built₁.reinsert_eq_thenAttach found kind live₁).trans (thenAttach_eq first second), ?_⟩
  have relabelled := wf.relabelled built.numbered free
  rw [attached] at relabelled
  refine built.relabelledButList free kind live relabelled built₃.records rfl (fun b => ?_) fun b => ?_
  · exact (Graph.funcOf_placed _ _ b).trans (Graph.funcOf_removal b)
  · refine (congrFun (Graph.instsOf_placed live₁) b).trans ?_
    split
    · rfl
    · rename_i other
      have elsewhere : w.graph.parentOf v ≠ some b := by
        rw [parent]
        simpa using fun heq => other heq.symm
      rw [built.instsOf_relabel elsewhere]
      exact (Graph.instsOf_removal b).trans (if_neg elsewhere)

/-! ## Every run -/

/-- What is kept under a handle without a value was kept under it before. -/
theorem Built.removed_kept (built : w.Built) (path : Relation.ReflTransGen Change w w₁)
    (old : v < w.graph.next) (dead : v ∉ w.graph.values) (kept : w₁.removed[v]? = some e) :
    w.removed[v]? = some e := by
  induction path with
  | refl => exact kept
  | tail before last ih =>
    rcases last.removed_origin kept with earlier | live
    · exact ih earlier
    · exact absurd ((built.old_live before old).2 (Table.mem_of_getElem? live)) dead

theorem Run.next_not_mem {ids : List ValueId} (run : Run ids w) : w.graph.next ∉ ids := by
  obtain ⟨own, next, -⟩ := run.inOrder
  rw [own, next, List.mem_range'_1]
  omega

/-- What becomes of a value of `w` that `w₁` does not have any more when it is put back. -/
structure Reinsertion (w : Workspace) (v : ValueId) (e : Value) (w₁ : Workspace) : Prop where
  /-- Whatever happens in between, the entry comes back under a handle that was never given out, with
  the type, name, kind and operands it had and without uses. -/
  entry : ∀ w₂ spot answer w₃, w₁.Later w₂ → w₂.apply (.reinsert v spot) = .ok (answer, w₃) →
    answer = .ok (.handle w₂.graph.next) ∧ ¬w₂.Occurs w₂.graph.next ∧
      (∀ ids, Run ids w₂ → w₂.graph.next ∉ ids) ∧ w₃.graph.values[w₂.graph.next]? =
        some { e with parent := if e.kind.isInst = true then spot else none, uses := ∅ }
  /-- It can be put back as long as its operands are there and handles are left. -/
  possible : ∀ w₂, w₁.Later w₂ → v ∈ w₂.removed → (∀ op ∈ e.operands, op ∈ w₂.graph.values) →
    w₂.graph.next + 1 < Graph.handleLimit →
      ∃ w₃, w₂.apply (.reinsert v none) = .ok (.ok (.handle w₂.graph.next), w₃)
  /-- At once and without a place, it is renamed. -/
  detached : e.parent = none → w.graph.next + 1 < Graph.handleLimit → ∃ w₃,
    w₁.apply (.reinsert v none) = .ok (.ok (.handle w.graph.next), w₃) ∧
      w.graph.Relabelled (Equiv.swap v w.graph.next) w₃.graph ∧ w₃.program =
        { w.program with graph :=
          { w.graph with values := w₃.graph.values, next := w.graph.next + 1 } }
  /-- At once and in its block, it is renamed and moves to the end of its group. -/
  attached : ∀ block, e.parent = some block → w.graph.next + 1 < Graph.handleLimit → ∃ w₃,
    w₁.apply (.reinsert v (some block)) = .ok (.ok (.handle w.graph.next), w₃) ∧
      w.program.RelabelledButList (Equiv.swap v w.graph.next) block
        (w.graph.listedWith v ((w.graph.instsOf block).filter (· ≠ v))) w₃.program

/-- After every run, a value that is removed and put back has the entry it had, under a new handle. If
nothing happened in between, the program is the one before with the value renamed: a detached value
leaves all tables but that of values as they are, and one that goes back into its block ends up behind
the rest of its group there, with the edges in some order. -/
theorem reinsertion_renames (h : w.Reachable) {reply : Reply}
    (removal : w.apply (.removeValue v) = .ok (.ok reply, w₁)) :
    ∃ e, w.graph.values[v]? = some e ∧ reply = .removed e.released ∧ w.Reinsertion v e w₁ := by
  have built := h.built
  have built₁ := (Step.apply removal).built built
  obtain ⟨e, free, rfl, rfl⟩ := built.releasing_of_apply removal
  have old : v < w.graph.next := built.numbered.values v (Table.mem_of_getElem? free.entry)
  have dead : v ∉ (w.releasing v e).graph.values := (Step.apply removal).dead_of_removed (.inl rfl)
  have waits : ∀ {w₂ entry}, (w.releasing v e).Later w₂ → w₂.removed[v]? = some entry →
      entry = e.released := by
    intro w₂ entry later kept
    have before := built₁.removed_kept (later.changes built₁) old dead kept
    simpa [releasing, eq_comm] using before
  refine ⟨e, free.entry, rfl, ?_, ?_, ?_, ?_⟩
  · intro w₂ spot answer w₃ later run
    simp only [apply, Graph.reinsert, removedEntry, bind_eq_ok, pure_eq_ok, Table.fetch_eq_ok,
      Prod.exists, Prod.mk.injEq] at run
    obtain ⟨entry, found, id, g₃, ⟨-, -, inserted⟩, rfl, rfl⟩ := run
    obtain rfl := waits later found
    obtain ⟨rfl, value⟩ := Graph.insert_entry rfl inserted
    have built₂ := built₁.changes (later.changes built₁)
    exact ⟨rfl, built₂.next_not_occurs, fun ids run => run.next_not_mem, value⟩
  · intro w₂ later kept live room
    obtain ⟨entry, found⟩ := Table.getElem?_of_mem kept
    obtain rfl := waits later found
    exact ⟨_, apply_reinsert_none found live room⟩
  · intro detached room
    obtain ⟨relabelled, same⟩ := built.reinsert_detached free detached
    exact ⟨_, built.reinsert_released free room, relabelled, same⟩
  · intro block attached room
    exact built.reinsert_attached free attached room

/-- The detour with a detached addition of the phi to itself. -/
def doubled : Workspace := detour.perform [.build (.binary .add 7 7) none]

/-- The detached addition becomes 13 instead of 12, also in the use set of the phi, and the branch of the
first block becomes 13 instead of 6 and goes behind the jump. -/
theorem reinsertion_renames_doubled : doubled.Reachable ∧
    (∃ reply w₁ w₃, doubled.apply (.removeValue 12) = .ok (.ok reply, w₁) ∧
      w₁.apply (.reinsert 12 none) = .ok (.ok (.handle 13), w₃) ∧
        doubled.graph.Relabelled (Equiv.swap 12 13) w₃.graph ∧
          doubled.graph.holders 7 = [⟨7, 2⟩, ⟨9, 0⟩, ⟨12, 0⟩, ⟨12, 1⟩] ∧
            (w₃.graph.usesOf 7).toList = [⟨7, 2⟩, ⟨9, 0⟩, ⟨13, 0⟩, ⟨13, 1⟩]) ∧
    ∃ reply w₁ w₃, doubled.apply (.removeValue 6) = .ok (.ok reply, w₁) ∧
      w₁.apply (.reinsert 6 (some 2)) = .ok (.ok (.handle 13), w₃) ∧
        doubled.graph.instsOf 2 = [5, 6, 11] ∧ w₃.graph.instsOf 2 = [5, 11, 13] := by
  have run : doubled.Reachable := (reachable_loop.perform _).perform _
  have next : doubled.graph.next = 13 := by decide +kernel
  have room : doubled.graph.next + 1 < Graph.handleLimit := by
    rw [next]
    decide
  have answered : ∀ (v : ValueId) (reply : Reply),
      (doubled.apply (.removeValue v)).map Prod.fst = .ok (.ok reply) →
        ∃ w₁, doubled.apply (.removeValue v) = .ok (.ok reply, w₁) := by
    intro v reply answer
    obtain ⟨w₁, edit⟩ := Step.of_answer answer
    cases edit with
    | apply run => exact ⟨w₁, run⟩
  obtain ⟨w₁, removal⟩ := answered 12
    (.removed { ty := .i32, kind := .binary .add, operands := [7, 7] }) (by decide +kernel)
  obtain ⟨w₁', removal'⟩ := answered 6
    (.removed { ty := .void, kind := .branch, operands := [5, 3, 3] }) (by decide +kernel)
  obtain ⟨e, entry, -, back⟩ := reinsertion_renames run removal
  obtain ⟨e', entry', -, back'⟩ := reinsertion_renames run removal'
  have detached : e.parent = none := by
    have parent : doubled.graph.parentOf 12 = none := by decide +kernel
    rwa [Graph.parentOf, entry] at parent
  have attached : e'.parent = some 2 := by
    have parent : doubled.graph.parentOf 6 = some 2 := by decide +kernel
    rwa [Graph.parentOf, entry'] at parent
  obtain ⟨w₃, put, relabelled, -⟩ := back.detached detached room
  obtain ⟨w₃', put', renamed⟩ := back'.attached 2 attached room
  rw [next] at put relabelled put' renamed
  refine ⟨run, ⟨_, w₁, w₃, removal, put, relabelled, by decide +kernel, ?_⟩,
    _, w₁', w₃', removal', put', by decide +kernel, ?_⟩
  · have phi : w₃.graph.values[7]? = doubled.graph.values[7]?.map (Value.relabel (Equiv.swap 12 13)) :=
      relabelled 7
    rw [Graph.usesOf, phi]
    decide +kernel
  · exact (renamed.lists 2).trans (by decide +kernel)

end Workspace

end SsaGraph
