import Mathlib.Data.List.Perm.Basic
import SsaGraph.Proofs.Progress

/-!
# Replacing all uses of a value

`replaceUses` writes the slots that hold `old` one after the other, and every write moves uses and
edges. All of it together is one substitution: `Graph.Substituted` says what the graph is afterwards in
terms of the graph before, with no word on the order of the writes.

Results:
* `Built.replaceUses_cases`: the replacement never faults; it is refused without a change or it is the
  substitution, and which of the two depends on the slots only;
* `Graph.Substituted.unique`: the substitution fixes the graph up to the order inside edge lists;
* `replacement_is_substitution`: both after every run and for every order of the slots.
-/
namespace SsaGraph

/-- The slot is a target of a branch or the block of an incoming pair. -/
def Value.HoldsBlock (v : Value) (i : Nat) : Prop :=
  v.kind = .branch ∧ (v.operands.length = 1 ∧ i = 0 ∨ v.operands.length = 3 ∧ (i = 1 ∨ i = 2)) ∨
    v.kind = .phi ∧ i % 2 = 1

/-- What a value keeps when its operands are replaced. -/
def Value.frame (v : Value) : Ty × Kind × Option String × Option BlockId :=
  (v.ty, v.kind, v.name, v.parent)

/-- What a block keeps when its edges move. -/
def Block.frame (b : Block) : FuncId × List ValueId := (b.function, b.insts)

def subst (old new x : ValueId) : ValueId := if x = old then new else x

namespace Graph

variable {g g' g₁ g₂ : Graph} {old new : ValueId}

/-- The value can stand in the slot: blocks where blocks are needed, functions as callees. -/
structure Fits (g : Graph) (u : Use) (x : ValueId) : Prop where
  block : ∀ e, g.values[u.user]? = some e → e.HoldsBlock u.index → x ∈ g.blocks
  callee : ∀ e, g.values[u.user]? = some e → e.kind = .call → u.index = 0 → x ∈ g.functions

/-- `g'` is `g` with `new` in place of `old` in every slot, and otherwise differs from `g` in what
follows from it: the uses of the two values and the edges of the branches. -/
structure Substituted (g : Graph) (old new : ValueId) (g' : Graph) : Prop where
  slots : ∀ u, g'.slot u = (g.slot u).map (subst old new)
  usesOld : g'.usesOf old = ∅
  usesNew : g'.usesOf new = g.usesOf old ∪ g.usesOf new
  usesOther : ∀ x : ValueId, x ≠ old → x ≠ new → g'.usesOf x = g.usesOf x
  values : ∀ x : ValueId, g'.values[x]?.map Value.frame = g.values[x]?.map Value.frame
  blocks : ∀ b : BlockId, g'.blocks[b]?.map Block.frame = g.blocks[b]?.map Block.frame
  functions : g'.functions = g.functions
  next : g'.next = g.next
  succs : ∀ a b, b ∈ g'.succsOf a ↔ ∃ c, g.RunsAlong none a c ∧ b = subst old new c
  preds : ∀ a b, a ∈ g'.predsOf b ↔ ∃ c, g.RunsAlong none a c ∧ b = subst old new c
  nodup : ∀ a, (g'.succsOf a).Nodup ∧ (g'.predsOf a).Nodup

/-- The graphs differ at most in the order inside lists of predecessors and successors. -/
structure EqualUpToEdgeOrder (g₁ g₂ : Graph) : Prop where
  values : g₁.values = g₂.values
  functions : g₁.functions = g₂.functions
  next : g₁.next = g₂.next
  blocks : ∀ b : BlockId, g₁.blocks[b]?.map Block.frame = g₂.blocks[b]?.map Block.frame
  succs : ∀ a, (g₁.succsOf a).Perm (g₂.succsOf a)
  preds : ∀ a, (g₁.predsOf a).Perm (g₂.predsOf a)

/-! ## When a slot accepts -/

theorem isBlockSlot_iff {v : Value} (arity : v.kind.Arity v.operands.length) {i : Nat}
    (range : i < v.operands.length) : v.isBlockSlot i = true ↔ v.HoldsBlock i := by
  unfold Value.isBlockSlot Value.HoldsBlock
  split
  · rename_i branch
    rw [branch] at arity
    simp only [branch, decide_eq_true_eq, true_and, reduceCtorEq, false_and, or_false]
    simp only [Kind.Arity] at arity
    omega
  · rename_i phi
    simp [phi]
  · rename_i other
    simp only [Bool.false_eq_true, false_iff]
    intro h
    rcases h with h | h
    · exact absurd h.1 (by assumption)
    · exact absurd h.1 (by assumption)

theorem slotRefusal_eq_none_iff_fits (shaped : g.Shaped) {u : Use} {x : ValueId}
    (held : g.slot u = some x) : g.slotRefusal? u.user u.index new = .ok none ↔ g.Fits u new := by
  obtain ⟨e, he, ho⟩ := slot_eq_some.1 held
  have range := (List.getElem?_eq_some_iff.1 ho).1
  have slot := isBlockSlot_iff (shaped u.user e he) range
  rw [slotRefusal_eq_none]
  refine ⟨fun h => ?_, fun h => ⟨e, he, range, fun hb => ?_, fun hf => ?_⟩⟩
  · obtain ⟨e', he', -, accepts⟩ := h
    rw [he] at he'
    cases he'
    refine ⟨fun e' he' hb => ?_, fun e' he' call first => ?_⟩
    · rw [he] at he'
      cases he'
      exact accepts.block (slot.2 hb)
    · rw [he] at he'
      cases he'
      exact accepts.function (by simp [Value.isCalleeSlot, call, first])
  · exact h.block e he (slot.1 hb)
  · simp only [Value.isCalleeSlot, decide_eq_true_eq] at hf
    exact h.callee e he hf.1 hf.2

/-! ## One write -/

theorem slot_writeOperand {u : Use} (h : g.writeOperand u.user u.index new = .ok (old, g')) (s : Use) :
    g'.slot s = if s = u then some new else g.slot s := by
  obtain ⟨v, hv, held, h⟩ := writeOperand_eq_ok.1 h
  have held : g.slot u = some old := slot_eq_some.2 ⟨v, hv, held⟩
  rcases h with ⟨rfl, rfl⟩ | ⟨-, -, -, h⟩
  · split
    · rename_i hs
      rw [hs, held]
    · rfl
  · rw [← slot_rewired held new s]
    split at h
    · rw [h]
    · obtain ⟨g₁, hu, hl⟩ := h
      obtain ⟨gone, -, rfl⟩ := unlinkUnused_ok hu
      obtain ⟨-, -, rfl⟩ := link_eq_ok.1 hl
      rfl

/-- The slots to visit are those that hold the value. -/
theorem UseDef.mem_order (useDef : g.UseDef) {v : Value} {order : List Use}
    (entry : g.values[old]? = some v) (perm : order.Perm v.uses.toList) (u : Use) :
    u ∈ order ↔ g.slot u = some old := by
  rw [perm.mem_iff, Std.ExtTreeSet.mem_toList, ← useDef, usesOf, entry]
  rfl

theorem replaceAllUses_eq {v : Value} (entry : g.values[old]? = some v) (live : new ∈ g.values)
    (ne : old ≠ new) : g.replaceAllUses old new = g.replaceUses v.uses.toList new := by
  rw [replaceAllUses, (require_eq_ok (u := ())).2 live, value_eq_ok.2 entry]
  exact if_neg ne

/-! ## The graph that a substitution fixes -/

/-- A table of values is known from its frames, what the slots hold and the use sets. -/
theorem values_eq_of_views
    (frames : ∀ x : ValueId, g₁.values[x]?.map Value.frame = g₂.values[x]?.map Value.frame)
    (slots : ∀ u, g₁.slot u = g₂.slot u) (uses : ∀ x, g₁.usesOf x = g₂.usesOf x) :
    g₁.values = g₂.values := by
  refine Std.ExtTreeMap.ext_getElem? fun x => ?_
  have frame := frames x
  cases h₁ : g₁.values[x]? with
  | none =>
    rw [h₁] at frame
    exact (Option.map_eq_none_iff.1 frame.symm).symm
  | some e₁ =>
    cases h₂ : g₂.values[x]? with
    | none => simp [h₁, h₂] at frame
    | some e₂ =>
      have operands : e₁.operands = e₂.operands :=
        List.ext_getElem? fun i => by simpa [slot, h₁, h₂] using slots ⟨x, i⟩
      have used : e₁.uses = e₂.uses := by simpa [usesOf, h₁, h₂] using uses x
      simp only [h₁, h₂, Option.map_some, Option.some.injEq, Value.frame, Prod.mk.injEq] at frame
      obtain ⟨ty, kind, name, parent⟩ := frame
      cases e₁
      cases e₂
      simp_all

/-- Two graphs that record the same edges do so up to the order of the lists. -/
theorem Records.perm {edge : BlockId → BlockId → Prop} (h₁ : g₁.Records edge) (h₂ : g₂.Records edge) :
    (∀ a, (g₁.succsOf a).Perm (g₂.succsOf a)) ∧ ∀ b, (g₁.predsOf b).Perm (g₂.predsOf b) := by
  refine ⟨fun a => ?_, fun b => ?_⟩
  · rw [List.perm_ext_iff_of_nodup (h₁.nodup a).1 (h₂.nodup a).1]
    exact fun b => (h₁.succs a b).trans (h₂.succs a b).symm
  · rw [List.perm_ext_iff_of_nodup (h₁.nodup b).2 (h₂.nodup b).2]
    exact fun a => (h₁.preds a b).trans (h₂.preds a b).symm

theorem Substituted.records (h : g.Substituted old new g') :
    g'.Records fun a b => ∃ c, g.RunsAlong none a c ∧ b = subst old new c :=
  ⟨h.succs, h.preds, h.nodup⟩

theorem Substituted.unique (h₁ : g.Substituted old new g₁) (h₂ : g.Substituted old new g₂) :
    g₁.EqualUpToEdgeOrder g₂ where
  values := by
    refine values_eq_of_views (fun x => (h₁.values x).trans (h₂.values x).symm)
      (fun u => (h₁.slots u).trans (h₂.slots u).symm) fun x => ?_
    by_cases hold : x = old
    · rw [hold, h₁.usesOld, h₂.usesOld]
    · by_cases hnew : x = new
      · rw [hnew, h₁.usesNew, h₂.usesNew]
      · rw [h₁.usesOther x hold hnew, h₂.usesOther x hold hnew]
  functions := h₁.functions.trans h₂.functions.symm
  next := h₁.next.trans h₂.next.symm
  blocks b := (h₁.blocks b).trans (h₂.blocks b).symm
  succs := (h₁.records.perm h₂.records).1
  preds := (h₁.records.perm h₂.records).2

/-! ## What follows from substituted slots -/

theorem mem_usesOf_subst (useDef : g.UseDef) (useDef' : g'.UseDef)
    (slots : ∀ u, g'.slot u = (g.slot u).map (subst old new)) {x : ValueId} {u : Use} :
    u ∈ g'.usesOf x ↔ u ∈ g.usesOf old ∧ x = new ∨ x ≠ old ∧ u ∈ g.usesOf x := by
  rw [useDef', slots, useDef, useDef, Option.map_eq_some_iff]
  refine ⟨fun h => ?_, fun h => ?_⟩
  · obtain ⟨y, hy, hx⟩ := h
    unfold subst at hx
    split at hx
    · rename_i heq
      exact .inl ⟨heq ▸ hy, hx.symm⟩
    · rename_i hne
      exact .inr ⟨hx ▸ hne, hx ▸ hy⟩
  · rcases h with ⟨hu, rfl⟩ | ⟨hne, hu⟩
    · exact ⟨old, hu, if_pos rfl⟩
    · exact ⟨x, hu, if_neg hne⟩

theorem edge_subst (framed : g.Framed g') (slots : ∀ u, g'.slot u = (g.slot u).map (subst old new))
    (a b : BlockId) : g'.Edge a b ↔ ∃ c, g.Edge a c ∧ b = subst old new c := by
  refine ⟨fun edge => ?_, fun edge => ?_⟩
  · obtain ⟨u, leaves, hu⟩ := edge
    rw [framed.source] at leaves
    rw [slots, Option.map_eq_some_iff] at hu
    obtain ⟨c, hc, rfl⟩ := hu
    exact ⟨c, ⟨u, leaves, hc⟩, rfl⟩
  · obtain ⟨c, ⟨u, leaves, hc⟩, rfl⟩ := edge
    refine ⟨u, (framed.source u).trans leaves, ?_⟩
    rw [slots, hc]
    rfl

theorem Framed.frame (h : g.Framed g') (x : ValueId) :
    g'.values[x]?.map Value.frame = g.values[x]?.map Value.frame := by
  obtain ⟨f, b, hf, -, rfl⟩ := h
  rw [values_mapBlocks, getElem?_mapValues]
  cases g.values[x]? with
  | none => rfl
  | some e => simp [Value.frame, (hf x e).ty, (hf x e).kind, (hf x e).name, (hf x e).parent]

theorem Framed.blockFrame (h : g.Framed g') (b : BlockId) :
    g'.blocks[b]?.map Block.frame = g.blocks[b]?.map Block.frame := by
  obtain ⟨f, change, -, same, rfl⟩ := h
  rw [getElem?_mapBlocks, blocks_mapValues]
  cases g.blocks[b]? with
  | none => rfl
  | some block => simp [Block.frame, (same b block).1, (same b block).2]

theorem Framed.next (h : g.Framed g') : g'.next = g.next := by
  obtain ⟨f, b, -, -, rfl⟩ := h
  rfl

/-- A graph that differs from `g` in slots, uses and edges, with the substituted slots, is the
substituted graph. -/
theorem WellFormed.substituted (wf : g.WellFormed) (wf' : g'.WellFormed) (framed : g.Framed g')
    (ne : old ≠ new) (slots : ∀ u, g'.slot u = (g.slot u).map (subst old new)) :
    g.Substituted old new g' := by
  have uses : ∀ {x u}, u ∈ g'.usesOf x ↔ _ := mem_usesOf_subst wf.useDef wf'.useDef slots
  refine ⟨slots, ?_, ?_, fun x hold hnew => ?_, framed.frame, framed.blockFrame, framed.functions,
    framed.next, fun a b => ?_, fun a b => ?_, wf'.records.nodup⟩
  · refine Std.ExtTreeSet.ext_mem fun u => ?_
    rw [uses]
    simp [ne]
  · refine Std.ExtTreeSet.ext_mem fun u => ?_
    rw [uses, Std.ExtTreeSet.mem_union_iff]
    simp [ne.symm]
  · refine Std.ExtTreeSet.ext_mem fun u => ?_
    rw [uses]
    simp [hold, hnew]
  · simp only [wf'.records.succs, edge_subst framed slots, runsAlong_none wf.placed wf.shaped]
  · simp only [wf'.records.preds, edge_subst framed slots, runsAlong_none wf.placed wf.shaped]

end Graph

/-! ## The writes one after the other -/

namespace Workspace

variable {w : Workspace} {g : Graph} {old new : ValueId}

/-- The slots that are still to be written hold `old`, and every write leaves a built workspace. -/
theorem writeOperands_total (built : (w.withGraph g).Built) {order : List Use} (nodup : order.Nodup)
    (held : ∀ u ∈ order, g.slot u = some old) (ne : old ≠ new) (live : new ∈ g.values)
    (accepted : ∀ u ∈ order, g.slotRefusal? u.user u.index new = .ok none) :
    ∃ g', order.foldlM (fun g u => do return (← g.writeOperand u.user u.index new).2) g = .ok g' ∧
      (w.withGraph g').Built ∧ g.Framed g' ∧
      ∀ s, g'.slot s = if s ∈ order then some new else g.slot s := by
  induction order generalizing g with
  | nil => exact ⟨g, rfl, built, .refl g, by simp⟩
  | cons u order ih =>
    have now := accepted u (List.mem_cons_self ..)
    obtain ⟨fresh, nodup⟩ := List.nodup_cons.1 nodup
    have wf : g.WellFormed := built.wellFormed
    obtain ⟨g₁, hw⟩ := Graph.writeOperand_total wf (held u (List.mem_cons_self ..)) ne live now
    have framed := Graph.writeOperand_framed hw
    have slots := Graph.slot_writeOperand hw
    have built₁ : (w.withGraph g₁).Built :=
      built.changes (changes_withGraph (Graph.writeOperand_changes now hw))
    have held₁ : ∀ s ∈ order, g₁.slot s = some old := by
      intro s hs
      have other : s ≠ u := fun heq => fresh (heq ▸ hs)
      rw [slots, if_neg other]
      exact held s (List.mem_cons_of_mem u hs)
    have live₁ : new ∈ g₁.values := by
      obtain ⟨e, he⟩ := Table.getElem?_of_mem live
      obtain ⟨e', he', -⟩ := framed.value he
      exact Table.mem_of_getElem? he'
    obtain ⟨g', run, built', framed', slots'⟩ := ih built₁ nodup held₁ live₁ fun s hs =>
      framed.slotRefusal_eq_none (accepted s (List.mem_cons_of_mem u hs))
    refine ⟨g', ?_, built', framed.trans framed', fun s => ?_⟩
    · simp only [List.foldlM_cons, bind_eq_ok, pure_eq_ok]
      exact ⟨g₁, ⟨_, hw, rfl⟩, by simpa only [bind_eq_ok] using run⟩
    · rw [slots', slots]
      by_cases hs : s ∈ order <;> by_cases hu : s = u <;> simp [hs, hu]

theorem nodup_toList (uses : UseSet) : uses.toList.Nodup := by
  refine uses.distinct_toList.imp fun {u s} differ (heq : u = s) => differ ?_
  rw [heq]
  exact Std.ReflCmp.compare_self

/-- Whatever the order: the replacement is refused and nothing changes, or `old` is substituted. The
first happens exactly when some slot that holds `old` can not hold `new`. -/
theorem Built.replaceUses_cases (built : w.Built) {v : Value} (entry : w.graph.values[old]? = some v)
    (live : new ∈ w.graph.values) (ne : old ≠ new) {order : List Use}
    (perm : order.Perm v.uses.toList) :
    (∀ u, w.graph.slot u = some old → w.graph.Fits u new) ∧
        (∃ g', w.graph.replaceUses order new = .ok (.ok (), g') ∧ w.graph.Substituted old new g') ∨
      ¬(∀ u, w.graph.slot u = some old → w.graph.Fits u new) ∧
        ∃ reason, w.graph.replaceUses order new = .ok (.error reason, w.graph) := by
  have wf := built.wellFormed
  have members := wf.useDef.mem_order entry perm
  have fits : w.graph.firstRefusal? new order = .ok none ↔
      ∀ u, w.graph.slot u = some old → w.graph.Fits u new := by
    rw [Graph.firstRefusal_eq_none]
    refine forall_congr' fun u => ?_
    rw [members]
    exact forall_congr' fun held => Graph.slotRefusal_eq_none_iff_fits wf.shaped held
  obtain ⟨refusal, hr⟩ := Graph.firstRefusal_total
    (fun u hu => Graph.live_of_slot ((members u).1 hu)) new
  simp only [Graph.replaceUses, bind_eq_ok]
  cases refusal with
  | some reason =>
    refine .inr ⟨fun all => ?_, reason, some reason, hr, rfl⟩
    rw [fits.2 all] at hr
    cases hr
  | none =>
    obtain ⟨g', run, built', framed, slots⟩ := writeOperands_total (w := w) (g := w.graph) built
      (perm.nodup_iff.2 (nodup_toList _)) (fun u hu => (members u).1 hu) ne live
      (Graph.firstRefusal_eq_none.1 hr)
    refine .inl ⟨fits.1 hr, g', ⟨none, hr, ?_⟩, wf.substituted built'.wellFormed framed ne fun u => ?_⟩
    · simp only [bind_eq_ok, pure_eq_ok]
      exact ⟨g', by simpa only [bind_eq_ok] using run, rfl⟩
    · rw [slots]
      by_cases hu : u ∈ order
      · rw [if_pos hu, (members u).1 hu]
        simp [subst]
      · rw [if_neg hu]
        cases hx : w.graph.slot u with
        | none => rfl
        | some x =>
          have keep : x ≠ old := fun heq => hu ((members u).2 (heq ▸ hx))
          simp [subst, keep]

/-- Putting `new` into every slot of `old` is simultaneous substitution, after every run and whatever
order the slots are visited in: it never faults, it goes through exactly when every slot that holds
`old` can hold `new`, and then it leaves the substituted graph. Two orders lead to graphs that are
equal up to the order inside lists of predecessors and successors. -/
theorem replacement_is_substitution (h : w.Reachable) {v : Value}
    (entry : w.graph.values[old]? = some v) (live : new ∈ w.graph.values) (ne : old ≠ new) :
    w.graph.replaceAllUses old new = w.graph.replaceUses v.uses.toList new ∧
    (∀ order : List Use, order.Perm v.uses.toList →
      ∃ answer g', w.graph.replaceUses order new = .ok (answer, g') ∧
        (answer = .ok () ↔ ∀ u, w.graph.slot u = some old → w.graph.Fits u new) ∧
        (answer = .ok () → w.graph.Substituted old new g')) ∧
    ∀ (order₁ order₂ : List Use) (answer₁ answer₂ : Except Refusal Unit) (g₁ g₂ : Graph),
      order₁.Perm v.uses.toList → order₂.Perm v.uses.toList →
      w.graph.replaceUses order₁ new = .ok (answer₁, g₁) →
      w.graph.replaceUses order₂ new = .ok (answer₂, g₂) → g₁.EqualUpToEdgeOrder g₂ := by
  refine ⟨Graph.replaceAllUses_eq entry live ne, fun order perm => ?_,
    fun order₁ order₂ answer₁ answer₂ g₁ g₂ perm₁ perm₂ run₁ run₂ => ?_⟩
  · rcases h.built.replaceUses_cases entry live ne perm with ⟨fits, g', run, done⟩ | ⟨refused, reason, run⟩
    · exact ⟨.ok (), g', run, iff_of_true rfl fits, fun _ => done⟩
    · exact ⟨.error reason, w.graph, run, iff_of_false (by simp) refused, by simp⟩
  · rcases h.built.replaceUses_cases entry live ne perm₁ with ⟨fits, g₁', run, done₁⟩ | ⟨refused, _, run⟩
    · rw [run₁] at run
      cases run
      rcases h.built.replaceUses_cases entry live ne perm₂ with ⟨-, g₂', run, done₂⟩ | ⟨refused, -⟩
      · rw [run₂] at run
        cases run
        exact done₁.unique done₂
      · exact absurd fits refused
    · rw [run₁] at run
      cases run
      rcases h.built.replaceUses_cases entry live ne perm₂ with ⟨fits, -⟩ | ⟨-, _, run⟩
      · exact absurd fits refused
      · rw [run₂] at run
        cases run
        exact ⟨rfl, rfl, rfl, fun _ => rfl, fun _ => .refl _, fun _ => .refl _⟩

/-- The second block of the loop gives way to the first in both slots of a branch, in a phi and in a
jump, from the last slot to the first. -/
theorem replacement_is_substitution_loop : loop.Reachable ∧ 2 ∈ loop.graph.values ∧
    ∃ v, loop.graph.values[3]? = some v ∧
      List.Perm [⟨10, 0⟩, ⟨7, 3⟩, ⟨6, 2⟩, ⟨6, 1⟩] v.uses.toList ∧
      ∃ g', loop.graph.replaceUses [⟨10, 0⟩, ⟨7, 3⟩, ⟨6, 2⟩, ⟨6, 1⟩] 2 = .ok (.ok (), g') ∧
        loop.graph.Substituted 3 2 g' := by
  have live : 2 ∈ loop.graph.values := by decide +kernel
  have uses : (loop.graph.usesOf 3).toList = [⟨6, 1⟩, ⟨6, 2⟩, ⟨7, 3⟩, ⟨10, 0⟩] := by decide +kernel
  have found : 3 ∈ loop.graph.values := by decide +kernel
  have answered :
      (loop.graph.replaceUses [⟨10, 0⟩, ⟨7, 3⟩, ⟨6, 2⟩, ⟨6, 1⟩] 2).map (·.1) = .ok (.ok ()) := by
    decide +kernel
  obtain ⟨v, entry⟩ := Table.getElem?_of_mem found
  have perm : List.Perm [⟨10, 0⟩, ⟨7, 3⟩, ⟨6, 2⟩, ⟨6, 1⟩] v.uses.toList := by
    rw [Graph.usesOf, entry, Option.map_some, Option.getD_some] at uses
    rw [uses]
    decide
  obtain ⟨answer, g', run, -, done⟩ :=
    (replacement_is_substitution reachable_loop entry live (by decide)).2.1 _ perm
  rw [run] at answered
  have ok : answer = .ok () := Except.ok.inj answered
  exact ⟨reachable_loop, live, v, entry, perm, g', ok ▸ run, done ok⟩

end Workspace

end SsaGraph
