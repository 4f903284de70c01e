import SsaGraph.Proofs.Arrangement
import SsaGraph.Proofs.UseDef

/-!
# Control flow edges

There is an edge from `a` to `b` when a target slot of a branch in the list of `a` holds `b`
(`Graph.Edge`). Several slots can lie on one edge, and an edge is recorded at both of its ends.
`Graph.Records` says that the two lists hold given edges, each once.

Results:
* `Built.records`: in every built workspace the lists hold exactly the edges;
* `edges_exact`: after every run a block is a successor, has a predecessor and is the target of a
  branch at the same time, and no list has a duplicate or names a block that does not exist.
-/
namespace SsaGraph

namespace Graph

variable {g g' : Graph} {u : Use} {a b src : BlockId}

/-! ## Edges and the slots on them -/

/-- The block that an edge through the slot leaves; none unless the slot is a target of an attached
branch. -/
def source (g : Graph) (u : Use) : Option BlockId := g.values[u.user]?.bind (edgeSource? · u.index)

def Edge (g : Graph) (a b : BlockId) : Prop := ∃ u, g.source u = some a ∧ g.slot u = some b

theorem source_eq_some : g.source u = some a ↔ ∃ e, g.values[u.user]? = some e ∧
    (e.kind = .branch ∧ e.isBlockSlot u.index = true) ∧ e.parent = some a := by
  simp only [source, edgeSource?, Option.bind_eq_some_iff, Option.ite_none_right_eq_some]

/-- The targets of a value are what its target slots hold. -/
theorem hasTarget_iff_slot (shaped : g.Shaped) {inst : ValueId} {v : Value}
    (hv : g.values[inst]? = some v) : v.HasTarget b ↔
      v.kind = .branch ∧ ∃ i, v.isBlockSlot i = true ∧ g.slot ⟨inst, i⟩ = some b := by
  have arity : v.kind.Arity v.operands.length := shaped inst v hv
  have held : ∀ i, g.slot ⟨inst, i⟩ = v.operands[i]? := fun i => by simp [slot, hv]
  simp only [held]
  refine ⟨fun target => ?_, fun h => ?_⟩
  · have branch := target.branch
    rw [branch] at arity
    exact ⟨branch, (Value.hasTarget_iff branch arity).1 target⟩
  · obtain ⟨branch, h⟩ := h
    rw [branch] at arity
    exact (Value.hasTarget_iff branch arity).2 h

theorem runsAlong_iff (placed : g.Placed) (shaped : g.Shaped) {except : Option ValueId} :
    g.RunsAlong except a b ↔
      ∃ u, g.source u = some a ∧ some u.user ≠ except ∧ g.slot u = some b := by
  have listed : ∀ inst, (∃ e, g.values[inst]? = some e ∧ e.parent = some a) ↔
      ∃ block, g.blocks[a]? = some block ∧ inst ∈ block.insts := by
    intro inst
    rw [← parentOf_eq_some, placed.filed.iff, mem_instsOf]
  refine ⟨fun h => ?_, fun h => ?_⟩
  · obtain ⟨block, hb, inst, hi, ne, v, hv, target⟩ := h
    obtain ⟨branch, i, isTarget, held⟩ := (hasTarget_iff_slot shaped hv).1 target
    obtain ⟨v', hv', parent⟩ := (listed inst).2 ⟨block, hb, hi⟩
    rw [hv] at hv'
    cases hv'
    exact ⟨⟨inst, i⟩, source_eq_some.2 ⟨v, hv, ⟨branch, isTarget⟩, parent⟩, ne, held⟩
  · obtain ⟨⟨inst, i⟩, leaves, ne, held⟩ := h
    obtain ⟨v, hv, ⟨branch, isTarget⟩, parent⟩ := source_eq_some.1 leaves
    obtain ⟨block, hb, hi⟩ := (listed inst).1 ⟨v, hv, parent⟩
    exact ⟨block, hb, inst, hi, ne, v, hv, (hasTarget_iff_slot shaped hv).2 ⟨branch, i, isTarget, held⟩⟩

theorem runsAlong_none (placed : g.Placed) (shaped : g.Shaped) : g.RunsAlong none a b ↔ g.Edge a b := by
  rw [runsAlong_iff placed shaped]
  simp [Edge]

/-! ## Recorded edges -/

def succsOf (g : Graph) (a : BlockId) : List BlockId := (g.blocks[a]?.map Block.succs).getD []

def predsOf (g : Graph) (b : BlockId) : List BlockId := (g.blocks[b]?.map Block.preds).getD []

theorem mem_succsOf : b ∈ g.succsOf a ↔ ∃ block, g.blocks[a]? = some block ∧ b ∈ block.succs := by
  unfold succsOf
  cases g.blocks[a]? <;> simp

theorem mem_predsOf : a ∈ g.predsOf b ↔ ∃ block, g.blocks[b]? = some block ∧ a ∈ block.preds := by
  unfold predsOf
  cases g.blocks[b]? <;> simp

/-- The lists of successors and predecessors hold these edges, each once. -/
structure Records (g : Graph) (edge : BlockId → BlockId → Prop) : Prop where
  succs : ∀ a b, b ∈ g.succsOf a ↔ edge a b
  preds : ∀ a b, a ∈ g.predsOf b ↔ edge a b
  nodup : ∀ a, (g.succsOf a).Nodup ∧ (g.predsOf a).Nodup

theorem Records.of_lists {edge : BlockId → BlockId → Prop} (h : g.Records edge)
    (succs : ∀ a, g'.succsOf a = g.succsOf a) (preds : ∀ b, g'.predsOf b = g.predsOf b) :
    g'.Records edge where
  succs a b := by
    rw [succs]
    exact h.succs a b
  preds a b := by
    rw [preds]
    exact h.preds a b
  nodup a := by
    rw [succs, preds]
    exact h.nodup a

theorem Records.congr {edge edge' : BlockId → BlockId → Prop} (h : g.Records edge)
    (same : ∀ a b, edge' a b ↔ edge a b) : g.Records edge' where
  succs a b := (h.succs a b).trans (same a b).symm
  preds a b := (h.preds a b).trans (same a b).symm
  nodup := h.nodup

/-- An edge is in a list of either end, so both ends exist. -/
theorem Records.mem_blocks {edge : BlockId → BlockId → Prop} (h : g.Records edge) (hab : edge a b) :
    a ∈ g.blocks ∧ b ∈ g.blocks := by
  obtain ⟨A, ha, -⟩ := mem_succsOf.1 ((h.succs a b).2 hab)
  obtain ⟨B, hb, -⟩ := mem_predsOf.1 ((h.preds a b).2 hab)
  exact ⟨Table.mem_of_getElem? ha, Table.mem_of_getElem? hb⟩

theorem Records.linked {edge : BlockId → BlockId → Prop} (h : g.Records edge) {targets : List BlockId}
    (srcLive : src ∈ g.blocks) (live : ∀ t ∈ targets, t ∈ g.blocks) :
    (g.mapBlocks (Block.linked src targets)).Records fun a b => edge a b ∨ a = src ∧ b ∈ targets := by
  have succs : ∀ a, (g.mapBlocks (Block.linked src targets)).succsOf a =
      if a = src then targets.foldl pushNew (g.succsOf a) else g.succsOf a := by
    intro a
    refine list_mapBlocks Block.succs (fun x l => if x = src then targets.foldl pushNew l else l)
      (fun _ _ => rfl) fun dead => if_neg fun (heq : a = src) => dead ?_
    rw [heq]
    exact srcLive
  have preds : ∀ b, (g.mapBlocks (Block.linked src targets)).predsOf b =
      if b ∈ targets then pushNew (g.predsOf b) src else g.predsOf b := by
    intro b
    exact list_mapBlocks Block.preds (fun x l => if x ∈ targets then pushNew l src else l)
      (fun _ _ => rfl) fun dead => if_neg fun target => dead (live b target)
  refine ⟨fun a b => ?_, fun a b => ?_, fun a => ⟨?_, ?_⟩⟩
  · rw [succs, ← h.succs]
    split <;> simp_all
  · rw [preds, ← h.preds]
    split <;> simp_all
  · rw [succs]
    split
    · exact nodup_foldl_pushNew (h.nodup a).1 _
    · exact (h.nodup a).1
  · rw [preds]
    split
    · exact nodup_pushNew (h.nodup a).2 _
    · exact (h.nodup a).2

theorem Records.unlinked {edge : BlockId → BlockId → Prop} (h : g.Records edge) (src : BlockId)
    (gone : List BlockId) :
    (g.mapBlocks (Block.unlinked src gone)).Records fun a b => edge a b ∧ ¬(a = src ∧ b ∈ gone) := by
  have succs : ∀ a, (g.mapBlocks (Block.unlinked src gone)).succsOf a =
      if a = src then (g.succsOf a).filter (· ∉ gone) else g.succsOf a := fun a =>
    list_mapBlocks Block.succs (fun x l => if x = src then l.filter (· ∉ gone) else l)
      (fun _ _ => rfl) fun _ => by simp
  have preds : ∀ b, (g.mapBlocks (Block.unlinked src gone)).predsOf b =
      if b ∈ gone then (g.predsOf b).filter (· ≠ src) else g.predsOf b := fun b =>
    list_mapBlocks Block.preds (fun x l => if x ∈ gone then l.filter (· ≠ src) else l)
      (fun _ _ => rfl) fun _ => by simp
  refine ⟨fun a b => ?_, fun a b => ?_, fun a => ⟨?_, ?_⟩⟩
  · rw [succs, ← h.succs]
    split <;> simp_all
  · rw [preds, ← h.preds]
    split <;> simp_all
  · rw [succs]
    split
    · exact (h.nodup a).1.filter _
    · exact (h.nodup a).1
  · rw [preds]
    split
    · exact (h.nodup a).2.filter _
    · exact (h.nodup a).2

theorem Records.relisted {edge : BlockId → BlockId → Prop} (h : g.Records edge)
    {f : BlockId → Block → Block} (succs : ∀ x b, (f x b).succs = b.succs)
    (preds : ∀ x b, (f x b).preds = b.preds) : (g.mapBlocks f).Records edge :=
  h.of_lists (fun _ => list_mapBlocks Block.succs (fun _ l => l) succs fun _ => rfl)
    fun _ => list_mapBlocks Block.preds (fun _ l => l) preds fun _ => rfl

/-- Neither the blocks nor the edges change. -/
theorem Records.same (h : g.Records g.Edge) (blocks : g'.blocks = g.blocks)
    (edges : ∀ a b, g'.Edge a b ↔ g.Edge a b) : g'.Records g'.Edge := by
  refine (h.of_lists (fun a => ?_) fun b => ?_).congr edges
  · rw [succsOf, blocks]
    rfl
  · rw [predsOf, blocks]
    rfl

/-! ## Changes away from the edges -/

theorem edge_congr (sources : ∀ u, g'.source u = g.source u)
    (slots : ∀ u, g.source u ≠ none → g'.slot u = g.slot u) (a b : BlockId) :
    g'.Edge a b ↔ g.Edge a b := by
  refine exists_congr fun u => ?_
  rw [sources]
  refine and_congr_right fun leaves => ?_
  rw [slots u (by simp [leaves])]

theorem source_mapValues {f : ValueId → Value → Value}
    (same : ∀ x e i, g.values[x]? = some e → edgeSource? (f x e) i = edgeSource? e i) (u : Use) :
    (g.mapValues f).source u = g.source u := by
  simp only [source, getElem?_mapValues]
  cases hx : g.values[u.user]? with
  | none => rfl
  | some e => exact same u.user e u.index hx

theorem edgeSource?_of_detached {e : Value} (detached : e.parent = none) (i : Nat) :
    edgeSource? e i = none := by
  unfold edgeSource?
  split
  · exact detached
  · rfl

theorem source_entered (num : g.Numbered) {e : Value} (idle : e.Idle) (u : Use) :
    (g.entered e).source u = g.source u := by
  by_cases hu : u.user = g.next
  · rw [source, source, hu, getElem?_entered_self, num.values_next]
    exact edgeSource?_of_detached idle.parent u.index
  · rw [source, source, getElem?_entered_of_ne hu]
    cases g.values[u.user]? <;> rfl

theorem edge_entered (num : g.Numbered) {e : Value} (idle : e.Idle) (a b : BlockId) :
    (g.entered e).Edge a b ↔ g.Edge a b := by
  refine edge_congr (source_entered num idle) (fun u leaves => ?_) a b
  rw [slot_entered, if_neg]
  intro hu
  rw [source, hu, num.values_next] at leaves
  exact leaves rfl

theorem edge_without {v : ValueId} {entry : Value} (found : g.values[v]? = some entry)
    (detached : entry.parent = none) (a b : BlockId) :
    (g.without v entry.operands).Edge a b ↔ g.Edge a b := by
  have own : ∀ u : Use, u.user = v → g.source u = none := by
    intro u hu
    rw [source, hu, found]
    exact edgeSource?_of_detached detached u.index
  refine edge_congr (fun u => ?_) (fun u leaves => ?_) a b
  · by_cases hu : u.user = v
    · rw [own u hu, source, hu, getElem?_without_self]
      rfl
    · rw [source, source, getElem?_without_of_ne hu]
      cases g.values[u.user]? <;> rfl
  · rw [slot_without, if_neg fun hu => leaves (own u hu)]

theorem Grown.source (h : g.Grown g') (u : Use) : g'.source u = g.source u := by
  by_cases hu : u.user ∈ g.values
  · rw [Graph.source, h.old _ hu]
    rfl
  · have before : g.values[u.user]? = none := by simpa using hu
    rw [Graph.source, Graph.source, before]
    cases he : g'.values[u.user]? with
    | none => rfl
    | some e => exact edgeSource?_of_detached (h.new _ e hu he).1.parent u.index

theorem edge_extended {user operand : ValueId} {e : Value} (he : g.values[user]? = some e)
    (noBranch : e.kind ≠ .branch) (a b : BlockId) :
    (g.extended user e.operands.length operand).Edge a b ↔ g.Edge a b := by
  have own : ∀ u : Use, u.user = user → g.source u = none := by
    intro u hu
    rw [source, hu, he]
    exact if_neg fun h => noBranch h.1
  refine edge_congr (source_mapValues fun x e' i he' => ?_) (fun u leaves => ?_) a b
  · by_cases hx : x = user
    · rw [hx, he] at he'
      cases he'
      simp [edgeSource?, Value.extended, noBranch]
    · simp [edgeSource?, Value.isBlockSlot, Value.extended, hx]
  · refine (slot_extended he u).trans (if_neg fun hu => ?_)
    exact leaves (own u (congrArg Use.user hu))

/-! ## Changes of edges -/

theorem Framed.source (h : g.Framed g') (u : Use) : g'.source u = g.source u := by
  obtain ⟨f, b, hf, -, rfl⟩ := h
  refine source_mapValues (fun x e i _ => ?_) u
  simp only [edgeSource?, (hf x e).kind, (hf x e).isBlockSlot, (hf x e).parent]

theorem source_rewired (s : Use) (old new : ValueId) (u : Use) :
    (g.rewired s old new).source u = g.source u :=
  (framed_rewired s old new).source u

/-- A target slot that is written leaves the edge to `old` and takes the one to `new`; the former goes
when no other slot is on it. -/
theorem edge_rewired {old new : ValueId} {s : Use} (held : g.slot s = some old)
    (leaves : g.source s = some src) {gone : List BlockId}
    (unused : ∀ d, d ∈ gone ↔ d = old ∧ ¬(g.rewired s old new).Edge src d) (a b : BlockId) :
    (g.rewired s old new).Edge a b ↔ (g.Edge a b ∧ ¬(a = src ∧ b ∈ gone)) ∨ a = src ∧ b ∈ [new] := by
  have slots := slot_rewired held new
  refine ⟨fun edge => ?_, fun h => ?_⟩
  · obtain ⟨u, hu, hs⟩ := id edge
    rw [source_rewired] at hu
    rw [slots] at hs
    by_cases hus : u = s
    · rw [hus, leaves] at hu
      rw [if_pos hus] at hs
      refine .inr ⟨(Option.some.inj hu).symm, ?_⟩
      simpa using (Option.some.inj hs).symm
    · rw [if_neg hus] at hs
      refine .inl ⟨⟨u, hu, hs⟩, fun hb => ?_⟩
      exact ((unused b).1 hb.2).2 (hb.1 ▸ edge)
  · rcases h with ⟨⟨u, hu, hs⟩, kept⟩ | ⟨rfl, hb⟩
    · by_cases hus : u = s
      · -- the slot held `b` itself, so `b` is `old` and stays only if another slot holds it
        rw [hus, held] at hs
        rw [hus, leaves] at hu
        cases hs
        cases hu
        by_cases edge : (g.rewired s old new).Edge src old
        · exact edge
        · exact absurd ⟨rfl, (unused old).2 ⟨rfl, edge⟩⟩ kept
      · refine ⟨u, (source_rewired s old new u).trans hu, ?_⟩
        rw [slots, if_neg hus]
        exact hs
    · refine ⟨s, (source_rewired s old new s).trans leaves, ?_⟩
      rw [slots, if_pos rfl, List.mem_singleton.1 hb]

theorem source_moved {inst : ValueId} {v : Value} (hv : g.values[inst]? = some v)
    (parent : Option BlockId) (u : Use) : (g.mapValues (Value.moved inst parent)).source u =
      if u.user = inst then edgeSource? { v with parent } u.index else g.source u := by
  simp only [source, getElem?_mapValues]
  by_cases hu : u.user = inst
  · simp [hu, hv, Value.moved]
  · cases g.values[u.user]? <;> simp [hu, Value.moved]

theorem edge_placed (shaped : g.Shaped) {inst : ValueId} {block : BlockId} {v : Value}
    {targets : List BlockId} (hv : g.values[inst]? = some v) (detached : v.parent = none)
    (branch : targetsOf v = .ok targets) (a b : BlockId) :
    (g.mapValues (Value.moved inst (some block))).Edge a b ↔ g.Edge a b ∨ a = block ∧ b ∈ targets := by
  have own : ∀ u : Use, u.user = inst → g.source u = none := by
    intro u hu
    rw [source, hu, hv]
    exact edgeSource?_of_detached detached u.index
  have slots : ∀ u, (g.mapValues (Value.moved inst (some block))).slot u = g.slot u :=
    slot_mapValues fun _ _ => rfl
  rw [mem_of_targetsOf branch, hasTarget_iff_slot shaped hv]
  refine ⟨fun h => ?_, fun h => ?_⟩
  · obtain ⟨⟨x, i⟩, hu, hs⟩ := h
    rw [source_moved hv] at hu
    rw [slots] at hs
    by_cases hx : x = inst
    · subst hx
      simp only [edgeSource?, if_true, Option.ite_none_right_eq_some, Option.some.injEq] at hu
      obtain ⟨⟨isBranch, isTarget⟩, rfl⟩ := hu
      exact .inr ⟨rfl, isBranch, i, isTarget, hs⟩
    · rw [if_neg hx] at hu
      exact .inl ⟨⟨x, i⟩, hu, hs⟩
  · rcases h with ⟨u, hu, hs⟩ | ⟨rfl, isBranch, i, isTarget, hs⟩
    · refine ⟨u, ?_, (slots u).trans hs⟩
      rw [source_moved hv, if_neg, hu]
      intro heq
      rw [own u heq] at hu
      cases hu
    · refine ⟨⟨inst, i⟩, ?_, (slots _).trans hs⟩
      rw [source_moved hv, if_pos rfl]
      exact if_pos ⟨isBranch, isTarget⟩

theorem edge_displaced (placed : g.Placed) (shaped : g.Shaped) {inst : ValueId} {block : BlockId}
    {v : Value} {targets gone : List BlockId} (hv : g.values[inst]? = some v)
    (attached : v.parent = some block) (branch : targetsOf v = .ok targets)
    (unused : ∀ d, d ∈ gone ↔ d ∈ targets ∧ ¬g.RunsAlong (some inst) block d) (a b : BlockId) :
    (g.mapValues (Value.moved inst none)).Edge a b ↔ g.Edge a b ∧ ¬(a = block ∧ b ∈ gone) := by
  have slots : ∀ u, (g.mapValues (Value.moved inst none)).slot u = g.slot u :=
    slot_mapValues fun _ _ => rfl
  have sources : ∀ u : Use, (g.mapValues (Value.moved inst none)).source u =
      if u.user = inst then none else g.source u := by
    intro u
    rw [source_moved hv, edgeSource?_of_detached rfl]
  simp only [unused, mem_of_targetsOf branch, hasTarget_iff_slot shaped hv, runsAlong_iff placed shaped]
  refine ⟨fun h => ?_, fun h => ?_⟩
  · obtain ⟨u, hu, hs⟩ := h
    rw [sources] at hu
    rw [slots] at hs
    by_cases heq : u.user = inst
    · simp [heq] at hu
    · rw [if_neg heq] at hu
      refine ⟨⟨u, hu, hs⟩, fun gone => gone.2.2 ⟨u, gone.1 ▸ hu, ?_, hs⟩⟩
      simpa using heq
  · obtain ⟨⟨⟨x, i⟩, hu, hs⟩, kept⟩ := h
    -- a slot of another branch stays on the edge; for one of `inst` the edge is kept by another branch
    have stay : ∀ u : Use, some u.user ≠ some inst → g.source u = some a → g.slot u = some b →
        (g.mapValues (Value.moved inst none)).Edge a b := by
      intro u ne hu hs
      refine ⟨u, ?_, (slots u).trans hs⟩
      rw [sources, if_neg (by simpa using ne)]
      exact hu
    by_cases hx : x = inst
    · subst hx
      obtain ⟨v', hv', ⟨isBranch, isTarget⟩, parent⟩ := source_eq_some.1 hu
      rw [hv] at hv'
      cases hv'
      rw [attached] at parent
      cases parent
      by_cases other : ∃ u, g.source u = some block ∧ some u.user ≠ some x ∧ g.slot u = some b
      · obtain ⟨u, hu, ne, hs⟩ := other
        exact stay u ne hu hs
      · exact absurd ⟨rfl, ⟨isBranch, i, isTarget, hs⟩, other⟩ kept
    · exact stay ⟨x, i⟩ (by simpa using hx) hu hs

/-! ## One change -/

theorem Records.change (h : g.Records g.Edge) (num : g.Numbered) (shaped : g.Shaped) (placed : g.Placed)
    (change : g.Change g') : g'.Records g'.Edge := by
  cases change with
  | enter drafted => exact h.same rfl (edge_entered num (Draft.value_plain drafted).toIdle)
  | rename =>
    refine h.same rfl (edge_congr (source_mapValues fun x e i _ => ?_) fun u _ => ?_)
    · split <;> rfl
    · refine slot_mapValues (fun x e => ?_) u
      split <;> rfl
  | @rewire user old new index v slot apart =>
    refine h.same rfl (edge_congr (source_rewired _ old new) fun u leaves => ?_)
    rw [slot_rewired slot.slot, if_neg]
    intro hu
    rw [hu, source, slot.entry] at leaves
    exact leaves apart
  | @retarget user old new index v src gone slot along live unused =>
    have leaves : g.source ⟨user, index⟩ = some src := by
      rw [source, slot.entry]
      exact along
    simp only [runsAlong_none (placed.rewired _ old new) (shaped.rewired _ old new)] at unused
    have written : (g.rewired ⟨user, index⟩ old new).Records g.Edge := ⟨h.succs, h.preds, h.nodup⟩
    have linked := (written.unlinked src gone).linked ((mem_mapBlocks _ src).2 live.1) fun t ht =>
      (mem_mapBlocks _ t).2 (List.mem_singleton.1 ht ▸ live.2)
    rw [mapBlocks_mapBlocks] at linked
    exact linked.congr (edge_rewired slot.slot leaves unused)
  | @incoming phi value block p entry kind live blockLive =>
    have noBranch : p.kind ≠ .branch := by
      rw [kind]
      simp
    refine h.same rfl fun a b => ?_
    rw [← Value.length_extended_self phi p.operands.length value p]
    exact (edge_extended (getElem?_extended_self entry _ value) noBranch a b).trans
      (edge_extended entry noBranch a b)
  | @place inst block v b targets before after entry kind detached spotBlock branch live insts spot =>
    have moved : (g.mapValues (Value.moved inst (some block))).Records g.Edge :=
      ⟨h.succs, h.preds, h.nodup⟩
    have listed := moved.relisted (f := Block.relisted block (before ++ inst :: after))
      (fun _ _ => rfl) fun _ _ => rfl
    have linked := listed.linked ((mem_mapBlocks _ block).2 (Table.mem_of_getElem? spotBlock))
      fun t ht => (mem_mapBlocks _ t).2 (live t (List.mem_reverse.1 ht))
    rw [mapBlocks_mapBlocks] at linked
    refine linked.congr fun a b => ?_
    rw [List.mem_reverse]
    exact edge_placed shaped entry detached branch a b
  | @displace inst block v targets gone entry attached branch unused =>
    have moved : (g.mapValues (Value.moved inst none)).Records g.Edge := ⟨h.succs, h.preds, h.nodup⟩
    have listed := (moved.unlinked block gone).relisted
      (f := fun x b => b.relisted block (b.insts.filter (· ≠ inst)) x) (fun _ _ => rfl) fun _ _ => rfl
    rw [mapBlocks_mapBlocks] at listed
    exact listed.congr (edge_displaced placed shaped entry attached branch unused)
  | @block v f func idle kind found defined =>
    refine (h.of_lists ?_ ?_).congr (edge_entered num idle)
    · exact list_withBlock num Block.succs rfl
    · exact list_withBlock num Block.preds rfl

end Graph

/-! ## Every run -/

namespace Workspace

variable {w : Workspace}

theorem Built.records (h : w.Built) : w.graph.Records w.graph.Edge := by
  refine Built.invariant (P := fun w => w.graph.Records w.graph.Edge) (fun name => ?_)
    (fun {w w'} built records step => ?_) h
  · have none : ∀ a b, ¬(start name).graph.Edge a b := by
      intro a b h
      obtain ⟨u, hu, -⟩ := h
      simp [Graph.source, start, graph] at hu
    refine ⟨fun a b => ?_, fun a b => ?_, fun a => ?_⟩
    · exact iff_of_false (by simp [Graph.succsOf, start, graph]) (none a b)
    · exact iff_of_false (by simp [Graph.predsOf, start, graph]) (none a b)
    · simp [Graph.succsOf, Graph.predsOf, start, graph]
  · have num := built.numbered
    cases step with
    | graph change => exact records.change num built.shaped built.placed change
    | @function v params func idle kind ty plain =>
      have grown := grown_withFunction num idle kind plain func
      exact records.same grown.blocks (Graph.edge_congr grown.source fun u _ => grown.slot u)
    | global plain => exact records.same rfl (Graph.edge_entered num plain.toIdle)
    | restore found live =>
      exact records.same rfl (Graph.edge_entered num (built.stored _ _ found).toIdle)
    | discard found unused detached => exact records.same rfl (Graph.edge_without found detached)

/-- After every run, for any two blocks: the second is a successor of the first, the first is a
predecessor of the second, and a branch in the list of the first has the second as a target, all three
or none. No list has a duplicate, and every block that is listed exists. -/
theorem edges_exact (h : w.Reachable) :
    (∀ (a b : BlockId) (A B : Block), w.graph.blocks[a]? = some A → w.graph.blocks[b]? = some B →
      (b ∈ A.succs ↔ a ∈ B.preds) ∧
      (b ∈ A.succs ↔ ∃ inst ∈ A.insts, ∃ v, w.graph.values[inst]? = some v ∧ v.kind = .branch ∧
        (v.trueTarget = .ok b ∨ v.falseTarget = .ok b))) ∧
    ∀ (a : BlockId) (A : Block), w.graph.blocks[a]? = some A →
      A.succs.Nodup ∧ A.preds.Nodup ∧ (∀ b ∈ A.succs, b ∈ w.graph.blocks) ∧
        ∀ b ∈ A.preds, b ∈ w.graph.blocks := by
  have records := h.built.records
  have succs : ∀ {a A}, w.graph.blocks[a]? = some A → w.graph.succsOf a = A.succs := fun ha => by
    simp [Graph.succsOf, ha]
  have preds : ∀ {b B}, w.graph.blocks[b]? = some B → w.graph.predsOf b = B.preds := fun hb => by
    simp [Graph.predsOf, hb]
  refine ⟨fun a b A B ha hb => ?_, fun a A ha => ?_⟩
  · rw [← succs ha, ← preds hb, records.succs, records.preds,
      ← Graph.runsAlong_none h.built.placed h.built.shaped]
    refine ⟨Iff.rfl, fun edge => ?_, fun edge => ?_⟩
    · obtain ⟨A', ha', inst, hi, -, v, hv, target⟩ := edge
      rw [ha] at ha'
      cases ha'
      exact ⟨inst, hi, v, hv, target.branch, target⟩
    · obtain ⟨inst, hi, v, hv, -, target⟩ := edge
      exact ⟨A, ha, inst, hi, by simp, v, hv, target⟩
  · rw [← succs ha, ← preds ha]
    refine ⟨(records.nodup a).1, (records.nodup a).2, fun b hb => ?_, fun b hb => ?_⟩
    · exact (records.mem_blocks ((records.succs a b).1 hb)).2
    · exact (records.mem_blocks ((records.preds b a).1 hb)).1

/-- Both targets of the first branch are on one edge, and the second block follows itself. -/
theorem edges_exact_loop : loop.Reachable ∧ loop.graph.succsOf 2 = [3] ∧ loop.graph.predsOf 3 = [2, 3] ∧
    ∃ B, loop.graph.blocks[3]? = some B ∧ 3 ∈ B.succs ∧ 3 ∈ B.preds ∧
      ∃ inst ∈ B.insts, ∃ v, loop.graph.values[inst]? = some v ∧ v.kind = .branch ∧
        (v.trueTarget = .ok 3 ∨ v.falseTarget = .ok 3) := by
  refine ⟨reachable_loop, by decide +kernel, by decide +kernel, ?_⟩
  have listed : 3 ∈ loop.graph.succsOf 3 := by decide +kernel
  obtain ⟨B, hb, follows⟩ := Graph.mem_succsOf.1 listed
  obtain ⟨both, runs⟩ := (edges_exact reachable_loop).1 3 3 B B hb hb
  exact ⟨B, hb, follows, both.1 follows, runs.1 follows⟩

end Workspace

end SsaGraph
