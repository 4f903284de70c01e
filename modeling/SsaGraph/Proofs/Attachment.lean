import Mathlib.Data.List.Nodup
import SsaGraph.Proofs.Numbering

/-!
# Instructions in the lists of blocks

An instruction knows its block and the block lists its instructions. `Filed` says that owners and lists
agree, and `Graph.Placed` that instructions and blocks do so and that phis come first.

Result: `Built.placed`, this holds in every built workspace. So a detached instruction is in no list,
and nothing stands in the way of attaching it.
-/
namespace SsaGraph

/-! ## Owners and lists -/

/-- Every member is in the list of its owner, once, and in no other list. -/
structure Filed (owner : ValueId → Option ValueId) (members : ValueId → List ValueId) : Prop where
  iff : ∀ x o, owner x = some o ↔ x ∈ members o
  nodup : ∀ o, (members o).Nodup

namespace Filed

variable {owner : ValueId → Option ValueId} {members : ValueId → List ValueId} {x o : ValueId}

theorem not_mem (h : Filed owner members) (free : owner x = none) : x ∉ members o := by
  intro hx
  rw [← h.iff, free] at hx
  cases hx

theorem insert (h : Filed owner members) (free : owner x = none) {before after : List ValueId}
    (list : members o = before ++ after) :
    Filed (fun y => if y = x then some o else owner y)
      (fun p => if p = o then before ++ x :: after else members p) where
  iff y p := by
    have absent : ∀ p, x ∉ members p := fun p => h.not_mem free
    have old := h.iff y p
    by_cases hy : y = x
    · by_cases hp : p = o
      · simp [hy, hp]
      · simp [hy, hp, absent p, Ne.symm hp]
    · by_cases hp : p = o
      · rw [hp, list] at old
        simp [hy, hp, old]
      · simp [hy, hp, old]
  nodup p := by
    by_cases hp : p = o
    · have absent := h.not_mem (o := o) free
      have nodup := h.nodup o
      rw [list] at absent nodup
      rw [if_pos hp, List.nodup_middle, List.nodup_cons]
      exact ⟨absent, nodup⟩
    · rw [if_neg hp]
      exact h.nodup p

theorem erase (h : Filed owner members) (filed : owner x = some o) :
    Filed (fun y => if y = x then none else owner y)
      (fun p => if p = o then (members p).filter (· ≠ x) else members p) where
  iff y p := by
    have old := h.iff y p
    by_cases hy : y = x
    · by_cases hp : p = o
      · simp [hy, hp]
      · have absent : x ∉ members p := by
          intro hm
          rw [← h.iff, filed] at hm
          exact hp (Option.some.inj hm).symm
        simp [hy, hp, absent]
    · by_cases hp : p = o
      · rw [hp] at old
        simp [hy, hp, old]
      · simp [hy, hp, old]
  nodup p := by
    split
    · exact (h.nodup p).filter _
    · exact h.nodup p

theorem count (h : Filed owner members) (x o : ValueId) :
    (members o).count x = if owner x = some o then 1 else 0 := by
  rw [(h.nodup o).count]
  simp only [h.iff]

end Filed

namespace Graph

variable {g g' : Graph}

/-! ## Instructions -/

/-- The block that the value is attached to. -/
def parentOf (g : Graph) (v : ValueId) : Option BlockId := g.values[v]?.bind Value.parent

theorem parentOf_eq_some {v : ValueId} {bb : BlockId} :
    g.parentOf v = some bb ↔ ∃ e, g.values[v]? = some e ∧ e.parent = some bb :=
  Option.bind_eq_some_iff

/-- The instruction list of the block, empty if there is no such block. -/
def instsOf (g : Graph) (b : BlockId) : List ValueId := (g.blocks[b]?.map Block.insts).getD []

def kindOf (g : Graph) (v : ValueId) : Option Kind := g.values[v]?.map Value.kind

/-- A list that blocks have, once every block has changed. -/
theorem list_mapBlocks (list : Block → List ValueId) {f : BlockId → Block → Block}
    (change : BlockId → List ValueId → List ValueId) (one : ∀ x b, list (f x b) = change x (list b))
    {x : BlockId} (keep : x ∉ g.blocks → change x [] = []) :
    ((g.mapBlocks f).blocks[x]?.map list).getD [] = change x ((g.blocks[x]?.map list).getD []) := by
  rw [getElem?_mapBlocks]
  cases hb : g.blocks[x]? with
  | none => exact (keep (by simpa using hb)).symm
  | some b => exact one x b

/-- A new block has nothing in its lists. -/
theorem list_withBlock (num : g.Numbered) (list : Block → List ValueId) {v : Value} {f : FuncId}
    {func : Func} (empty : list { function := f } = []) (x : BlockId) :
    ((g.withBlock v f func).blocks[x]?.map list).getD [] = (g.blocks[x]?.map list).getD [] := by
  simp only [withBlock, Std.ExtTreeMap.getElem?_insert, Std.LawfulEqCmp.compare_eq_iff_eq]
  split
  · rename_i hx
    rw [← hx, num.blocks_next]
    exact empty
  · rfl

theorem isPhi_iff {v : ValueId} : g.IsPhi v ↔ g.kindOf v = some .phi := by
  simp [IsPhi, kindOf, Option.map_eq_some_iff]

/-- Blocks list what is attached to them: instructions only, and phis before everything else. -/
structure Placed (g : Graph) : Prop where
  filed : Filed g.parentOf g.instsOf
  inst : ∀ v b, g.parentOf v = some b → ∃ k, g.kindOf v = some k ∧ k.isInst = true
  phisFirst : ∀ b, (g.instsOf b).Pairwise fun v u => g.IsPhi u → g.IsPhi v

/-- The same values are attached to the same blocks in the same order. -/
structure SamePlaces (g g' : Graph) : Prop where
  insts : ∀ b, g'.instsOf b = g.instsOf b
  parents : ∀ v, g'.parentOf v = g.parentOf v
  kinds : ∀ v, g.parentOf v ≠ none → g'.kindOf v = g.kindOf v

theorem SamePlaces.trans {g'' : Graph} (h : g.SamePlaces g') (h' : g'.SamePlaces g'') :
    g.SamePlaces g'' where
  insts b := (h'.insts b).trans (h.insts b)
  parents v := (h'.parents v).trans (h.parents v)
  kinds v attached := (h'.kinds v (by rwa [h.parents])).trans (h.kinds v attached)

/-- What is listed keeps its kind. -/
theorem SamePlaces.kinds_listed (same : g.SamePlaces g') (placed : g.Placed) {b : BlockId} {v : ValueId}
    (member : v ∈ g.instsOf b) : g'.kindOf v = g.kindOf v := by
  refine same.kinds v ?_
  rw [(placed.filed.iff v b).2 member]
  exact Option.some_ne_none b

theorem Placed.of_samePlaces (h : g.Placed) (same : g.SamePlaces g') : g'.Placed := by
  refine ⟨?_, fun v b hv => ?_, fun b => ?_⟩
  · rw [show g'.parentOf = g.parentOf from funext same.parents,
      show g'.instsOf = g.instsOf from funext same.insts]
    exact h.filed
  · rw [same.parents] at hv
    rw [same.kinds v (by simp [hv])]
    exact h.inst v b hv
  · rw [same.insts]
    refine (h.phisFirst b).imp_of_mem fun {v u} hv hu first => ?_
    rw [isPhi_iff, isPhi_iff, same.kinds_listed h hv, same.kinds_listed h hu, ← isPhi_iff, ← isPhi_iff]
    exact first

theorem kindOf_mapValues {f : ValueId → Value → Value} (same : ∀ x e, (f x e).kind = e.kind)
    (v : ValueId) : (g.mapValues f).kindOf v = g.kindOf v := by
  simp only [kindOf, getElem?_mapValues]
  cases g.values[v]? <;> simp [same]

theorem samePlaces_mapValues {f : ValueId → Value → Value} (parent : ∀ x e, (f x e).parent = e.parent)
    (kind : ∀ x e, (f x e).kind = e.kind) : g.SamePlaces (g.mapValues f) where
  insts _ := rfl
  parents v := by
    simp only [parentOf, getElem?_mapValues]
    cases g.values[v]? <;> simp [parent]
  kinds v _ := kindOf_mapValues kind v

theorem samePlaces_mapBlocks {f : BlockId → Block → Block} (same : ∀ x b, (f x b).insts = b.insts) :
    g.SamePlaces (g.mapBlocks f) where
  insts _ := list_mapBlocks Block.insts (fun _ l => l) same fun _ => rfl
  parents _ := rfl
  kinds _ _ := rfl

theorem samePlaces_entered (num : g.Numbered) {e : Value} (idle : e.Idle) :
    g.SamePlaces (g.entered e) := by
  have new : g.parentOf g.next = none := by
    rw [parentOf, num.values_next]
    rfl
  refine ⟨fun _ => rfl, fun v => ?_, fun v hv => ?_⟩
  · by_cases hv : v = g.next
    · rw [hv, new, parentOf, getElem?_entered_self]
      exact idle.parent
    · rw [parentOf, getElem?_entered_of_ne hv, parentOf]
      cases g.values[v]? <;> rfl
  · have hne : v ≠ g.next := fun h => hv (h ▸ new)
    rw [kindOf, getElem?_entered_of_ne hne, kindOf]
    cases g.values[v]? <;> rfl

theorem samePlaces_without {v : ValueId} {entry : Value} (found : g.values[v]? = some entry)
    (detached : entry.parent = none) : g.SamePlaces (g.without v entry.operands) := by
  have gone : g.parentOf v = none := by
    rw [parentOf, found]
    exact detached
  refine ⟨fun _ => rfl, fun x => ?_, fun x hx => ?_⟩
  · by_cases hx : x = v
    · rw [hx, gone, parentOf, getElem?_without_self]
      rfl
    · rw [parentOf, getElem?_without_of_ne hx, parentOf]
      cases g.values[x]? <;> rfl
  · have hne : x ≠ v := fun h => hx (h ▸ gone)
    rw [kindOf, getElem?_without_of_ne hne, kindOf]
    cases g.values[x]? <;> rfl

theorem Grown.samePlaces (h : g.Grown g') : g.SamePlaces g' := by
  have new : ∀ v ∉ g.values, g.parentOf v = none := by
    intro v hv
    have dead : g.values[v]? = none := by simpa using hv
    rw [parentOf, dead]
    rfl
  refine ⟨fun b => ?_, fun v => ?_, fun v hv => ?_⟩
  · rw [instsOf, h.blocks]
    rfl
  · by_cases hv : v ∈ g.values
    · rw [parentOf, h.old v hv]
      rfl
    · rw [new v hv, parentOf]
      cases he : g'.values[v]? with
      | none => rfl
      | some e => exact (h.new v e hv he).1.parent
  · have live : v ∈ g.values := Decidable.not_not.1 fun dead => hv (new v dead)
    rw [kindOf, h.old v live]
    rfl

/-! ## Attaching and detaching -/

theorem parentOf_moved {inst : ValueId} {v : Value} (hv : g.values[inst]? = some v)
    (parent : Option BlockId) :
    (g.mapValues (Value.moved inst parent)).parentOf =
      fun x => if x = inst then parent else g.parentOf x := by
  funext x
  simp only [parentOf, getElem?_mapValues]
  by_cases hx : x = inst
  · simp [hx, hv, Value.moved]
  · cases g.values[x]? <;> simp [hx, Value.moved]

theorem instsOf_eq {block : BlockId} {b : Block} (hb : g.blocks[block]? = some b) :
    g.instsOf block = b.insts := by
  simp [instsOf, hb]

theorem mem_instsOf {v : ValueId} {bb : BlockId} :
    v ∈ g.instsOf bb ↔ ∃ b, g.blocks[bb]? = some b ∧ v ∈ b.insts := by
  unfold instsOf
  cases g.blocks[bb]? <;> simp

theorem Placed.block_of_parent (h : g.Placed) {v : ValueId} {b : BlockId}
    (attached : g.parentOf v = some b) : b ∈ g.blocks := by
  obtain ⟨block, found, -⟩ := mem_instsOf.1 ((h.filed.iff v b).1 attached)
  exact Table.mem_of_getElem? found

/-- A phi goes behind phis only and anything else to the end, so the phis stay in front. -/
theorem pairwise_spot {isPhi : ValueId → Prop} {inst : ValueId} {before after : List ValueId}
    (sorted : (before ++ after).Pairwise fun v u => isPhi u → isPhi v)
    (phi : isPhi inst → ∀ v ∈ before, isPhi v) (other : ¬isPhi inst → after = []) :
    (before ++ inst :: after).Pairwise fun v u => isPhi u → isPhi v := by
  obtain ⟨left, right, -⟩ := List.pairwise_append.1 sorted
  by_cases hi : isPhi inst
  · exact List.pairwise_append.2
      ⟨left, List.pairwise_cons.2 ⟨fun _ _ _ => hi, right⟩, fun v hv _ _ _ => phi hi v hv⟩
  · rw [other hi]
    refine List.pairwise_append.2 ⟨left, List.pairwise_singleton _ _, fun v hv u hu phi => ?_⟩
    rw [List.mem_singleton.1 hu] at phi
    exact absurd phi hi

theorem instsOf_placed {inst : ValueId} {block : BlockId} {insts targets : List ValueId}
    (live : block ∈ g.blocks) : (g.placed inst block insts targets).instsOf =
      fun x => if x = block then insts else g.instsOf x := by
  funext x
  refine list_mapBlocks (g := g.mapValues _) Block.insts (fun x l => if x = block then insts else l)
    (fun _ _ => rfl) fun dead => if_neg fun heq => dead ?_
  rw [heq]
  exact live

theorem instsOf_displaced {inst : ValueId} {block : BlockId} {gone : List BlockId} :
    (g.displaced inst block gone).instsOf =
      fun x => if x = block then (g.instsOf x).filter (· ≠ inst) else g.instsOf x := by
  funext x
  exact list_mapBlocks (g := g.mapValues _) Block.insts
    (fun x l => if x = block then l.filter (· ≠ inst) else l) (fun _ _ => rfl) fun _ => by simp

theorem Placed.placed (h : g.Placed) {inst : ValueId} {block : BlockId} {v : Value} {b : Block}
    {targets before after : List ValueId} (entry : g.values[inst]? = some v)
    (kind : v.kind.isInst = true) (detached : v.parent = none) (spotBlock : g.blocks[block]? = some b)
    (insts : b.insts = before ++ after) (spot : g.Spot (v.kind = .phi) before after) :
    (g.placed inst block (before ++ inst :: after) targets).Placed := by
  have free : g.parentOf inst = none := by
    rw [parentOf, entry]
    exact detached
  have own : g.kindOf inst = some v.kind := by
    rw [kindOf, entry]
    rfl
  have list : g.instsOf block = before ++ after := (instsOf_eq spotBlock).trans insts
  have parents : (g.placed inst block (before ++ inst :: after) targets).parentOf = _ :=
    parentOf_moved entry (some block)
  have lists : (g.placed inst block (before ++ inst :: after) targets).instsOf = _ :=
    instsOf_placed (Table.mem_of_getElem? spotBlock)
  have kinds : ∀ x, (g.placed inst block (before ++ inst :: after) targets).kindOf x = g.kindOf x :=
    kindOf_mapValues fun _ _ => rfl
  refine ⟨?_, fun u x hu => ?_, fun x => ?_⟩
  · rw [parents, lists]
    exact h.filed.insert free list
  · rw [kinds]
    by_cases hui : u = inst
    · exact ⟨v.kind, hui ▸ own, kind⟩
    · simp only [parents, if_neg hui] at hu
      exact h.inst u x hu
  · simp only [lists, isPhi_iff, kinds]
    simp only [← isPhi_iff]
    split
    · refine pairwise_spot (list ▸ h.phisFirst block) (fun phi => ?_) (fun other => ?_)
      · rw [isPhi_iff, own] at phi
        exact (spot.phi (Option.some.inj phi)).1
      · rw [isPhi_iff, own] at other
        exact spot.other fun phi => other (congrArg some phi)
    · exact h.phisFirst x

theorem Placed.displaced (h : g.Placed) {inst : ValueId} {block : BlockId} {v : Value}
    {gone : List BlockId} (entry : g.values[inst]? = some v) (attached : v.parent = some block) :
    (g.displaced inst block gone).Placed := by
  have filed : g.parentOf inst = some block := by
    rw [parentOf, entry]
    exact attached
  have parents : (g.displaced inst block gone).parentOf = _ := parentOf_moved entry none
  have lists : (g.displaced inst block gone).instsOf = _ := instsOf_displaced
  have kinds : ∀ x, (g.displaced inst block gone).kindOf x = g.kindOf x :=
    kindOf_mapValues fun _ _ => rfl
  refine ⟨?_, fun u x hu => ?_, fun x => ?_⟩
  · rw [parents, lists]
    exact h.filed.erase filed
  · rw [kinds]
    by_cases hui : u = inst
    · simp [parents, hui] at hu
    · simp only [parents, if_neg hui] at hu
      exact h.inst u x hu
  · simp only [lists, isPhi_iff, kinds]
    simp only [← isPhi_iff]
    split
    · exact (h.phisFirst x).filter _
    · exact h.phisFirst x

theorem samePlaces_rewired (u : Use) (old new : ValueId) : g.SamePlaces (g.rewired u old new) :=
  samePlaces_mapValues (fun _ _ => rfl) fun _ _ => rfl

theorem samePlaces_extended (user : ValueId) (len : Nat) (operand : ValueId) :
    g.SamePlaces (g.extended user len operand) :=
  samePlaces_mapValues (fun _ _ => rfl) fun _ _ => rfl

theorem Placed.rewired (h : g.Placed) (u : Use) (old new : ValueId) : (g.rewired u old new).Placed :=
  h.of_samePlaces (samePlaces_rewired u old new)

/-- What a change does to the lists of instructions: nothing, or one instruction is attached or
detached. -/
inductive Moved (g : Graph) : Graph → Prop
  | stayed {g' : Graph} (same : g.SamePlaces g') : Moved g g'
  | placed {inst : ValueId} {block : BlockId} {v : Value} {b : Block}
      {targets before after : List ValueId} (entry : g.values[inst]? = some v)
      (kind : v.kind.isInst = true) (detached : v.parent = none) (spotBlock : g.blocks[block]? = some b)
      (insts : b.insts = before ++ after) (spot : g.Spot (v.kind = .phi) before after) :
      Moved g (g.placed inst block (before ++ inst :: after) targets)
  | displaced {inst : ValueId} {block : BlockId} {v : Value} {gone : List BlockId}
      (entry : g.values[inst]? = some v) (attached : v.parent = some block) :
      Moved g (g.displaced inst block gone)

theorem ChangeBy.moved {writes : Prop} (num : g.Numbered) (change : g.ChangeBy writes g') :
    g.Moved g' := by
  cases change with
  | enter drafted => exact .stayed (samePlaces_entered num (Draft.value_plain drafted).toIdle)
  | rename =>
    refine .stayed (samePlaces_mapValues (fun x e => ?_) fun x e => ?_)
    · split <;> rfl
    · split <;> rfl
  | rewire => exact .stayed (samePlaces_rewired ..)
  | retarget => exact .stayed ((samePlaces_rewired ..).trans (samePlaces_mapBlocks fun _ _ => rfl))
  | incoming => exact .stayed ((samePlaces_extended ..).trans (samePlaces_extended ..))
  | place entry kind detached spotBlock branch live insts spot =>
    exact .placed entry kind detached spotBlock insts spot
  | displace entry attached => exact .displaced entry attached
  | @block v f func idle kind found defined =>
    have same := samePlaces_entered num idle
    exact .stayed ⟨list_withBlock num Block.insts rfl, same.parents, same.kinds⟩

theorem Placed.moved (h : g.Placed) (moved : g.Moved g') : g'.Placed := by
  cases moved with
  | stayed same => exact h.of_samePlaces same
  | placed entry kind detached spotBlock insts spot =>
    exact h.placed entry kind detached spotBlock insts spot
  | displaced entry attached => exact h.displaced entry attached

end Graph

/-! ## Built workspaces -/

namespace Workspace

variable {w w' : Workspace}

theorem ChangeBy.moved {writes : Prop} (built : w.Built) (change : w.ChangeBy writes w') :
    w.graph.Moved w'.graph := by
  have num := built.numbered
  cases change with
  | graph change => exact change.moved num
  | function idle kind ty plain => exact .stayed (grown_withFunction num idle kind plain _).samePlaces
  | global plain => exact .stayed (Graph.samePlaces_entered num plain.toIdle)
  | restore found => exact .stayed (Graph.samePlaces_entered num (built.stored _ _ found).toIdle)
  | discard found unused detached => exact .stayed (Graph.samePlaces_without found detached)

theorem Built.placed (h : w.Built) : w.graph.Placed := by
  refine Built.invariant (P := fun w => w.graph.Placed) (fun name => ?_)
    (fun {w w'} built placed step => placed.moved (step.moved built)) h
  refine ⟨⟨fun v b => ?_, fun b => ?_⟩, fun v b hv => ?_, fun b => ?_⟩
  · simp [Graph.parentOf, Graph.instsOf, start, graph]
  · simp [Graph.instsOf, start, graph]
  · simp [Graph.parentOf, start, graph] at hv
  · simp [Graph.instsOf, start, graph]

end Workspace

end SsaGraph
