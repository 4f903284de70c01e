import SsaGraph.Graph.Lookup
import SsaGraph.Proofs.Runs

/-!
# Where things stand

An instruction knows its block and the block lists its instructions (`Graph.Placed`); a block knows its
function and the function lists its blocks; a program lists its functions.

Results:
* `Built.owned`, `Built.laidOut`: the lists of functions are right in every built workspace;
* `arranged`: after every run each instruction, block and function is listed once and in its place.
-/
namespace SsaGraph

namespace Graph

variable {g g' : Graph}

/-! ## Blocks -/

def funcOf (g : Graph) (b : BlockId) : Option FuncId := g.blocks[b]?.map Block.function

/-- The blocks of the function, none if there is no such function. -/
def blocksOf (g : Graph) (f : FuncId) : List BlockId := (g.functions[f]?.map Func.blocks).getD []

/-- Functions list the blocks that belong to them, and declarations have none. -/
structure Owned (g : Graph) : Prop where
  filed : Filed g.funcOf g.blocksOf
  bodies : ∀ (f : FuncId) (func : Func), g.functions[f]? = some func →
    func.isDecl = true → func.blocks = []

theorem funcOf_mapBlocks {f : BlockId → Block → Block} (same : ∀ x b, (f x b).function = b.function)
    (x : BlockId) : (g.mapBlocks f).funcOf x = g.funcOf x := by
  simp only [funcOf, getElem?_mapBlocks]
  cases g.blocks[x]? <;> simp [same]

theorem Owned.mapBlocks (h : g.Owned) {f : BlockId → Block → Block}
    (same : ∀ x b, (f x b).function = b.function) : (g.mapBlocks f).Owned := by
  refine ⟨?_, h.bodies⟩
  rw [show (g.mapBlocks f).funcOf = g.funcOf from funext (funcOf_mapBlocks same)]
  exact h.filed

theorem Owned.withBlock (h : g.Owned) (num : g.Numbered) {v : Value} {f : FuncId} {func : Func}
    (found : g.functions[f]? = some func) (defined : func.isDecl = false) :
    (g.withBlock v f func).Owned := by
  have free : g.funcOf g.next = none := by
    rw [funcOf, num.blocks_next]
    rfl
  have list : g.blocksOf f = func.blocks ++ [] := by simp [blocksOf, found]
  have owners : (g.withBlock v f func).funcOf = fun x => if x = g.next then some f else g.funcOf x := by
    funext x
    simp only [funcOf, Graph.withBlock, Std.ExtTreeMap.getElem?_insert,
      Std.LawfulEqCmp.compare_eq_iff_eq, eq_comm (a := g.next)]
    split <;> rfl
  have lists : (g.withBlock v f func).blocksOf =
      fun p => if p = f then func.blocks ++ g.next :: [] else g.blocksOf p := by
    funext p
    simp only [blocksOf, Graph.withBlock, Std.ExtTreeMap.getElem?_insert,
      Std.LawfulEqCmp.compare_eq_iff_eq, eq_comm (a := f)]
    split <;> rfl
  refine ⟨?_, fun p F hp decl => ?_⟩
  · rw [owners, lists]
    exact h.filed.insert free list
  · simp only [Graph.withBlock, Std.ExtTreeMap.getElem?_insert] at hp
    split at hp
    · cases hp
      rw [defined] at decl
      cases decl
    · exact h.bodies p F hp decl

theorem Owned.change (h : g.Owned) (num : g.Numbered) (change : g.Change g') : g'.Owned := by
  cases change with
  | enter | rename | rewire | incoming => exact ⟨h.filed, h.bodies⟩
  | retarget =>
    refine Owned.mapBlocks (g := g.rewired _ _ _) ⟨h.filed, h.bodies⟩ fun _ _ => rfl
  | place =>
    refine Owned.mapBlocks (g := g.mapValues _) ⟨h.filed, h.bodies⟩ fun _ _ => rfl
  | displace =>
    refine Owned.mapBlocks (g := g.mapValues _) ⟨h.filed, h.bodies⟩ fun _ _ => rfl
  | block idle kind found defined => exact h.withBlock num found defined

theorem ChangeBy.mem_functions {writes : Prop} (change : g.ChangeBy writes g') (f : FuncId) :
    f ∈ g'.functions ↔ f ∈ g.functions := by
  cases change with
  | enter | rename | rewire | retarget | incoming | place | displace => rfl
  | block idle kind found defined =>
    simp only [withBlock, Std.ExtTreeMap.mem_insert, Std.LawfulEqCmp.compare_eq_iff_eq]
    refine ⟨fun hf => ?_, .inr⟩
    rcases hf with rfl | hf
    · exact Table.mem_of_getElem? found
    · exact hf

/-! ## Reading the lists -/

theorem mem_blocksOf {bb : BlockId} {f : FuncId} :
    bb ∈ g.blocksOf f ↔ ∃ func, g.functions[f]? = some func ∧ bb ∈ func.blocks := by
  unfold blocksOf
  cases g.functions[f]? <;> simp

theorem funcOf_eq_some {bb : BlockId} {f : FuncId} :
    g.funcOf bb = some f ↔ ∃ b, g.blocks[bb]? = some b ∧ b.function = f :=
  Option.map_eq_some_iff

theorem instFunc_eq_some {v : ValueId} {f : FuncId} : g.instFunc v = .ok (some f) ↔
    ∃ bb, g.parentOf v = some bb ∧ g.funcOf bb = some f := by
  simp only [instFunc, instBlock, bind_eq_ok, pure_eq_ok, value_eq_ok, parentOf_eq_some, funcOf_eq_some]
  refine ⟨fun h => ?_, fun h => ?_⟩
  · obtain ⟨_, ⟨e, he, rfl⟩, h⟩ := h
    split at h
    · rw [pure_eq_ok] at h
      cases h
    · rename_i bb hbb
      simp only [bind_eq_ok, block_eq_ok, pure_eq_ok, Option.some.injEq] at h
      obtain ⟨b, hb, rfl⟩ := h
      exact ⟨bb, ⟨e, he, hbb⟩, b, hb, rfl⟩
  · obtain ⟨bb, ⟨e, he, hbb⟩, b, hb, rfl⟩ := h
    refine ⟨some bb, ⟨e, he, hbb.symm⟩, ?_⟩
    simp only [bind_eq_ok, block_eq_ok, pure_eq_ok]
    exact ⟨b, hb, rfl⟩

end Graph

/-! ## Every run -/

namespace Workspace

variable {w : Workspace}

theorem Built.owned (h : w.Built) : w.graph.Owned := by
  refine Built.invariant (P := fun w => w.graph.Owned) (fun name => ?_)
    (fun {w w'} built owned step => ?_) h
  · refine ⟨⟨fun v b => ?_, fun b => ?_⟩, fun f func hf => ?_⟩
    · simp [Graph.funcOf, Graph.blocksOf, start, graph]
    · simp [Graph.blocksOf, start, graph]
    · simp [start, graph] at hf
  · cases step with
    | graph change => exact owned.change built.numbered change
    | @function v params func idle kind ty plain blocks ids =>
      have grown := grown_withFunction built.numbered idle kind plain func
      refine ⟨?_, fun f F hf decl => ?_⟩
      · have owners : (w.withFunction v params func).graph.funcOf = w.graph.funcOf := by
          funext x
          rw [Graph.funcOf, grown.blocks]
          rfl
        have lists : (w.withFunction v params func).graph.blocksOf = w.graph.blocksOf := by
          funext f
          simp only [Graph.blocksOf, functions_withFunction, Std.ExtTreeMap.getElem?_insert,
            Std.LawfulEqCmp.compare_eq_iff_eq]
          split
          · rename_i hf
            rw [← hf, built.numbered.functions_next]
            simp [blocks]
          · rfl
        rw [owners, lists]
        exact owned.filed
      · rw [functions_withFunction, Std.ExtTreeMap.getElem?_insert] at hf
        split at hf
        · cases hf
          exact blocks
        · exact owned.bodies f F hf decl
    | global | restore | discard => exact ⟨owned.filed, owned.bodies⟩

/-- The layout lists the functions of the graph, each once. -/
structure LaidOut (w : Workspace) : Prop where
  nodup : w.program.functions.Nodup
  mem : ∀ f, f ∈ w.program.functions ↔ f ∈ w.graph.functions

theorem Built.laidOut (h : w.Built) : w.LaidOut := by
  refine Built.invariant (P := LaidOut) (fun name => ?_) (fun {w w'} built laid step => ?_) h
  · exact ⟨by simp [start], by simp [start, graph]⟩
  · cases step with
    | graph change => exact ⟨laid.nodup, fun f => (laid.mem f).trans (change.mem_functions f).symm⟩
    | @function v params func idle kind ty plain blocks ids =>
      have new : w.graph.next ∉ w.program.functions := by
        rw [laid.mem]
        simpa using built.numbered.functions_next
      refine ⟨?_, fun f => ?_⟩
      · refine List.nodup_append.2 ⟨laid.nodup, List.nodup_singleton _, fun f hf f' hf' heq => ?_⟩
        rw [List.mem_singleton.1 hf'] at heq
        exact new (heq ▸ hf)
      · rw [functions_withFunction, Std.ExtTreeMap.mem_insert, Std.LawfulEqCmp.compare_eq_iff_eq]
        simp only [withFunction, List.mem_append, List.mem_singleton, laid.mem]
        rw [or_comm, eq_comm]
    | global | restore | discard => exact ⟨laid.nodup, laid.mem⟩

/-- Instructions, blocks and functions are listed where they belong, each once, and nothing else is. -/
structure Arranged (w : Workspace) : Prop where
  parent_iff : ∀ (v : ValueId) (e : Value), w.graph.values[v]? = some e → ∀ bb : BlockId,
    (e.parent = some bb ↔ ∃ b, w.graph.blocks[bb]? = some b ∧ v ∈ b.insts)
  insts_once : ∀ (bb : BlockId) (b : Block), w.graph.blocks[bb]? = some b →
    ∀ v ∈ b.insts, b.insts.count v = 1
  insts_only : ∀ (bb : BlockId) (b : Block), w.graph.blocks[bb]? = some b → ∀ v ∈ b.insts,
    ∃ e, w.graph.values[v]? = some e ∧ e.kind.isInst = true
  /-- What stands before a phi is a phi. -/
  phis_first : ∀ (bb : BlockId) (b : Block), w.graph.blocks[bb]? = some b →
    b.insts.Pairwise fun v u => w.graph.IsPhi u → w.graph.IsPhi v
  block_once : ∀ (bb : BlockId) (b : Block), w.graph.blocks[bb]? = some b →
    b.function ∈ w.graph.functions ∧ ∀ (f : FuncId) (func : Func), w.graph.functions[f]? = some func →
      func.blocks.count bb = if f = b.function then 1 else 0
  block_only : ∀ (f : FuncId) (func : Func), w.graph.functions[f]? = some func → ∀ bb ∈ func.blocks,
    ∃ b, w.graph.blocks[bb]? = some b ∧ b.function = f
  decl_empty : ∀ (f : FuncId) (func : Func), w.graph.functions[f]? = some func →
    func.isDecl = true → func.blocks = []
  function_once : ∀ f, w.program.functions.count f = if f ∈ w.graph.functions then 1 else 0

/-- After every run everything is listed in its place. So the function of an instruction is the one
that lists the block that lists the instruction. -/
theorem arranged (h : w.Reachable) :
    w.Arranged ∧ ∀ v f, w.graph.instFunc v = .ok (some f) ↔
      ∃ func bb b, w.graph.functions[f]? = some func ∧ bb ∈ func.blocks ∧
        w.graph.blocks[bb]? = some b ∧ v ∈ b.insts := by
  have placed := h.built.placed
  have owned := h.built.owned
  have laid := h.built.laidOut
  refine ⟨⟨fun v e he bb => ?_, fun bb b hb v hv => ?_, fun bb b hb v hv => ?_, fun bb b hb => ?_,
    fun bb b hb => ?_, fun f func hf bb hbb => ?_, owned.bodies, fun f => ?_⟩, fun v f => ?_⟩
  · rw [← Graph.mem_instsOf, ← placed.filed.iff, Graph.parentOf_eq_some]
    simp [he]
  · rw [← Graph.instsOf_eq hb] at hv ⊢
    exact List.count_eq_one_of_mem (placed.filed.nodup bb) hv
  · obtain ⟨k, hk, inst⟩ := placed.inst v bb ((placed.filed.iff v bb).2 (Graph.mem_instsOf.2 ⟨b, hb, hv⟩))
    obtain ⟨e, he, rfl⟩ := Option.map_eq_some_iff.1 hk
    exact ⟨e, he, inst⟩
  · rw [← Graph.instsOf_eq hb]
    exact placed.phisFirst bb
  · have own : w.graph.funcOf bb = some b.function := Graph.funcOf_eq_some.2 ⟨b, hb, rfl⟩
    obtain ⟨func, hf, -⟩ := Graph.mem_blocksOf.1 ((owned.filed.iff bb b.function).1 own)
    refine ⟨Table.mem_of_getElem? hf, fun f func hf => ?_⟩
    have count := owned.filed.count bb f
    simp only [own, Graph.blocksOf, hf, Option.map_some, Option.getD_some, Option.some.injEq] at count
    simpa only [eq_comm] using count
  · exact Graph.funcOf_eq_some.1 ((owned.filed.iff bb f).2 (Graph.mem_blocksOf.2 ⟨func, hf, hbb⟩))
  · rw [laid.nodup.count]
    simp only [laid.mem]
  · rw [Graph.instFunc_eq_some]
    simp only [placed.filed.iff, owned.filed.iff, Graph.mem_instsOf, Graph.mem_blocksOf]
    refine ⟨fun h => ?_, fun h => ?_⟩
    · obtain ⟨bb, ⟨b, hb, hv⟩, func, hf, hbb⟩ := h
      exact ⟨func, bb, b, hf, hbb, hb, hv⟩
    · obtain ⟨func, bb, b, hf, hbb, hb, hv⟩ := h
      exact ⟨bb, ⟨b, hb, hv⟩, func, hf, hbb⟩

/-- The addition that was put back follows the phi in the second block, which the function lists. -/
theorem arranged_loop : loop.Reachable ∧ loop.graph.instFunc 9 = .ok (some 1) ∧
    loop.graph.instsOf 3 = [7, 9, 10] ∧ loop.graph.blocksOf 1 = [2, 3] ∧
    ∃ func bb b, loop.graph.functions[1]? = some func ∧ bb ∈ func.blocks ∧
      loop.graph.blocks[bb]? = some b ∧ 9 ∈ b.insts := by
  have read : loop.graph.instFunc 9 = .ok (some 1) := by decide +kernel
  exact ⟨reachable_loop, read, by decide +kernel, by decide +kernel,
    ((arranged reachable_loop).2 9 1).1 read⟩

end Workspace

end SsaGraph
