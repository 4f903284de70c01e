import Mathlib.Data.List.Basic
import SsaGraph.Proofs.Tables

/-!
# Recording and forgetting edges

`Block.linked` and `Block.unlinked` are a block after edges from one source were recorded or
forgotten. Which edges are forgotten depends on the branches that are left: `Graph.RunsAlong` is what
`Graph.hasBranchTo` answers.
-/
namespace SsaGraph

/-! ## Edges -/

/-- The list with one more element at the end, unless it is there already. -/
def pushNew (l : List BlockId) (x : BlockId) : List BlockId := if x ∈ l then l else l ++ [x]

@[simp] theorem mem_pushNew {l : List BlockId} {x y : BlockId} : y ∈ pushNew l x ↔ y ∈ l ∨ y = x := by
  unfold pushNew
  split <;> grind

theorem nodup_pushNew {l : List BlockId} (h : l.Nodup) (x : BlockId) : (pushNew l x).Nodup := by
  unfold pushNew
  split
  · exact h
  · grind

@[simp] theorem mem_foldl_pushNew {l new : List BlockId} {y : BlockId} :
    y ∈ new.foldl pushNew l ↔ y ∈ l ∨ y ∈ new := by
  induction new generalizing l with
  | nil => simp
  | cons x new ih => rw [List.foldl_cons, ih]; simp [or_assoc]

theorem nodup_foldl_pushNew {l : List BlockId} (h : l.Nodup) (new : List BlockId) :
    (new.foldl pushNew l).Nodup := by
  induction new generalizing l with
  | nil => exact h
  | cons x new ih => exact ih (nodup_pushNew h x)

namespace Block

/-- Block `x` once the edges from `src` to the targets are recorded, one after the other. -/
def linked (src : BlockId) (targets : List BlockId) (x : BlockId) (b : Block) : Block :=
  { b with
    preds := if x ∈ targets then pushNew b.preds src else b.preds
    succs := if x = src then targets.foldl pushNew b.succs else b.succs }

/-- Block `x` once the edges from `src` to the targets are forgotten. -/
def unlinked (src : BlockId) (targets : List BlockId) (x : BlockId) (b : Block) : Block :=
  { b with
    preds := if x ∈ targets then b.preds.filter (· ≠ src) else b.preds
    succs := if x = src then b.succs.filter (· ∉ targets) else b.succs }

theorem addPred_eq (p : BlockId) (b : Block) : b.addPred p = { b with preds := pushNew b.preds p } := by
  unfold addPred pushNew
  split <;> rfl

theorem addSucc_eq (s : BlockId) (b : Block) : b.addSucc s = { b with succs := pushNew b.succs s } := by
  unfold addSucc pushNew
  split <;> rfl

theorem unlinked_nil (src x : BlockId) (b : Block) : b.unlinked src [] x = b := by
  have all : b.succs.filter (fun _ => true) = b.succs := List.filter_eq_self.2 (by simp)
  simp [unlinked, all]

theorem unlinked_unlinked (src x : BlockId) (l l' : List BlockId) (b : Block) :
    (b.unlinked src l x).unlinked src l' x = b.unlinked src (l ++ l') x := by
  simp only [unlinked, mk.injEq, true_and, List.mem_append]
  constructor
  · by_cases hl : x ∈ l <;> by_cases hl' : x ∈ l' <;> simp [hl, hl']
  · split
    · rw [List.filter_filter]
      exact List.filter_congr fun s _ => by simp [Bool.and_comm]
    · rfl

end Block

namespace Graph

variable {g g' : Graph} {src dst : BlockId}

theorem foldl_addPred (src x : BlockId) (targets : List BlockId) (b : Block) :
    targets.foldl (fun b dst => if x = dst then b.addPred src else b) b =
      { b with preds := if x ∈ targets then pushNew b.preds src else b.preds } := by
  have idem : ∀ l : List BlockId, pushNew (pushNew l src) src = pushNew l src := by
    intro l
    unfold pushNew
    grind
  induction targets generalizing b with
  | nil => simp
  | cons t targets ih =>
    rw [List.foldl_cons, ih]
    by_cases hx : x = t
    · by_cases hm : x ∈ targets <;> simp [hx, Block.addPred_eq, idem]
    · simp [hx]

theorem foldl_addSucc (src x : BlockId) (targets : List BlockId) (b : Block) :
    targets.foldl (fun b dst => if x = src then b.addSucc dst else b) b =
      { b with succs := if x = src then targets.foldl pushNew b.succs else b.succs } := by
  induction targets generalizing b with
  | nil => simp
  | cons t targets ih =>
    rw [List.foldl_cons, ih]
    split <;> simp [Block.addSucc_eq]

theorem foldlM_updateBlock {key : BlockId → BlockId} {change : BlockId → Block → Block}
    {l : List BlockId} :
    l.foldlM (fun g t => g.updateBlock (key t) (change t)) g = .ok g' ↔
      (∀ t ∈ l, key t ∈ g.blocks) ∧
        g' = g.mapBlocks fun x b => l.foldl (fun b t => if x = key t then change t b else b) b := by
  rw [foldlM_eq_ok (fun _ _ _ => updateBlock_eq_ok) (by simp),
    foldl_mapBlocks fun t x b => if x = key t then change t b else b]

theorem linkAll_eq_ok {targets : List BlockId} :
    g.linkAll src targets = .ok g' ↔ (∀ t ∈ targets, t ∈ g.blocks ∧ src ∈ g.blocks) ∧
      g' = g.mapBlocks (Block.linked src targets.reverse) := by
  have closed : ∀ x (b : Block), targets.reverse.foldl (fun b t => if x = src then b.addSucc t else b)
      (targets.foldl (fun b t => if x = t then b.addPred src else b) b) =
        b.linked src targets.reverse x := by
    intro x b
    rw [foldl_addPred, foldl_addSucc]
    simp only [Block.linked, List.mem_reverse]
  simp only [linkAll, bind_eq_ok, foldlM_updateBlock]
  refine ⟨fun h => ?_, fun h => ?_⟩
  · obtain ⟨_, ⟨ht, rfl⟩, hs, rfl⟩ := h
    refine ⟨fun t h => ⟨ht t h, by simpa using hs t (by simpa using h)⟩, ?_⟩
    simp only [mapBlocks_mapBlocks, closed]
  · obtain ⟨h, rfl⟩ := h
    refine ⟨_, ⟨fun t ht => (h t ht).1, rfl⟩, fun t ht => ?_, ?_⟩
    · simpa using (h t (by simpa using ht)).2
    · simp only [mapBlocks_mapBlocks, closed]

theorem link_eq_ok : g.link src dst = .ok g' ↔ dst ∈ g.blocks ∧ src ∈ g.blocks ∧
    g' = g.mapBlocks (Block.linked src [dst]) := by
  have single : g.link src dst = g.linkAll src [dst] := by simp [link, linkAll]
  rw [single, linkAll_eq_ok]
  simp [and_assoc]

theorem unlink_eq_ok : g.unlink src dst = .ok g' ↔ dst ∈ g.blocks ∧ src ∈ g.blocks ∧
    g' = g.mapBlocks (Block.unlinked src [dst]) := by
  have closed : ∀ x (b : Block), (if x = src then (if x = dst then b.dropPred src else b).dropSucc dst
      else if x = dst then b.dropPred src else b) = b.unlinked src [dst] x := by
    intro x b
    have atDst : (if x = dst then b.dropPred src else b) =
        { b with preds := if x = dst then b.preds.filter (· ≠ src) else b.preds } := by
      split <;> rfl
    rw [atDst]
    split <;> simp_all [Block.unlinked, Block.dropSucc]
  simp only [unlink, bind_eq_ok, updateBlock_eq_ok]
  refine ⟨fun h => ?_, fun h => ?_⟩
  · obtain ⟨_, ⟨hd, rfl⟩, hs, rfl⟩ := h
    refine ⟨hd, by simpa using hs, ?_⟩
    simp only [mapBlocks_mapBlocks, closed]
  · obtain ⟨hd, hs, rfl⟩ := h
    refine ⟨_, ⟨hd, rfl⟩, by simpa using hs, ?_⟩
    simp only [mapBlocks_mapBlocks, closed]

end Graph

/-! ## Branches -/

namespace Value

variable {v : Value} {dst : BlockId}

/-- The value is a branch and `dst` its true, false or only target. -/
def HasTarget (v : Value) (dst : BlockId) : Prop :=
  v.trueTarget = .ok dst ∨ v.falseTarget = .ok dst

theorem operand_eq_ok {i : Nat} {x : ValueId} : v.operand i = .ok x ↔ v.operands[i]? = some x := by
  unfold operand
  split <;> simp_all

theorem isConditional_eq_ok {b : Bool} :
    v.isConditional = .ok b ↔ v.kind = .branch ∧ b = decide (v.operands.length = 3) := by
  simp only [isConditional, bind_eq_ok, require_eq_ok, pure_eq_ok, exists_const]

theorem trueTarget_eq_ok : v.trueTarget = .ok dst ↔
    v.kind = .branch ∧ v.operands[if v.operands.length = 3 then 1 else 0]? = some dst := by
  simp only [trueTarget, bind_eq_ok, isConditional_eq_ok]
  by_cases h : v.operands.length = 3 <;> simp [h, operand_eq_ok]

theorem falseTarget_eq_ok : v.falseTarget = .ok dst ↔
    v.kind = .branch ∧ v.operands.length = 3 ∧ v.operands[2]? = some dst := by
  simp only [falseTarget, bind_eq_ok, isConditional_eq_ok, require_eq_ok, operand_eq_ok]
  by_cases h : v.operands.length = 3 <;> simp [h]

theorem HasTarget.branch (h : v.HasTarget dst) : v.kind = .branch :=
  h.elim (fun t => (trueTarget_eq_ok.1 t).1) fun f => (falseTarget_eq_ok.1 f).1

/-- With one or three operands, the targets are what the block slots hold. -/
theorem hasTarget_iff (branch : v.kind = .branch)
    (arity : v.operands.length = 1 ∨ v.operands.length = 3) :
    v.HasTarget dst ↔ ∃ i, v.isBlockSlot i = true ∧ v.operands[i]? = some dst := by
  unfold HasTarget
  rw [trueTarget_eq_ok, falseTarget_eq_ok]
  simp only [isBlockSlot, branch, true_and, decide_eq_true_eq]
  rcases arity with h | h
  · obtain ⟨a, ha⟩ := List.length_eq_one_iff.1 h
    rw [ha]
    refine ⟨fun t => ?_, fun h => ?_⟩
    · exact ⟨0, by simp, by simpa using t⟩
    · obtain ⟨i | i, -, hi⟩ := h <;> simp_all
  · obtain ⟨a, b, c, ha⟩ := List.length_eq_three.1 h
    rw [ha]
    refine ⟨fun h => ?_, fun h => ?_⟩
    · rcases h with t | f
      · exact ⟨1, by simp, by simpa using t⟩
      · exact ⟨2, by simp, by simpa using f⟩
    · obtain ⟨i | i | i | i, hs, hi⟩ := h <;> simp_all

end Value

namespace Graph

variable {g g' : Graph} {src dst : BlockId}

theorem mem_of_targetsOf {v : Value} {targets : List BlockId} (h : targetsOf v = .ok targets)
    (dst : BlockId) : dst ∈ targets ↔ v.HasTarget dst := by
  unfold targetsOf at h
  split at h
  · rename_i branch
    simp only [Value.targets, bind_eq_ok, Value.isConditional_eq_ok] at h
    obtain ⟨_, ⟨-, rfl⟩, h⟩ := h
    split at h
    · rename_i three
      simp only [bind_eq_ok, pure_eq_ok] at h
      obtain ⟨t, ht, f, hf, rfl⟩ := h
      simp [Value.HasTarget, ht, hf, eq_comm]
    · rename_i three
      simp only [bind_eq_ok, pure_eq_ok] at h
      obtain ⟨t, ht, rfl⟩ := h
      have none : ∀ d, v.falseTarget ≠ .ok d := fun d hd =>
        three (by simpa using (Value.falseTarget_eq_ok.1 hd).2.1)
      simp [Value.HasTarget, ht, none, eq_comm]
  · rename_i branch
    cases h
    simpa using fun t : v.HasTarget dst => branch t.branch

/-- The instruction is a branch with the target. -/
def Jumps (g : Graph) (inst : ValueId) (dst : BlockId) : Prop :=
  ∃ v, g.values[inst]? = some v ∧ v.HasTarget dst

/-- A branch in the list of `src`, other than `except`, has the target `dst`. -/
def RunsAlong (g : Graph) (except : Option ValueId) (src dst : BlockId) : Prop :=
  ∃ b, g.blocks[src]? = some b ∧ ∃ inst ∈ b.insts, some inst ≠ except ∧ g.Jumps inst dst

theorem anyM_eq_ok {α : Type} {p : α → Except Fault Bool} {q : α → Prop}
    (one : ∀ a r, p a = .ok r → (r = true ↔ q a)) {l : List α} {r : Bool} (h : l.anyM p = .ok r) :
    r = true ↔ ∃ a ∈ l, q a := by
  induction l with
  | nil => simp_all [List.anyM, pure_eq_ok]
  | cons a l ih =>
    simp only [List.anyM, bind_eq_ok] at h
    obtain ⟨first, ha, h⟩ := h
    have hq := one a first ha
    cases first with
    | true =>
      rw [pure_eq_ok] at h
      simp_all
    | false =>
      have rest := ih h
      simp_all

theorem hasBranchTo_iff {except : Option ValueId} {r : Bool}
    (h : g.hasBranchTo src dst except = .ok r) : r = true ↔ g.RunsAlong except src dst := by
  simp only [hasBranchTo, bind_eq_ok, block_eq_ok] at h
  obtain ⟨b, hb, h⟩ := h
  have any := anyM_eq_ok (q := fun inst => some inst ≠ except ∧ g.Jumps inst dst) ?_ h
  · rw [any]
    simp [RunsAlong, hb]
  · intro inst r hi
    simp only [bind_eq_ok, value_eq_ok] at hi
    obtain ⟨v, hv, hi⟩ := hi
    split at hi
    · rw [pure_eq_ok] at hi
      simp_all
    · simp only [bind_eq_ok, pure_eq_ok] at hi
      obtain ⟨targets, ht, rfl⟩ := hi
      simp_all [Jumps, mem_of_targetsOf ht]

theorem runsAlong_mapBlocks {f : BlockId → Block → Block} (h : ∀ x b, (f x b).insts = b.insts)
    {except : Option ValueId} :
    (g.mapBlocks f).RunsAlong except src dst ↔ g.RunsAlong except src dst := by
  simp only [RunsAlong, getElem?_mapBlocks, Option.map_eq_some_iff]
  refine ⟨fun h => ?_, fun h => ?_⟩
  · obtain ⟨_, ⟨b, hb, rfl⟩, inst, hi, rest⟩ := h
    exact ⟨b, hb, inst, h src b ▸ hi, rest⟩
  · obtain ⟨b, hb, inst, hi, rest⟩ := h
    exact ⟨_, ⟨b, hb, rfl⟩, inst, (h src b).symm ▸ hi, rest⟩

/-- Of the edges to the targets, those that no other branch runs along are forgotten. -/
theorem unlinkUnused_ok {except : Option ValueId} (h : g.unlinkUnused src dst except = .ok g') :
    ∃ gone, (∀ d, d ∈ gone ↔ d = dst ∧ ¬g.RunsAlong except src d) ∧
      g' = g.mapBlocks (Block.unlinked src gone) := by
  simp only [unlinkUnused, bind_eq_ok] at h
  obtain ⟨used, hu, h⟩ := h
  have runs := hasBranchTo_iff hu
  cases used with
  | true =>
    rw [if_pos rfl, pure_eq_ok] at h
    subst h
    refine ⟨[], ?_, (mapBlocks_id fun x b _ => b.unlinked_nil src x).symm⟩
    grind
  | false =>
    rw [if_neg (by simp), unlink_eq_ok] at h
    refine ⟨[dst], ?_, h.2.2⟩
    grind

theorem foldlM_unlinkUnused_ok {except : Option ValueId} {targets : List BlockId}
    (h : targets.foldlM (fun g dst => g.unlinkUnused src dst except) g = .ok g') :
    ∃ gone, (∀ d, d ∈ gone ↔ d ∈ targets ∧ ¬g.RunsAlong except src d) ∧
      g' = g.mapBlocks (Block.unlinked src gone) := by
  induction targets generalizing g with
  | nil =>
    rw [List.foldlM_nil, pure_eq_ok] at h
    subst h
    exact ⟨[], by simp, (mapBlocks_id fun x b _ => b.unlinked_nil src x).symm⟩
  | cons t targets ih =>
    simp only [List.foldlM_cons, bind_eq_ok] at h
    obtain ⟨_, ht, h⟩ := h
    obtain ⟨gone, hg, rfl⟩ := unlinkUnused_ok ht
    obtain ⟨rest, hr, rfl⟩ := ih h
    have same : ∀ d, (g.mapBlocks (Block.unlinked src gone)).RunsAlong except src d ↔
        g.RunsAlong except src d := fun d =>
      runsAlong_mapBlocks (f := Block.unlinked src gone) fun _ _ => rfl
    refine ⟨gone ++ rest, ?_, ?_⟩
    · intro d
      simp only [List.mem_append, hg, hr, same, List.mem_cons]
      grind
    · simp only [mapBlocks_mapBlocks, Block.unlinked_unlinked]

end Graph

end SsaGraph
