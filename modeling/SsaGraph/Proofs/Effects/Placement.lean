import Mathlib.Data.List.Nodup
import SsaGraph.Proofs.Effects.Edges

/-!
# Attaching and detaching instructions

`Graph.placed` is the graph after an instruction was attached and `Graph.displaced` the graph after
one was detached. A `Graph.Spot` is the place of a new instruction in a list.
-/
namespace SsaGraph

/-- Value `x` once the parent of `inst` is set. -/
def Value.moved (inst : ValueId) (parent : Option BlockId) (x : ValueId) (v : Value) : Value :=
  { v with parent := if x = inst then parent else v.parent }

/-- Block `x` once `block` has the instruction list. -/
def Block.relisted (block : BlockId) (insts : List ValueId) (x : BlockId) (b : Block) : Block :=
  { b with insts := if x = block then insts else b.insts }

theorem Value.moved_eq (inst : ValueId) (parent : Option BlockId) (x : ValueId) (v : Value) :
    (if x = inst then { v with parent } else v) = v.moved inst parent x := by
  unfold moved
  split <;> rfl

theorem Block.relisted_eq (block : BlockId) (insts : List ValueId) (x : BlockId) (b : Block) :
    (if x = block then { b with insts } else b) = b.relisted block insts x := by
  unfold relisted
  split <;> rfl

namespace Graph

variable {g g' : Graph} {inst : ValueId} {block : BlockId}

def IsPhi (g : Graph) (v : ValueId) : Prop := ∃ e, g.values[v]? = some e ∧ e.kind = .phi

/-- The graph with `inst` attached to `block` and the edges to the targets recorded. -/
def placed (g : Graph) (inst : ValueId) (block : BlockId) (insts targets : List ValueId) : Graph :=
  (g.mapValues (Value.moved inst (some block))).mapBlocks fun x b =>
    (b.relisted block insts x).linked block targets.reverse x

/-- The graph with `inst` detached from `block` and the edges to `gone` forgotten. -/
def displaced (g : Graph) (inst : ValueId) (block : BlockId) (gone : List BlockId) : Graph :=
  (g.mapValues (Value.moved inst none)).mapBlocks fun x b =>
    let b := b.unlinked block gone x
    b.relisted block (b.insts.filter (· ≠ inst)) x

theorem splitPhis_ok {insts phis others : List ValueId} (h : g.splitPhis insts = .ok (phis, others)) :
    insts = phis ++ others ∧ (∀ v ∈ phis, g.IsPhi v) ∧ ∀ v ∈ others.head?, ¬g.IsPhi v := by
  induction insts generalizing phis with
  | nil =>
    cases h
    simp
  | cons v insts ih =>
    simp only [splitPhis, bind_eq_ok, value_eq_ok] at h
    obtain ⟨e, he, h⟩ := h
    split at h
    · rename_i phi
      simp only [bind_eq_ok, pure_eq_ok, Prod.exists, Prod.mk.injEq] at h
      obtain ⟨rest, _, hs, rfl, rfl⟩ := h
      obtain ⟨rfl, hp, ho⟩ := ih hs
      refine ⟨rfl, ?_, ho⟩
      intro w hw
      rcases List.mem_cons.1 hw with rfl | hw
      · exact ⟨e, he, phi⟩
      · exact hp w hw
    · rename_i phi
      simp only [pure_eq_ok, Prod.mk.injEq] at h
      obtain ⟨rfl, rfl⟩ := h
      refine ⟨rfl, by simp, ?_⟩
      rintro w hw ⟨e', he', phi'⟩
      simp only [List.head?_cons, Option.mem_def, Option.some.injEq] at hw
      subst hw
      rw [he] at he'
      cases he'
      exact phi phi'

/-- The two ends of the list around a new instruction. -/
structure Spot (g : Graph) (isPhi : Prop) (before after : List ValueId) : Prop where
  phi : isPhi → (∀ v ∈ before, g.IsPhi v) ∧ ∀ v ∈ after.head?, ¬g.IsPhi v
  other : ¬isPhi → after = []

theorem pushKeys_eq_true {list keys list' : List ValueId} : pushKeys list keys = (true, list') ↔
    keys.Nodup ∧ (∀ key ∈ keys, key ∉ list) ∧ list' = list ++ keys := by
  induction keys generalizing list with
  | nil => simp [pushKeys, eq_comm]
  | cons key keys ih =>
    unfold pushKeys
    split
    · rename_i taken
      simp [taken]
    · rename_i free
      rw [ih]
      simp only [List.mem_append, List.mem_singleton, List.nodup_cons, List.forall_mem_cons,
        List.append_assoc, List.singleton_append]
      grind

/-- All handles go in when they are new and differ from each other. -/
theorem pushKeys_of_nodup {list keys : List ValueId} (nodup : (list ++ keys).Nodup) :
    pushKeys list keys = (true, list ++ keys) := by
  obtain ⟨-, own, apart⟩ := List.nodup_append.1 nodup
  exact pushKeys_eq_true.2 ⟨own, fun key hk taken => apart key taken key hk rfl, rfl⟩

theorem insertInst_ok {isPhi : Bool} {insts insts' : List ValueId}
    (h : g.insertInst inst isPhi insts = .ok (true, insts')) :
    ∃ before after, insts = before ++ after ∧ insts' = before ++ inst :: after ∧ inst ∉ insts ∧
      g.Spot (isPhi = true) before after := by
  unfold insertInst at h
  split at h
  · rename_i phi
    simp only [bind_eq_ok, pure_eq_ok, Prod.exists] at h
    obtain ⟨phis, others, hs, h⟩ := h
    obtain ⟨rfl, hp, ho⟩ := splitPhis_ok hs
    obtain ⟨nodup, fresh, rfl⟩ := pushKeys_eq_true.1 h.symm
    refine ⟨phis, others, rfl, rfl, ?_, fun _ => ⟨hp, ho⟩, fun n => absurd phi n⟩
    rw [List.mem_append, not_or]
    exact ⟨fresh inst (List.mem_cons_self ..), (List.nodup_cons.1 nodup).1⟩
  · rename_i phi
    rw [pure_eq_ok] at h
    obtain ⟨-, fresh, rfl⟩ := pushKeys_eq_true.1 h.symm
    exact ⟨insts, [], by simp, rfl, fresh inst (List.mem_singleton_self _), fun p => absurd p phi,
      fun _ => rfl⟩

/-- An instruction that is new to a list without repetition goes in. -/
theorem insertInst_fits {isPhi fits : Bool} {insts insts' : List ValueId} (nodup : insts.Nodup)
    (fresh : inst ∉ insts) (h : g.insertInst inst isPhi insts = .ok (fits, insts')) : fits = true := by
  unfold insertInst at h
  split at h
  · simp only [bind_eq_ok, pure_eq_ok, Prod.exists] at h
    obtain ⟨phis, others, hs, h⟩ := h
    obtain ⟨rfl, -, -⟩ := splitPhis_ok hs
    have all : (phis ++ inst :: others).Nodup := List.nodup_middle.2 (List.nodup_cons.2 ⟨fresh, nodup⟩)
    rw [pushKeys_of_nodup all, Prod.mk.injEq] at h
    exact h.1
  · rw [pure_eq_ok] at h
    have all : (insts ++ [inst]).Nodup := by
      rw [List.nodup_middle, List.append_nil]
      exact List.nodup_cons.2 ⟨fresh, nodup⟩
    rw [pushKeys_of_nodup all, Prod.mk.injEq] at h
    exact h.1

theorem place_ok (h : g.place inst block = .ok (.ok (), g')) :
    ∃ v b targets before after, g.values[inst]? = some v ∧ g.blocks[block]? = some b ∧
      inst ∉ b.insts ∧ targetsOf v = .ok targets ∧ (∀ t ∈ targets, t ∈ g.blocks) ∧
      b.insts = before ++ after ∧ g.Spot (v.kind = .phi) before after ∧
      g' = g.placed inst block (before ++ inst :: after) targets := by
  simp only [place, bind_eq_ok, value_eq_ok, block_eq_ok, updateBlock_eq_ok, Prod.exists] at h
  obtain ⟨v, hv, targets, ht, b, hb, fits, insts, hi, _, ⟨-, rfl⟩, h⟩ := h
  split at h
  · simp [pure_eq_ok] at h
  · rename_i fit
    simp only [bind_eq_ok, pure_eq_ok, updateValue_eq_ok, linkAll_eq_ok, Prod.mk.injEq] at h
    obtain ⟨_, ⟨-, rfl⟩, _, ⟨hall, rfl⟩, -, rfl⟩ := h
    rw [Bool.not_eq_false] at fit
    subst fit
    obtain ⟨before, after, hb', rfl, fresh, spot⟩ := insertInst_ok hi
    refine ⟨v, b, targets, before, after, hv, hb, fresh, ht, fun t m => by simpa using (hall t m).1, hb',
      by simpa using spot, ?_⟩
    simp only [Value.moved_eq, Block.relisted_eq]
    exact mapBlocks_mapBlocks (g := g.mapValues (Value.moved inst (some block)))
      (Block.relisted block (before ++ inst :: after)) (Block.linked block targets.reverse)

/-- Only an instruction list that has the instruction already, or has a repetition, refuses it. -/
theorem place_refused {reason : Refusal} {b : Block} (hb : g.blocks[block]? = some b)
    (h : g.place inst block = .ok (.error reason, g')) : ¬(b.insts.Nodup ∧ inst ∉ b.insts) := by
  simp only [place, bind_eq_ok, block_eq_ok, Prod.exists] at h
  obtain ⟨v, -, targets, -, b', hb', fits, insts, hi, g₁, -, h⟩ := h
  rw [hb] at hb'
  cases hb'
  split at h
  · rename_i unfit
    rintro ⟨nodup, fresh⟩
    rw [insertInst_fits nodup fresh hi] at unfit
    cases unfit
  · simp only [bind_eq_ok, pure_eq_ok, Prod.mk.injEq, reduceCtorEq, false_and, and_false,
      exists_false] at h

theorem detach_ok (h : g.detach inst = .ok (.ok block, g')) :
    ∃ v targets gone, g.values[inst]? = some v ∧ v.kind.isInst = true ∧ v.parent = some block ∧
      targetsOf v = .ok targets ∧ (∀ d, d ∈ gone ↔ d ∈ targets ∧ ¬g.RunsAlong (some inst) block d) ∧
      block ∈ g.blocks ∧ g' = g.displaced inst block gone := by
  simp only [detach, bind_eq_ok, value_eq_ok] at h
  obtain ⟨v, hv, h⟩ := h
  split at h
  · simp [pure_eq_ok] at h
  · rename_i hinst
    split at h
    · cases h
    · rename_i src hp
      simp only [bind_eq_ok, pure_eq_ok, updateBlock_eq_ok, updateValue_eq_ok, Prod.mk.injEq,
        Except.ok.injEq] at h
      obtain ⟨targets, ht, _, hu, _, ⟨hm, rfl⟩, _, ⟨-, rfl⟩, rfl, rfl⟩ := h
      obtain ⟨gone, hg, rfl⟩ := foldlM_unlinkUnused_ok hu
      refine ⟨v, targets, gone, hv, by simpa using hinst, hp, ht, hg, by simpa using hm, ?_⟩
      simp only [Value.moved_eq, Block.relisted_eq, mapBlocks_mapBlocks]
      rfl

theorem detach_refused {reason : Refusal} (h : g.detach inst = .ok (.error reason, g')) : g' = g := by
  simp only [detach, bind_eq_ok] at h
  obtain ⟨v, -, h⟩ := h
  split at h
  · simp only [pure_eq_ok, Prod.mk.injEq] at h
    exact h.2
  · split at h
    · cases h
    · simp only [bind_eq_ok, pure_eq_ok, Prod.mk.injEq, reduceCtorEq, false_and, and_false,
        exists_false] at h

end Graph

end SsaGraph
