import SsaGraph.Proofs.Attachment

/-!
# Runs of edits

A run starts from a program that holds nothing and performs one edit after the other, with handles
that may or may not exist. An edit that faults ends nothing here, since it leaves no workspace; an
edit that is refused goes on with the workspace it leaves.

`Workspace.Step` is one edit. It is `Workspace.apply`, except that the slots of a replaced value may be
visited in any order. `Workspace.Reachable` is what a run leads to.

Result: `Reachable.built`, every run is made of elementary changes.
-/
namespace SsaGraph

/-! ## Changes of a graph -/

namespace Graph

open Relation

variable {g g' : Graph} {writes : Prop}

/-- The list of a block does not refuse a detached instruction. -/
theorem Placed.place_answer (placed : g.Placed) {inst : ValueId} {block : BlockId} {v : Value}
    {answer : Except Refusal Unit} (hv : g.values[inst]? = some v) (detached : v.parent = none)
    (h : g.place inst block = .ok (answer, g')) : answer = .ok () := by
  cases answer with
  | ok => rfl
  | error reason =>
    have free : g.parentOf inst = none := by
      rw [parentOf, hv]
      exact detached
    obtain ⟨b, hb⟩ : ∃ b, g.blocks[block]? = some b := by
      simp only [place, bind_eq_ok, block_eq_ok] at h
      obtain ⟨_, -, _, -, b, hb, -⟩ := h
      exact ⟨b, hb⟩
    have listed := instsOf_eq hb
    refine absurd ⟨?_, ?_⟩ (place_refused hb h)
    · rw [← listed]
      exact placed.filed.nodup block
    · rw [← listed]
      exact placed.filed.not_mem free

theorem place_changes (placed : g.Placed) {inst : ValueId} {block : BlockId} {v : Value}
    {answer : Except Refusal Unit} (hv : g.values[inst]? = some v) (kind : v.kind.isInst = true)
    (detached : v.parent = none) (h : g.place inst block = .ok (answer, g')) :
    ReflTransGen (ChangeBy writes) g g' := by
  rw [placed.place_answer hv detached h] at h
  obtain ⟨v', b, targets, before, after, hv', hb, -, branch, live, insts, spot, rfl⟩ := place_ok h
  rw [hv] at hv'
  cases hv'
  exact .single (.place hv kind detached hb branch live insts spot)

/-- A value is entered and then, if it is an instruction and has a spot, placed. -/
theorem insert_cases {v : Value} {spot : Option BlockId} {id : ValueId}
    (h : g.insert v spot = .ok (id, g')) :
    g.next + 1 < handleLimit ∧ (∀ op ∈ v.operands, op ∈ g.values) ∧ id = g.next ∧
      (g' = g.entered v ∨
        ∃ block, v.kind.isInst = true ∧ (g.entered v).place g.next block = .ok (.ok (), g')) := by
  simp only [insert, bind_eq_ok, Prod.exists, create_eq_ok] at h
  obtain ⟨_, _, ⟨room, live, rfl, rfl⟩, h⟩ := h
  refine ⟨room, live, ?_⟩
  cases spot with
  | none =>
    simp only [pure_eq_ok, Prod.mk.injEq] at h
    exact ⟨h.1, .inl h.2⟩
  | some block =>
    simp only at h
    split at h
    · rename_i inst
      simp only [bind_eq_ok, Prod.exists] at h
      obtain ⟨answer, g₁, hp, h⟩ := h
      cases answer with
      | ok =>
        simp only [pure_eq_ok, Prod.mk.injEq] at h
        obtain ⟨rfl, rfl⟩ := h
        exact ⟨rfl, .inr ⟨block, inst, hp⟩⟩
      | error => cases h
    · simp only [pure_eq_ok, Prod.mk.injEq] at h
      exact ⟨h.1, .inl h.2⟩

theorem insert_changes (num : g.Numbered) (placed : g.Placed) {v : Value} {spot : Option BlockId}
    {id : ValueId} (plain : v.Plain) (h : g.insert v spot = .ok (id, g')) :
    (∀ op ∈ v.operands, op ∈ g.values) ∧ ReflTransGen (ChangeBy writes) (g.entered v) g' := by
  obtain ⟨-, live, -, rfl | ⟨block, inst, hp⟩⟩ := insert_cases h
  · exact ⟨live, .refl⟩
  · have entered := placed.of_samePlaces (samePlaces_entered num plain.toIdle)
    exact ⟨live, place_changes entered (getElem?_entered_self v) inst plain.parent hp⟩

/-- An instruction that is detached is placed; anything else is refused. -/
theorem attach_cases {inst : ValueId} {block : BlockId} {answer : Except Refusal Unit}
    (h : g.attach inst block = .ok (answer, g')) :
    (∃ reason, answer = .error reason) ∧ g' = g ∨
      ∃ v, g.values[inst]? = some v ∧ v.kind.isInst = true ∧ v.parent = none ∧
        g.place inst block = .ok (answer, g') := by
  simp only [attach, bind_eq_ok, value_eq_ok] at h
  obtain ⟨v, hv, h⟩ := h
  split at h
  · simp only [pure_eq_ok, Prod.mk.injEq] at h
    exact .inl ⟨⟨_, h.1⟩, h.2⟩
  · rename_i kind
    split at h
    · simp only [pure_eq_ok, Prod.mk.injEq] at h
      exact .inl ⟨⟨_, h.1⟩, h.2⟩
    · rename_i detached
      simp only [bind_eq_ok] at h
      obtain ⟨-, -, h⟩ := h
      exact .inr ⟨v, hv, by simpa using kind, detached, h⟩

theorem attach_changes (placed : g.Placed) {inst : ValueId} {block : BlockId}
    {answer : Except Refusal Unit} (h : g.attach inst block = .ok (answer, g')) :
    ReflTransGen (ChangeBy writes) g g' := by
  rcases attach_cases h with ⟨-, rfl⟩ | ⟨v, hv, kind, detached, h⟩
  · exact .refl
  · exact place_changes placed hv kind detached h

/-- A detached instruction keeps its kind, operands and uses. -/
theorem detach_change {inst : ValueId} {block : BlockId} (h : g.detach inst = .ok (.ok block, g')) :
    g.ChangeBy writes g' ∧
      ∃ v, g.values[inst]? = some v ∧ g'.values[inst]? = some { v with parent := none } := by
  obtain ⟨v, targets, gone, hv, -, attached, branch, unused, -, rfl⟩ := detach_ok h
  refine ⟨.displace hv attached branch unused, v, hv, ?_⟩
  simp [displaced, hv, Value.moved]

theorem detach_changes {inst : ValueId} {answer : Except Refusal BlockId}
    (h : g.detach inst = .ok (answer, g')) : ReflTransGen (ChangeBy writes) g g' := by
  cases answer with
  | error => rw [detach_refused h]
  | ok => exact .single (detach_change h).1

/-- The value can be taken out of the graph. -/
structure Removable (g : Graph) (v : ValueId) (entry : Value) : Prop where
  found : g.values[v]? = some entry
  unused : entry.uses = ∅
  detached : entry.parent = none
  noBlock : entry.kind ≠ .block
  noFunction : entry.kind ≠ .function

/-- What is removed is unused, and taken out as it is or after it was detached. -/
theorem removeValue_split {v : ValueId} {entry : Value} (h : g.removeValue v = .ok (.ok entry, g')) :
    ∃ e, g.values[v]? = some e ∧ e.uses = ∅ ∧ e.kind ≠ .block ∧ e.kind ≠ .function ∧
      entry = { e with parent := none } ∧
      (e.parent = none ∧ g' = g.without v e.operands ∨
        ∃ block g₁, e.parent = some block ∧ g.detach v = .ok (.ok block, g₁) ∧
          g' = g₁.without v e.operands) := by
  simp only [removeValue, bind_eq_ok, value_eq_ok, require_eq_ok] at h
  obtain ⟨e, hv, -, ⟨noBlock, noFunction⟩, h⟩ := h
  split at h
  · simp [pure_eq_ok] at h
  · rename_i used
    have unused : e.uses = ∅ := by simpa using used
    split at h
    · rename_i detached
      simp only [bind_eq_ok, pure_eq_ok, Prod.exists, Prod.mk.injEq, Except.ok.injEq] at h
      obtain ⟨_, _, hd, rfl, rfl⟩ := h
      obtain ⟨found, -, -, rfl⟩ := discard_eq_ok.1 hd
      rw [hv] at found
      cases found
      refine ⟨entry, hv, unused, noBlock, noFunction, ?_, .inl ⟨detached, rfl⟩⟩
      rw [← detached]
    · simp only [bind_eq_ok, Prod.exists] at h
      obtain ⟨left, g₁, hl, h⟩ := h
      cases left with
      | error reason => simp [pure_eq_ok] at h
      | ok block =>
        simp only [bind_eq_ok, pure_eq_ok, Prod.exists, Prod.mk.injEq, Except.ok.injEq] at h
        obtain ⟨_, _, hd, rfl, rfl⟩ := h
        obtain ⟨(_ : g.Change g₁), e', he, he'⟩ := detach_change hl
        rw [hv] at he
        cases he
        obtain ⟨found, -, -, rfl⟩ := discard_eq_ok.1 hd
        rw [he'] at found
        cases found
        obtain ⟨e', -, -, he', -, attached, -⟩ := detach_ok hl
        rw [hv] at he'
        cases he'
        exact ⟨e, hv, unused, noBlock, noFunction, rfl, .inr ⟨block, g₁, attached, hl, rfl⟩⟩

/-- A value that is removed is detached first, if it was attached, and then taken out. -/
theorem removeValue_ok {v : ValueId} {entry : Value} (h : g.removeValue v = .ok (.ok entry, g')) :
    ∃ g₁, ReflTransGen (ChangeBy writes) g g₁ ∧ g₁.Removable v entry ∧
      g' = g₁.without v entry.operands := by
  obtain ⟨e, found, unused, noBlock, noFunction, rfl, ⟨detached, rfl⟩ | ⟨block, g₁, -, left, rfl⟩⟩ :=
    removeValue_split h
  · refine ⟨g, .refl, ⟨?_, unused, rfl, noBlock, noFunction⟩, rfl⟩
    rw [found, ← detached]
  · obtain ⟨(change : g.ChangeBy writes g₁), e', he, he'⟩ := detach_change left
    rw [found] at he
    cases he
    exact ⟨g₁, .single change, ⟨he', unused, rfl, noBlock, noFunction⟩, rfl⟩

theorem removeValue_refused {v : ValueId} {reason : Refusal}
    (h : g.removeValue v = .ok (.error reason, g')) : g' = g := by
  simp only [removeValue, bind_eq_ok] at h
  obtain ⟨e, -, -, -, h⟩ := h
  split at h
  · simp only [pure_eq_ok, Prod.mk.injEq] at h
    exact h.2
  · split at h
    · simp only [bind_eq_ok, pure_eq_ok, Prod.mk.injEq, reduceCtorEq, false_and, and_false,
        exists_false] at h
    · simp only [bind_eq_ok, Prod.exists] at h
      obtain ⟨left, g₁, hl, h⟩ := h
      cases left with
      | error reason =>
        simp only [pure_eq_ok, Prod.mk.injEq] at h
        rw [h.2]
        exact detach_refused hl
      | ok block =>
        simp only [bind_eq_ok, pure_eq_ok, Prod.mk.injEq, reduceCtorEq, false_and, and_false,
          exists_false] at h

/-- Removing an instruction is removing a value, unless it is no instruction. -/
theorem removeInst_cases {v : ValueId} {answer : Except Refusal Value}
    (h : g.removeInst v = .ok (answer, g')) :
    answer = .error (.notInstruction v) ∧ g' = g ∨ g.removeValue v = .ok (answer, g') := by
  simp only [removeInst, bind_eq_ok] at h
  obtain ⟨entry, -, h⟩ := h
  split at h
  · simp only [pure_eq_ok, Prod.mk.injEq] at h
    exact .inl h
  · exact .inr h

theorem writeOperand_changes {user new old : ValueId} {index : Nat}
    (accepted : g.slotRefusal? user index new = .ok none)
    (h : g.writeOperand user index new = .ok (old, g')) : ReflTransGen Change g g' := by
  obtain ⟨v, hv, -, ok⟩ := slotRefusal_eq_none.1 accepted
  obtain ⟨v', hv', held, ⟨-, rfl⟩ | ⟨ne, hold, hnew, h⟩⟩ := writeOperand_eq_ok.1 h
  · exact .refl
  · rw [hv] at hv'
    cases hv'
    have slot : g.Writable user v index old new := ⟨hv, held, ne, hold, hnew, ok⟩
    split at h
    · rename_i apart
      rw [h]
      exact .single (.rewire slot apart trivial)
    · rename_i src along
      obtain ⟨g₁, hu, hl⟩ := h
      obtain ⟨gone, unused, rfl⟩ := unlinkUnused_ok hu
      obtain ⟨hn, hs, rfl⟩ := link_eq_ok.1 hl
      rw [mapBlocks_mapBlocks]
      exact .single (.retarget slot along ⟨by simpa [rewired] using hs, by simpa [rewired] using hn⟩
        unused trivial)

theorem setOperand_changes {user value : ValueId} {index : Nat} {answer : Except Refusal ValueId}
    (h : g.setOperand user index value = .ok (answer, g')) : ReflTransGen Change g g' := by
  simp only [setOperand, bind_eq_ok] at h
  obtain ⟨-, -, refusal, hr, h⟩ := h
  split at h
  · simp only [pure_eq_ok, Prod.mk.injEq] at h
    rw [h.2]
  · simp only [bind_eq_ok, pure_eq_ok, Prod.exists, Prod.mk.injEq] at h
    obtain ⟨old, _, hw, -, rfl⟩ := h
    exact writeOperand_changes hr hw

theorem foldlM_writeOperand_changes {uses : List Use} {new : ValueId}
    (accepted : ∀ u ∈ uses, g.slotRefusal? u.user u.index new = .ok none)
    (h : uses.foldlM (fun g u => do return (← g.writeOperand u.user u.index new).2) g = .ok g') :
    ReflTransGen Change g g' := by
  induction uses generalizing g with
  | nil =>
    rw [List.foldlM_nil, pure_eq_ok] at h
    rw [h]
  | cons u uses ih =>
    simp only [List.foldlM_cons, bind_eq_ok, pure_eq_ok, Prod.exists] at h
    obtain ⟨_, ⟨old, g₁, hw, rfl⟩, h⟩ := h
    have framed := writeOperand_framed hw
    have rest := ih (fun u' hu' => framed.slotRefusal_eq_none (accepted u' (List.mem_cons_of_mem u hu'))) h
    exact (writeOperand_changes (accepted u (List.mem_cons_self ..)) hw).trans rest

theorem replaceUses_changes {uses : List Use} {new : ValueId} {answer : Except Refusal Unit}
    (h : g.replaceUses uses new = .ok (answer, g')) : ReflTransGen Change g g' := by
  simp only [replaceUses, bind_eq_ok] at h
  obtain ⟨refusal, hr, h⟩ := h
  cases refusal with
  | some reason =>
    simp only [pure_eq_ok, Prod.mk.injEq] at h
    rw [h.2]
  | none =>
    simp only [bind_eq_ok, pure_eq_ok, Prod.mk.injEq] at h
    obtain ⟨_, hw, -, rfl⟩ := h
    exact foldlM_writeOperand_changes (firstRefusal_eq_none.1 hr) (by simpa only [bind_eq_ok] using hw)

theorem replaceAllUses_changes {old new : ValueId} {answer : Except Refusal Unit}
    (h : g.replaceAllUses old new = .ok (answer, g')) : ReflTransGen Change g g' := by
  simp only [replaceAllUses, bind_eq_ok] at h
  obtain ⟨-, -, h⟩ := h
  split at h
  · simp only [pure_eq_ok, Prod.mk.injEq] at h
    rw [h.2]
  · simp only [bind_eq_ok] at h
    obtain ⟨v, -, h⟩ := h
    exact replaceUses_changes h

theorem addIncoming_change {phi value : ValueId} {block : BlockId}
    (h : g.addIncoming phi value block = .ok g') : g.ChangeBy writes g' := by
  simp only [addIncoming, bind_eq_ok, value_eq_ok, require_eq_ok, pushOperand_eq_ok] at h
  obtain ⟨p, hp, -, kind, -, hb, v, hv, -, ty, _, ⟨p₁, hp₁, live, rfl⟩, p₂, hp₂, liveBlock, rfl⟩ := h
  rw [hp] at hp₁
  cases hp₁
  rw [getElem?_extended_self hp] at hp₂
  cases hp₂
  rw [Value.length_extended_self]
  exact .incoming hp kind live ⟨hb, by simpa [extended] using liveBlock⟩ (by simp [tyOf, hv, ty])

theorem createBlock_change {f : FuncId} {name : Option String} {id : BlockId}
    (h : g.createBlock f name = .ok (id, g')) : g.ChangeBy writes g' := by
  simp only [createBlock, bind_eq_ok, pure_eq_ok, require_eq_ok, func_eq_ok, createNamed_eq_ok,
    updateFunc_eq_ok, Prod.exists, Prod.mk.injEq] at h
  obtain ⟨-, -, func, hf, -, defined, _, _, ⟨-, -, -, rfl, rfl⟩, _, ⟨func', hf', rfl⟩, -, rfl⟩ := h
  have same : func' = func := by
    simp only [entered] at hf'
    rw [hf] at hf'
    cases hf'
    rfl
  rw [same]
  exact .block (v := { ty := .label, kind := .block, name }) ⟨rfl, rfl, rfl⟩ rfl hf defined rfl

/-- The parameters of a function are entered one after the other. -/
theorem createParams_ok {index : Nat} {params : List (Option String × Ty)} {ids : List ValueId}
    (h : g.createParams index params = .ok (ids, g')) :
    ∃ vs : List Value, (∀ v ∈ vs, v.Plain ∧ v.operands = []) ∧ (∀ v ∈ vs, ∃ i, v.kind = .param i) ∧
      g' = vs.foldl entered g ∧ ids = List.range' g.next vs.length := by
  induction params generalizing g index ids with
  | nil =>
    cases h
    exact ⟨[], by simp, by simp, rfl, rfl⟩
  | cons param params ih =>
    obtain ⟨name, ty⟩ := param
    simp only [createParams, bind_eq_ok, pure_eq_ok, Prod.exists, createNamed_eq_ok, Prod.mk.injEq] at h
    obtain ⟨_, _, ⟨-, -, -, rfl, rfl⟩, rest, _, hr, rfl, rfl⟩ := h
    obtain ⟨vs, plain, kinds, rfl, rfl⟩ := ih hr
    refine ⟨{ ty, kind := .param index, name } :: vs, List.forall_mem_cons.2 ⟨?_, plain⟩,
      List.forall_mem_cons.2 ⟨⟨index, rfl⟩, kinds⟩, rfl, rfl⟩
    exact ⟨⟨⟨rfl, rfl, rfl⟩, by simp, by simp⟩, rfl⟩

/-- The counter stays a handle while parameters are created. -/
theorem createParams_room {index : Nat} {params : List (Option String × Ty)} {ids : List ValueId}
    (room : g.next < handleLimit) (h : g.createParams index params = .ok (ids, g')) :
    g'.next < handleLimit := by
  induction params generalizing g index ids with
  | nil =>
    cases h
    exact room
  | cons param params ih =>
    obtain ⟨name, ty⟩ := param
    simp only [createParams, bind_eq_ok, pure_eq_ok, Prod.exists, createNamed_eq_ok, Prod.mk.injEq] at h
    obtain ⟨_, _, ⟨more, -, -, rfl, rfl⟩, _, _, hr, -, rfl⟩ := h
    exact ih more hr

end Graph

/-! ## One edit -/

/-- The edit writes slots that are already there. -/
def Edit.Rewrites : Edit → Prop
  | .setOperand .. | .replaceAllUses .. => True
  | _ => False

namespace Workspace

open Relation

variable {w w' : Workspace} {writes : Prop}

theorem changes_withGraph {g : Graph} (path : ReflTransGen (Graph.ChangeBy writes) w.graph g) :
    ReflTransGen (ChangeBy writes) w (w.withGraph g) :=
  path.lift (fun g => w.withGraph g) fun _ _ change => ChangeBy.graph (w := w.withGraph _) change

/-- A function is entered with its parameters behind it, and then listed. -/
theorem addFunc_ok {name : String} {params : List (Option String × Ty)} {ret : Ty} {isDecl : Bool}
    {id : FuncId} {p : Program} (h : w.program.addFunc name params ret isDecl = .ok (id, p)) :
    ∃ (ty : Ty) (vs : List Value), id = w.graph.next ∧ p.graph.next < Graph.handleLimit ∧
      (∀ v ∈ vs, v.Plain ∧ v.operands = []) ∧ (∀ v ∈ vs, ∃ i, v.kind = .param i) ∧
      (∃ tys ret, ty = .function tys ret) ∧
      { w with program := p } = w.withFunction { ty, kind := .function, name := some name } vs
        { ty, params := List.range' (w.graph.next + 1) vs.length, isDecl } := by
  simp only [Program.addFunc, Graph.createFunc, bind_eq_ok, pure_eq_ok, Prod.exists,
    Graph.createNamed_eq_ok, Prod.mk.injEq] at h
  obtain ⟨_, _, ⟨-, -, ty, formed, _, _, ⟨room, -, -, rfl, rfl⟩, h⟩, rfl, rfl⟩ := h
  simp only [Ty.formFunction, bind_eq_ok, pure_eq_ok] at formed
  obtain ⟨-, -, formed⟩ := formed
  split at h
  · simp only [bind_eq_ok, pure_eq_ok, Prod.exists, Prod.mk.injEq] at h
    obtain ⟨_, _, ⟨rfl, rfl⟩, rfl, rfl⟩ := h
    exact ⟨ty, [], rfl, room, by simp, by simp, ⟨_, _, formed⟩, rfl⟩
  · simp only [bind_eq_ok, pure_eq_ok, Prod.exists, Prod.mk.injEq] at h
    obtain ⟨ids, _, hp, rfl, rfl⟩ := h
    have room := Graph.createParams_room room hp
    obtain ⟨vs, plain, kinds, rfl, rfl⟩ := Graph.createParams_ok hp
    exact ⟨ty, vs, rfl, room, plain, kinds, ⟨_, _, formed⟩, rfl⟩

theorem addFunc_change {name : String} {params : List (Option String × Ty)} {ret : Ty} {isDecl : Bool}
    {id : FuncId} {p : Program} (h : w.program.addFunc name params ret isDecl = .ok (id, p)) :
    w.ChangeBy writes { w with program := p } := by
  obtain ⟨ty, vs, -, -, plain, kinds, formed, same⟩ := addFunc_ok h
  rw [same]
  exact .function ⟨rfl, rfl, rfl⟩ rfl rfl plain rfl rfl kinds formed

theorem addGlobal_change {name : String} {ty : Ty} {isConst : Bool} {init id : ValueId} {p : Program}
    (h : w.program.addGlobal name ty isConst init = .ok (id, p)) :
    w.ChangeBy writes { w with program := p } := by
  simp only [Program.addGlobal, Graph.createGlobal, bind_eq_ok, pure_eq_ok, Prod.exists,
    Graph.createNamed_eq_ok, Graph.value_eq_ok, require_eq_ok, Prod.mk.injEq] at h
  obtain ⟨_, _, ⟨-, -, v, hv, -, -, -, rfl, -, live, -, rfl, rfl⟩, -, rfl⟩ := h
  have known : w.graph.tyOf init = some v.ty := by
    rw [Graph.tyOf, graph, hv]
    rfl
  exact .global
    (v := { ty := .pointer v.ty, kind := .global isConst, operands := [init], name := some name })
    ⟨⟨rfl, rfl, rfl⟩, by simp, by simp⟩ rfl live (by simp [known]) rfl

theorem keepRemoved_changes {v : ValueId} {answer : Except Refusal Value} {g : Graph}
    (h : w.graph.removeValue v = .ok (answer, g)) :
    ReflTransGen (ChangeBy writes) w (w.keepRemoved v (answer, g)).2 := by
  cases answer with
  | error reason =>
    rw [Graph.removeValue_refused h]
    exact .refl
  | ok entry =>
    obtain ⟨g₁, path, removable, rfl⟩ := Graph.removeValue_ok h
    exact (changes_withGraph path).tail (.discard (w := w.withGraph g₁) removable.found removable.unused
      removable.detached removable.noBlock removable.noFunction)

theorem apply_changes (built : w.Built) {e : Edit} {answer : Except Refusal Reply}
    (h : w.apply e = .ok (answer, w')) : ReflTransGen (ChangeBy e.Rewrites) w w' := by
  have num := built.numbered
  have placed := built.placed
  cases e with
  | define | declare =>
    simp only [apply, bind_eq_ok, pure_eq_ok, Prod.exists, Prod.mk.injEq] at h
    obtain ⟨_, _, h, -, rfl⟩ := h
    exact .single (addFunc_change h)
  | addGlobal =>
    simp only [apply, bind_eq_ok, pure_eq_ok, Prod.exists, Prod.mk.injEq] at h
    obtain ⟨_, _, h, -, rfl⟩ := h
    exact .single (addGlobal_change h)
  | addBlock =>
    simp only [apply, bind_eq_ok, pure_eq_ok, Prod.exists, Prod.mk.injEq] at h
    obtain ⟨_, _, h, -, rfl⟩ := h
    exact .single (.graph (Graph.createBlock_change h))
  | build =>
    simp only [apply, Graph.build, bind_eq_ok, pure_eq_ok, Prod.exists, Prod.mk.injEq] at h
    obtain ⟨_, _, ⟨-, -, v, hv, h⟩, -, rfl⟩ := h
    obtain ⟨live, path⟩ := Graph.insert_changes num placed (Draft.value_plain hv) h
    exact changes_withGraph (.head (.enter hv live) path)
  | reinsert =>
    simp only [apply, removedEntry, Graph.reinsert, bind_eq_ok, pure_eq_ok, Table.fetch_eq_ok, Prod.exists,
      Prod.mk.injEq] at h
    obtain ⟨entry, found, _, _, ⟨-, -, h⟩, -, rfl⟩ := h
    obtain ⟨live, path⟩ := Graph.insert_changes num placed (built.stored _ entry found) h
    exact .head (.restore found live) (changes_withGraph path)
  | rename =>
    simp only [apply, bind_eq_ok, pure_eq_ok, Graph.rename_eq_ok, Prod.mk.injEq] at h
    obtain ⟨_, ⟨live, -, rfl⟩, -, rfl⟩ := h
    exact .single (.graph (.rename live))
  | setOperand =>
    simp only [apply, bind_eq_ok, pure_eq_ok, Prod.exists, Prod.mk.injEq] at h
    obtain ⟨_, _, h, -, rfl⟩ := h
    exact changes_withGraph (Graph.setOperand_changes h)
  | replaceAllUses =>
    simp only [apply, bind_eq_ok, pure_eq_ok, Prod.exists, Prod.mk.injEq] at h
    obtain ⟨_, _, h, -, rfl⟩ := h
    exact changes_withGraph (Graph.replaceAllUses_changes h)
  | addIncoming =>
    simp only [apply, bind_eq_ok, pure_eq_ok, Prod.mk.injEq] at h
    obtain ⟨_, h, -, rfl⟩ := h
    exact .single (.graph (Graph.addIncoming_change h))
  | removeValue v =>
    simp only [apply, bind_eq_ok, pure_eq_ok, Prod.exists] at h
    obtain ⟨removed, g, hr, h⟩ := h
    rw [show w' = (w.keepRemoved v (removed, g)).2 from congrArg Prod.snd h]
    exact keepRemoved_changes hr
  | removeInst v =>
    simp only [apply, bind_eq_ok, pure_eq_ok, Prod.exists] at h
    obtain ⟨removed, g, hr, h⟩ := h
    rw [show w' = (w.keepRemoved v (removed, g)).2 from congrArg Prod.snd h]
    rcases Graph.removeInst_cases hr with ⟨rfl, rfl⟩ | hr
    · exact .refl
    · exact keepRemoved_changes hr
  | attach =>
    simp only [apply, bind_eq_ok, pure_eq_ok, Prod.exists, Prod.mk.injEq] at h
    obtain ⟨_, _, h, -, rfl⟩ := h
    exact changes_withGraph (Graph.attach_changes placed h)
  | detach =>
    simp only [apply, bind_eq_ok, pure_eq_ok, Prod.exists, Prod.mk.injEq] at h
    obtain ⟨_, _, h, -, rfl⟩ := h
    exact changes_withGraph (Graph.detach_changes h)

/-! ## Runs -/

/-- One edit that does not fault, with its answer and the workspace it leaves. -/
inductive Step : Workspace → Edit → Except Refusal Reply → Workspace → Prop
  | apply {w w' : Workspace} {e : Edit} {answer : Except Refusal Reply}
      (run : w.apply e = .ok (answer, w')) : Step w e answer w'
  /-- The slots that hold `old` are visited in any order. -/
  | replace {w : Workspace} {old new : ValueId} {v : Value} {order : List Use} {g : Graph}
      {answer : Except Refusal Unit} (live : new ∈ w.graph.values) (ne : old ≠ new)
      (entry : w.graph.values[old]? = some v) (perm : order.Perm v.uses.toList)
      (run : w.graph.replaceUses order new = .ok (answer, g)) :
      Step w (.replaceAllUses old new) (answer.map fun _ => .done) (w.withGraph g)

/-- A run of edits from an empty program leads to the workspace. -/
inductive Reachable : Workspace → Prop
  | start (name : String) : Reachable (start name)
  | step {w w' : Workspace} {e : Edit} {answer : Except Refusal Reply} (run : Reachable w)
      (edit : w.Step e answer w') : Reachable w'

theorem Step.changes (built : w.Built) {e : Edit} {answer : Except Refusal Reply}
    (h : w.Step e answer w') : ReflTransGen (ChangeBy e.Rewrites) w w' := by
  cases h with
  | apply run => exact apply_changes built run
  | replace live ne entry perm run => exact changes_withGraph (Graph.replaceUses_changes run)

/-- The two ways to replace a value: it is replaced by itself, or its slots are visited in some order. -/
theorem Step.replace_cases {old new : ValueId} {answer : Except Refusal Reply}
    (h : w.Step (.replaceAllUses old new) answer w') :
    old = new ∧ answer = .ok .done ∧ w' = w ∨
      ∃ (v : Value) (order : List Use) (done : Except Refusal Unit) (g : Graph),
        new ∈ w.graph.values ∧ old ≠ new ∧ w.graph.values[old]? = some v ∧
        order.Perm v.uses.toList ∧ w.graph.replaceUses order new = .ok (done, g) ∧
        answer = (done.map fun _ => .done) ∧ w' = w.withGraph g := by
  cases h with
  | replace live ne entry perm run => exact .inr ⟨_, _, _, _, live, ne, entry, perm, run, rfl, rfl⟩
  | apply run =>
    simp only [Workspace.apply, Graph.replaceAllUses, bind_eq_ok, require_eq_ok, pure_eq_ok, Prod.exists,
      Prod.mk.injEq] at run
    obtain ⟨done, g, ⟨-, live, h⟩, rfl, rfl⟩ := run
    split at h
    · rename_i heq
      simp only [pure_eq_ok, Prod.mk.injEq] at h
      obtain ⟨rfl, rfl⟩ := h
      exact .inl ⟨heq, rfl, rfl⟩
    · rename_i ne
      simp only [bind_eq_ok, Graph.value_eq_ok] at h
      obtain ⟨v, entry, h⟩ := h
      exact .inr ⟨v, _, done, g, live, ne, entry, .refl _, h, rfl, rfl⟩

theorem Step.built (built : w.Built) {e : Edit} {answer : Except Refusal Reply}
    (h : w.Step e answer w') : w'.Built :=
  built.changes ((h.changes built).lift id fun _ _ change => change.change)

theorem Reachable.built (h : w.Reachable) : w.Built := by
  induction h with
  | start name => exact ⟨name, .refl⟩
  | step run edit ih => exact edit.built ih

/-- The workspace after the edits, with those that fault passed over. -/
def perform (w : Workspace) : List Edit → Workspace
  | [] => w
  | e :: edits =>
    match w.apply e with
    | .ok (_, w') => w'.perform edits
    | .error _ => w.perform edits

theorem Reachable.perform (h : w.Reachable) (edits : List Edit) : (w.perform edits).Reachable := by
  induction edits generalizing w with
  | nil => exact h
  | cons e edits ih =>
    simp only [Workspace.perform]
    split
    · rename_i run
      exact ih (h.step (.apply run))
    · exact ih h

theorem Step.perform {e : Edit} {answer : Except Refusal Reply}
    (h : (w.apply e).map Prod.fst = .ok answer) : w.Step e answer (w.perform [e]) := by
  cases run : w.apply e with
  | error fault =>
    rw [run] at h
    cases h
  | ok result =>
    rw [run] at h
    cases h
    rw [Workspace.perform, run]
    exact .apply run

theorem Step.of_answer {e : Edit} {answer : Except Refusal Reply}
    (h : (w.apply e).map Prod.fst = .ok answer) : ∃ w', w.Step e answer w' :=
  ⟨w.perform [e], .perform h⟩

/-- A function with two blocks. The first ends in a branch with one block as both targets, the second
starts with a phi that is an operand of itself and holds an addition that was removed and put back. -/
def loop : Workspace :=
  (start "loop").perform
    [.define "f" [] .i32, .addBlock 1 none, .addBlock 1 none, .build (.integer 1) none,
      .build (.compare .eq 4 4) (some 2), .build (.branch 5 3 3) (some 2), .build (.phi .i32) (some 3),
      .addIncoming 7 4 2, .addIncoming 7 7 3, .build (.binary .add 7 4) (some 3), .removeInst 8,
      .reinsert 8 (some 3), .build (.jump 3) (some 3), .setOperand 9 1 9, .removeValue 4]

theorem reachable_loop : loop.Reachable := (Reachable.start "loop").perform _

end Workspace

end SsaGraph
