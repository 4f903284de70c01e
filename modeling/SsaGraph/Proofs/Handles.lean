import SsaGraph.Proofs.Preconditions
import SsaGraph.Proofs.Refusals

/-!
# Handles

The values of a program are numbered in the order of their creation, and a number is used once. Handles
of removed values stay behind in removed entries, in the layout of globals and in parameter lists, so it
takes more than the tables of live entries to see that a new handle is new: `Workspace.Occurs` lists
every place where a handle can stand.

Results:
* `Built.occurs_lt`: every handle in the workspace was given out before;
* `Step.issues`: an edit gives out the next handles in order, one for each value it creates;
* `Built.old_live`, `not_live_again`: a handle that has no value gets none later;
* `Reachable.exists_exhausted`: the numbers can run out around any graph that can be reached;
* `handles_used_once`: the whole of it for every run, and what happens at the end of the numbers.
-/
namespace SsaGraph

/-! ## Where a handle can stand -/

/-- The handle stands in the entry of a value: in a slot, as a user, or as the block of the value. -/
def Value.Mentions (e : Value) (x : ValueId) : Prop :=
  x ∈ e.operands ∨ (∃ u ∈ e.uses, u.user = x) ∨ e.parent = some x

def Block.Mentions (b : Block) (x : ValueId) : Prop :=
  x = b.function ∨ x ∈ b.insts ∨ x ∈ b.preds ∨ x ∈ b.succs

def Func.Mentions (f : Func) (x : ValueId) : Prop := x ∈ f.params ∨ x ∈ f.blocks

/-- The handle stands somewhere in the workspace. -/
inductive Workspace.Occurs (w : Workspace) (x : ValueId) : Prop
  | value (live : x ∈ w.graph.values)
  | inValue {v : ValueId} {e : Value} (found : w.graph.values[v]? = some e) (inside : e.Mentions x)
  | block (live : x ∈ w.graph.blocks)
  | inBlock {b : BlockId} {block : Block} (found : w.graph.blocks[b]? = some block)
      (inside : block.Mentions x)
  | function (live : x ∈ w.graph.functions)
  | inFunction {f : FuncId} {func : Func} (found : w.graph.functions[f]? = some func)
      (inside : func.Mentions x)
  | layout (listed : x ∈ w.program.functions ∨ x ∈ w.program.globals)
  | removed (kept : x ∈ w.removed)
  | inRemoved {v : ValueId} {e : Value} (kept : w.removed[v]? = some e) (inside : e.Mentions x)

/-- An idle value has no users and no block. -/
theorem Value.Idle.mentions_iff {e : Value} (idle : e.Idle) {x : ValueId} :
    e.Mentions x ↔ x ∈ e.operands := by
  simp [Mentions, idle.uses, idle.parent]

namespace Graph

variable {g g' : Graph} {x : ValueId}

theorem mem_foldl_entered (vs : List Value) : x ∈ (vs.foldl entered g).values ↔
    x ∈ g.values ∨ x ∈ List.range' g.next vs.length := by
  induction vs generalizing g with
  | nil => simp
  | cons v vs ih =>
    rw [List.foldl_cons, ih, mem_entered, List.length_cons, List.range'_succ, List.mem_cons]
    show (x = g.next ∨ x ∈ g.values) ∨ x ∈ List.range' (g.next + 1) vs.length ↔ _
    tauto

end Graph

/-! ## Handles that were given out -/

namespace Workspace

variable {w : Workspace} {x : ValueId}

/-- Removed entries and what their slots hold were given out, even if those values are gone as well. -/
theorem Built.removed_lt (h : w.Built) : ∀ (v : ValueId) (entry : Value), w.removed[v]? = some entry →
    v < w.graph.next ∧ ∀ x ∈ entry.operands, x < w.graph.next := by
  refine Built.invariant (P := fun w => ∀ (v : ValueId) (entry : Value), w.removed[v]? = some entry →
    v < w.graph.next ∧ ∀ x ∈ entry.operands, x < w.graph.next) (fun name => ?_)
    (fun {w w'} built old step v entry kept => ?_) h
  · simp [start]
  · have num := built.numbered
    have next := (step.extends num).next
    rcases step.removed_origin kept with before | live
    · obtain ⟨own, slots⟩ := old v entry before
      exact ⟨Nat.lt_of_lt_of_le own next, fun x hx => Nat.lt_of_lt_of_le (slots x hx) next⟩
    · have operands := built.useDef.operands_live live
      exact ⟨Nat.lt_of_lt_of_le (num.values v (Table.mem_of_getElem? live)) next,
        fun x hx => Nat.lt_of_lt_of_le (num.values x (operands x hx)) next⟩

/-- Every handle in a built workspace was given out before. -/
theorem Built.occurs_lt (h : w.Built) (occurs : w.Occurs x) : x < w.graph.next := by
  have num := h.numbered
  cases occurs with
  | value live => exact num.values x live
  | @inValue v e found inside =>
    rcases inside with operand | ⟨u, member, rfl⟩ | parent
    · exact num.values x (h.useDef.operands_live found x operand)
    · have held := (h.useDef v u).1 (Graph.mem_usesOf.2 ⟨e, found, member⟩)
      exact num.values _ (Graph.live_of_slot held)
    · exact num.blocks x (h.placed.block_of_parent (Graph.parentOf_eq_some.2 ⟨e, found, parent⟩))
  | block live => exact num.blocks x live
  | @inBlock b block found inside =>
    rcases inside with rfl | inst | pred | succ
    · have owned := (h.owned.filed.iff b _).1 (Graph.funcOf_eq_some.2 ⟨block, found, rfl⟩)
      obtain ⟨func, entry, -⟩ := Graph.mem_blocksOf.1 owned
      exact num.functions _ (Table.mem_of_getElem? entry)
    · exact num.values x (h.placed.insts_live found x inst)
    · have edge := (h.records.preds x b).1 (Graph.mem_predsOf.2 ⟨block, found, pred⟩)
      exact num.blocks x (h.records.mem_blocks edge).1
    · have edge := (h.records.succs b x).1 (Graph.mem_succsOf.2 ⟨block, found, succ⟩)
      exact num.blocks x (h.records.mem_blocks edge).2
  | function live => exact num.functions x live
  | @inFunction f func found inside =>
    rcases inside with param | body
    · exact (h.params f func found x param).1
    · have owner := (h.owned.filed.iff x f).2 (Graph.mem_blocksOf.2 ⟨func, found, body⟩)
      obtain ⟨block, entry, -⟩ := Graph.funcOf_eq_some.1 owner
      exact num.blocks x (Table.mem_of_getElem? entry)
  | layout listed =>
    rcases listed with function | global
    · exact num.functions x ((h.laidOut.mem x).1 function)
    · exact (h.globals x global).1
  | removed kept =>
    obtain ⟨entry, kept⟩ := Table.getElem?_of_mem kept
    exact (h.removed_lt x entry kept).1
  | @inRemoved v e kept inside =>
    exact (h.removed_lt v e kept).2 x ((h.stored v e kept).toIdle.mentions_iff.1 inside)

/-- The same while the parameters of a function are created: the function and its first parameters are
values already, and stand nowhere else. -/
theorem Built.occurs_lt_grown (h : w.Built) {g : Graph} (grown : w.graph.Grown g)
    (functions : g.functions = w.graph.functions) (occurs : (w.withGraph g).Occurs x) : x < g.next := by
  have before : w.Occurs x → x < g.next := fun old => Nat.lt_of_lt_of_le (h.occurs_lt old) grown.next
  cases occurs with
  | value live => exact (grown.numbered h.numbered).values x live
  | @inValue v e found inside =>
    by_cases old : v ∈ w.graph.values
    · exact before (.inValue ((grown.old v old).symm.trans found) inside)
    · obtain ⟨idle, none, -⟩ := grown.new v e old found
      rw [idle.mentions_iff, none] at inside
      cases inside
  | block live => exact before (.block (grown.blocks ▸ live))
  | inBlock found inside => exact before (.inBlock (grown.blocks ▸ found) inside)
  | function live => exact before (.function (functions ▸ live))
  | inFunction found inside => exact before (.inFunction (functions ▸ found) inside)
  | layout listed => exact before (.layout listed)
  | removed kept => exact before (.removed kept)
  | inRemoved kept inside => exact before (.inRemoved kept inside)

end Workspace

/-! ## What an edit gives out -/

/-- The edit enters values under new handles. -/
def Edit.creates : Edit → Bool
  | .define .. | .declare .. | .addGlobal .. | .addBlock .. | .build .. | .reinsert .. => true
  | _ => false

namespace Graph

variable {g g' : Graph} {id : ValueId}

/-- The parameters of a function, none if there is no such function. -/
def paramsOf (g : Graph) (f : FuncId) : List ValueId := (g.functions[f]?.map Func.params).getD []

/-- One value was created and is there. -/
structure Created (g : Graph) (id : ValueId) (g' : Graph) : Prop where
  own : id = g.next
  next : g'.next = g.next + 1
  room : g.next + 1 < handleLimit
  live : id ∈ g'.values
  alone : g'.paramsOf id = []

/-- At the end of the numbers nothing is created. -/
theorem create_exhausted (full : ¬g.next + 1 < handleLimit) (v : Value) :
    g.create v = .error .tooManyValues := by
  unfold create require
  simp only [if_neg full]
  rfl

theorem build_exhausted {draft : Draft} {spot : Option BlockId} {e : Value}
    (known : ∀ b ∈ spot, b ∈ g.blocks) (drafted : draft.value g = .ok e)
    (full : ¬g.next + 1 < handleLimit) : g.build draft spot = .error .tooManyValues := by
  unfold build insert
  rw [checkSpot_ok known, drafted]
  simp only [bind, Except.bind, create_exhausted full]

theorem insert_created (num : g.Numbered) {v : Value} {spot : Option BlockId}
    (h : g.insert v spot = .ok (id, g')) : g.Created id g' := by
  obtain ⟨room, -, rfl, rest⟩ := insert_cases h
  have alone : (g.entered v).paramsOf g.next = [] := by
    show (g.functions[g.next]?.map Func.params).getD [] = []
    rw [num.functions_next]
    rfl
  have here : g.next ∈ (g.entered v).values := mem_entered.2 (.inl rfl)
  rcases rest with rfl | ⟨block, -, hp⟩
  · exact ⟨rfl, rfl, room, here, alone⟩
  · obtain ⟨_, _, _, _, _, -, -, -, -, -, -, -, rfl⟩ := place_ok hp
    exact ⟨rfl, rfl, room, (mem_mapValues _ _).2 here, alone⟩

theorem next_attach {inst : ValueId} {block : BlockId} (h : g.attach inst block = .ok (.ok (), g')) :
    g'.next = g.next := by
  rcases attach_cases h with ⟨-, rfl⟩ | ⟨v, -, -, -, h⟩
  · rfl
  · obtain ⟨_, _, _, _, _, -, -, -, -, -, -, -, rfl⟩ := place_ok h
    rfl

theorem next_removeValue {v : ValueId} {entry : Value} (h : g.removeValue v = .ok (.ok entry, g')) :
    g'.next = g.next := by
  obtain ⟨e, -, -, -, -, -, ⟨-, rfl⟩ | ⟨block, g₁, -, left, rfl⟩⟩ := removeValue_split h
  · rfl
  · obtain ⟨_, _, _, -, -, -, -, -, -, rfl⟩ := detach_ok left
    rfl

theorem createBlock_created (num : g.Numbered) {f : FuncId} {name : Option String}
    (h : g.createBlock f name = .ok (id, g')) : g.Created id g' := by
  simp only [createBlock, bind_eq_ok, pure_eq_ok, require_eq_ok, createNamed_eq_ok, updateFunc_eq_ok,
    Prod.exists, Prod.mk.injEq] at h
  obtain ⟨-, known, _, -, -, -, _, _, ⟨room, -, -, rfl, rfl⟩, _, ⟨func, found, rfl⟩, rfl, rfl⟩ := h
  refine ⟨rfl, rfl, room, mem_entered.2 (.inl rfl), ?_⟩
  have other : f ≠ g.next := Nat.ne_of_lt (num.functions f known)
  have none : g.functions[g.next]? = none := num.functions_next
  simp [paramsOf, Std.ExtTreeMap.getElem?_insert, other, entered, none]

theorem createGlobal_created (num : g.Numbered) {name : String} {ty : Ty} {isConst : Bool}
    {init : ValueId} (h : g.createGlobal name ty isConst init = .ok (id, g')) : g.Created id g' := by
  simp only [createGlobal, bind_eq_ok, createNamed_eq_ok] at h
  obtain ⟨-, -, _, -, -, -, -, -, room, -, -, rfl, rfl⟩ := h
  refine ⟨rfl, rfl, room, mem_entered.2 (.inl rfl), ?_⟩
  show (g.functions[g.next]?.map Func.params).getD [] = []
  rw [num.functions_next]
  rfl

/-- A constant is entered and never placed. -/
theorem build_constant {draft : Draft} {spot : Option BlockId} {e : Value}
    (known : ∀ b ∈ spot, b ∈ g.blocks) (drafted : draft.value g = .ok e) (kind : e.kind.isInst = false)
    (none : e.operands = []) (room : g.next + 1 < handleLimit) :
    g.build draft spot = .ok (g.next, g.entered e) := by
  have created : g.create e = .ok (g.next, g.entered e) :=
    create_eq_ok.2 ⟨room, by simp [none], rfl, rfl⟩
  unfold build insert
  rw [checkSpot_ok known, drafted]
  simp only [bind, Except.bind, created, kind, Bool.false_eq_true, if_false]
  cases spot <;> rfl

/-- What is created without operands and discarded at once leaves a gap in the numbers. -/
theorem without_entered (num : g.Numbered) {v : Value} (none : v.operands = []) :
    (g.entered v).without g.next v.operands = { g with next := g.next + 1 } := by
  have same : ((g.entered v).without g.next v.operands).values = g.values := by
    refine Std.ExtTreeMap.ext_getElem? fun x => ?_
    by_cases own : x = g.next
    · rw [own, getElem?_without_self, num.values_next]
    · rw [getElem?_without_of_ne own, getElem?_entered_of_ne own, none]
      cases g.values[x]? with
      | none => rfl
      | some e =>
        have kept : e.uses \ slotsOf g.next [] x = e.uses := Std.ExtTreeSet.ext_mem fun u => by simp
        simp [slotsOf_nil, kept]
  exact congrArg (fun values => { g with values, next := g.next + 1 }) same

theorem removeValue_entered (num : g.Numbered) {v : Value} (idle : v.Idle) (none : v.operands = [])
    (noBlock : v.kind ≠ .block) (noFunction : v.kind ≠ .function) :
    (g.entered v).removeValue g.next = .ok (.ok v, { g with next := g.next + 1 }) := by
  have entry := getElem?_entered_self (g := g) v
  have left : (g.entered v).discard g.next = .ok (v, { g with next := g.next + 1 }) :=
    discard_eq_ok.2 ⟨entry, by simp [none], by simp [none], (without_entered num none).symm⟩
  rw [removeValue, value_eq_ok.2 entry]
  simp [bind, Except.bind, require, noBlock, noFunction, idle.uses, idle.parent, left, pure, Except.pure]

end Graph

namespace Workspace

open Relation

variable {w w' : Workspace} {x : ValueId} {e : Edit} {answer : Except Refusal Reply}

/-- The handles that an edit gave out: that of what it created and, with a function, those of its
parameters. -/
def handed (w' : Workspace) (e : Edit) : Except Refusal Reply → List ValueId
  | .ok (.handle id) => if e.creates = true then id :: w'.graph.paramsOf id else []
  | _ => []

/-- The handles are the next ones in order, and the values under them are there. -/
structure Issues (w : Workspace) (ids : List ValueId) (w' : Workspace) : Prop where
  inOrder : ids = List.range' w.graph.next ids.length
  next : w'.graph.next = w.graph.next + ids.length
  room : ids ≠ [] → w'.graph.next < Graph.handleLimit
  live : ∀ x ∈ ids, x ∈ w'.graph.values

theorem issues_none (next : w'.graph.next = w.graph.next) : w.Issues [] w' :=
  ⟨rfl, next, fun h => absurd rfl h, by simp⟩

theorem issues_created {id : ValueId} (created : w.graph.Created id w'.graph) :
    w.Issues (id :: w'.graph.paramsOf id) w' := by
  rw [created.alone]
  refine ⟨?_, created.next, fun _ => created.next ▸ created.room, fun x hx => ?_⟩
  · rw [created.own]
    rfl
  · rw [List.mem_singleton.1 hx]
    exact created.live

theorem issues_addFunc {name : String} {params : List (Option String × Ty)} {ret : Ty} {isDecl : Bool}
    {id : FuncId} {p : Program} (h : w.program.addFunc name params ret isDecl = .ok (id, p)) :
    w.Issues (id :: p.graph.paramsOf id) { w with program := p } := by
  obtain ⟨ty, vs, rfl, room, -, -, -, same⟩ := addFunc_ok h
  -- the function and its parameters are entered one after the other
  generalize hv : ({ ty, kind := .function, name := some name } : Value) = v at same
  have graph : p.graph = (w.withFunction v vs
      { ty, params := List.range' (w.graph.next + 1) vs.length, isDecl }).graph := by
    rw [← same]
    rfl
  have ids : w.graph.next :: p.graph.paramsOf w.graph.next =
      List.range' w.graph.next (vs.length + 1) := by
    rw [graph, Graph.paramsOf, functions_withFunction, Std.ExtTreeMap.getElem?_insert_self,
      List.range'_succ]
    rfl
  rw [ids]
  refine ⟨by rw [List.length_range'], ?_, fun _ => room, fun x hx => ?_⟩
  · rw [List.length_range']
    show p.graph.next = _
    rw [graph]
    exact Graph.next_foldl_entered (v :: vs)
  · show x ∈ p.graph.values
    rw [graph]
    exact (Graph.mem_foldl_entered (v :: vs)).2 (.inr hx)

theorem handed_of_not_creates (other : e.creates = false) : w'.handed e answer = [] := by
  unfold handed
  split
  · rw [other]
    rfl
  · rfl

/-- A removal that is not refused takes the value out of the graph, whichever edit asks for it. -/
theorem Step.removal {v : ValueId} {reply : Reply} (edit : w.Step e (.ok reply) w')
    (asked : e = .removeValue v ∨ e = .removeInst v) :
    ∃ entry g, w.graph.removeValue v = .ok (.ok entry, g) ∧
      w' = { w.withGraph g with removed := w.removed.insert v entry } := by
  have kept : ∀ {removed : Except Refusal Value} {g : Graph}, w.graph.removeValue v = .ok (removed, g) →
      (.ok reply, w') = w.keepRemoved v (removed, g) → ∃ entry g,
        w.graph.removeValue v = .ok (.ok entry, g) ∧
          w' = { w.withGraph g with removed := w.removed.insert v entry } := by
    intro removed g h run
    cases removed with
    | error => cases congrArg Prod.fst run
    | ok entry => exact ⟨entry, g, h, congrArg Prod.snd run⟩
  rcases asked with rfl | rfl
  · obtain ⟨run⟩ := edit
    simp only [Workspace.apply, bind_eq_ok, pure_eq_ok, Prod.exists] at run
    obtain ⟨removed, g, h, run⟩ := run
    exact kept h run
  · obtain ⟨run⟩ := edit
    simp only [Workspace.apply, bind_eq_ok, pure_eq_ok, Prod.exists] at run
    obtain ⟨removed, g, h, run⟩ := run
    rcases Graph.removeInst_cases h with ⟨rfl, -⟩ | h
    · cases congrArg Prod.fst run
    · exact kept h run

/-- Edits that create nothing leave the counter where it is. -/
theorem Step.next_eq (built : w.Built) (edit : w.Step e answer w') (other : e.creates = false) :
    w'.graph.next = w.graph.next := by
  cases answer with
  | error reason => rw [(built.refusedExactly edit).same reason rfl]
  | ok reply =>
    cases e with
    | define | declare | addGlobal | addBlock | build | reinsert => cases other
    | replaceAllUses old new =>
      rcases edit.replace_cases with ⟨-, -, rfl⟩ |
        ⟨v, order, done, g, live, ne, entry, perm, run, -, rfl⟩
      · rfl
      · rcases built.replaceUses_cases entry live ne perm with ⟨-, g', run', subst⟩ | ⟨-, r, run'⟩
        · rw [run] at run'
          cases run'
          exact subst.next
        · rw [run] at run'
          cases run'
          rfl
    | rename =>
      obtain ⟨run⟩ := edit
      simp only [Workspace.apply, bind_eq_ok, pure_eq_ok, Graph.rename_eq_ok, Prod.mk.injEq] at run
      obtain ⟨_, ⟨-, -, rfl⟩, -, rfl⟩ := run
      rfl
    | setOperand =>
      obtain ⟨run⟩ := edit
      simp only [Workspace.apply, Graph.setOperand, bind_eq_ok, pure_eq_ok, Prod.exists, Prod.mk.injEq] at run
      obtain ⟨_, _, ⟨-, -, refusal, -, h⟩, replied, rfl⟩ := run
      cases refusal with
      | some reason =>
        simp only [pure_eq_ok, Prod.mk.injEq] at h
        rw [h.2]
        rfl
      | none =>
        simp only [bind_eq_ok, pure_eq_ok, Prod.exists, Prod.mk.injEq] at h
        obtain ⟨_, _, written, -, rfl⟩ := h
        exact (Graph.writeOperand_framed written).next
    | addIncoming =>
      obtain ⟨run⟩ := edit
      simp only [Workspace.apply, Graph.addIncoming, bind_eq_ok, pure_eq_ok, Graph.pushOperand_eq_ok,
        Prod.mk.injEq] at run
      obtain ⟨_, ⟨_, -, -, -, -, -, _, -, -, -, _, ⟨_, -, -, rfl⟩, _, -, -, rfl⟩, -, rfl⟩ := run
      rfl
    | removeValue v =>
      obtain ⟨entry, g, h, rfl⟩ := edit.removal (.inl rfl)
      exact Graph.next_removeValue h
    | removeInst v =>
      obtain ⟨entry, g, h, rfl⟩ := edit.removal (.inr rfl)
      exact Graph.next_removeValue h
    | attach =>
      obtain ⟨run⟩ := edit
      simp only [Workspace.apply, bind_eq_ok, pure_eq_ok, Prod.exists, Prod.mk.injEq] at run
      obtain ⟨done, _, h, replied, rfl⟩ := run
      cases done with
      | error => cases replied
      | ok => exact Graph.next_attach h
    | detach =>
      obtain ⟨run⟩ := edit
      simp only [Workspace.apply, bind_eq_ok, pure_eq_ok, Prod.exists, Prod.mk.injEq] at run
      obtain ⟨done, _, h, replied, rfl⟩ := run
      cases done with
      | error => cases replied
      | ok =>
        obtain ⟨_, _, _, -, -, -, -, -, -, rfl⟩ := Graph.detach_ok h
        rfl

/-- An edit gives out the next handles, and the values it creates are under them. -/
theorem Step.issues (built : w.Built) (edit : w.Step e answer w') :
    w.Issues (w'.handed e answer) w' := by
  have num := built.numbered
  cases e with
  | define | declare =>
    obtain ⟨run⟩ := edit
    simp only [Workspace.apply, bind_eq_ok, pure_eq_ok, Prod.exists, Prod.mk.injEq] at run
    obtain ⟨_, _, h, rfl, rfl⟩ := run
    exact issues_addFunc h
  | addGlobal =>
    obtain ⟨run⟩ := edit
    simp only [Workspace.apply, Program.addGlobal, bind_eq_ok, pure_eq_ok, Prod.exists,
      Prod.mk.injEq] at run
    obtain ⟨_, _, ⟨_, _, h, rfl, rfl⟩, rfl, rfl⟩ := run
    exact issues_created (Graph.createGlobal_created num h)
  | addBlock =>
    obtain ⟨run⟩ := edit
    simp only [Workspace.apply, bind_eq_ok, pure_eq_ok, Prod.exists, Prod.mk.injEq] at run
    obtain ⟨_, _, h, rfl, rfl⟩ := run
    exact issues_created (Graph.createBlock_created num h)
  | build =>
    obtain ⟨run⟩ := edit
    simp only [Workspace.apply, Graph.build, bind_eq_ok, pure_eq_ok, Prod.exists, Prod.mk.injEq] at run
    obtain ⟨_, _, ⟨-, -, _, -, h⟩, rfl, rfl⟩ := run
    exact issues_created (Graph.insert_created num h)
  | reinsert =>
    obtain ⟨run⟩ := edit
    simp only [Workspace.apply, Graph.reinsert, bind_eq_ok, pure_eq_ok, Prod.exists,
      Prod.mk.injEq] at run
    obtain ⟨_, -, _, _, ⟨-, -, h⟩, rfl, rfl⟩ := run
    exact issues_created (Graph.insert_created num h)
  | rename | setOperand | replaceAllUses | addIncoming | removeValue | removeInst | attach | detach =>
    rw [handed_of_not_creates rfl]
    exact issues_none (edit.next_eq built rfl)

/-! ## Later states -/

/-- A handle that was given out and has a value had it all along. -/
theorem Built.old_live (built : w.Built) (path : ReflTransGen Change w w') (old : x < w.graph.next) :
    x < w'.graph.next ∧ (x ∈ w'.graph.values → x ∈ w.graph.values) := by
  induction path with
  | refl => exact ⟨old, id⟩
  | @tail w₁ w₂ before last ih =>
    obtain ⟨old, kept⟩ := ih
    have num := (built.changes before).numbered
    refine ⟨Nat.lt_of_lt_of_le old (last.extends num).next, fun live => kept ?_⟩
    obtain ⟨e, found⟩ := Table.getElem?_of_mem live
    obtain ⟨former, entry, -⟩ := last.entry_old num old found
    exact Table.mem_of_getElem? entry

/-- Edits that do not fault lead from one workspace to the other. -/
def Later : Workspace → Workspace → Prop := ReflTransGen fun w w' => ∃ e answer, w.Step e answer w'

theorem Later.changes (built : w.Built) (later : w.Later w') : ReflTransGen Change w w' := by
  induction later with
  | refl => exact .refl
  | tail _ last ih =>
    obtain ⟨e, answer, edit⟩ := last
    exact ih.trans ((edit.changes (built.changes ih)).lift id fun _ _ change => change.change)

theorem not_live_again (built : w.Built) (later : w.Later w') (old : x < w.graph.next)
    (dead : x ∉ w.graph.values) : x ∉ w'.graph.values := fun live =>
  dead ((built.old_live (later.changes built) old).2 live)

/-- A value that was removed is not there any more. -/
theorem Step.dead_of_removed {v : ValueId} {reply : Reply} (edit : w.Step e (.ok reply) w')
    (removal : e = .removeValue v ∨ e = .removeInst v) : v ∉ w'.graph.values := by
  obtain ⟨entry, g, h, rfl⟩ := edit.removal removal
  obtain ⟨g₁, (_ : ReflTransGen Graph.Change w.graph g₁), -, rfl⟩ := Graph.removeValue_ok h
  show v ∉ (g₁.without v entry.operands).values
  intro live
  obtain ⟨e, found⟩ := Table.getElem?_of_mem live
  rw [Graph.getElem?_without_self] at found
  cases found

/-- What an edit does with handles: those it gives out are those of the new values, they were nowhere
before, a refused edit gives out none, and a removed value leaves its handle without one. -/
structure HandsOut (w : Workspace) (e : Edit) (answer : Except Refusal Reply) (w' : Workspace) : Prop where
  created : ∀ x, x ∈ w'.handed e answer ↔ x ∈ w'.graph.values ∧ x ∉ w.graph.values
  fresh : ∀ x ∈ w'.handed e answer, ¬w.Occurs x
  refused : ∀ reason, answer = .error reason →
    w'.handed e answer = [] ∧ w'.graph.next = w.graph.next
  removed : ∀ v reply, e = .removeValue v ∨ e = .removeInst v → answer = .ok reply →
    v ∉ w'.graph.values

theorem Step.handsOut (built : w.Built) (edit : w.Step e answer w') : w.HandsOut e answer w' := by
  have issues := edit.issues built
  have new : ∀ x ∈ w'.handed e answer, w.graph.next ≤ x := by
    intro x hx
    rw [issues.inOrder, List.mem_range'_1] at hx
    exact hx.1
  have fresh : ∀ x ∈ w'.handed e answer, ¬w.Occurs x :=
    fun x hx occurs => Nat.not_lt.2 (new x hx) (built.occurs_lt occurs)
  refine ⟨fun x => ⟨fun hx => ?_, fun ⟨live, dead⟩ => ?_⟩, fresh, fun reason refused => ?_,
    fun v reply removal granted => ?_⟩
  · exact ⟨issues.live x hx, fun old => fresh x hx (.value old)⟩
  · have path := (edit.changes built).lift id fun _ _ change => change.change
    rw [issues.inOrder, List.mem_range'_1, ← issues.next]
    refine ⟨Nat.not_lt.1 fun old => dead ((built.old_live path old).2 live), ?_⟩
    exact (edit.built built).numbered.values x live
  · subst refused
    exact ⟨rfl, issues.next⟩
  · subst granted
    exact edit.dead_of_removed removal

/-! ## Runs -/

/-- A run that gave out these handles, in this order, leads to the workspace. -/
inductive Run : List ValueId → Workspace → Prop
  | start (name : String) : Run [] (start name)
  | step {ids : List ValueId} {w w' : Workspace} {e : Edit} {answer : Except Refusal Reply}
      (run : Run ids w) (edit : w.Step e answer w') : Run (ids ++ w'.handed e answer) w'

theorem Run.reachable {ids : List ValueId} (run : Run ids w) : w.Reachable := by
  induction run with
  | start name => exact .start name
  | step _ edit ih => exact ih.step edit

theorem Reachable.exists_run (h : w.Reachable) : ∃ ids, Run ids w := by
  induction h with
  | start name => exact ⟨[], .start name⟩
  | step _ edit ih =>
    obtain ⟨ids, run⟩ := ih
    exact ⟨_, run.step edit⟩

theorem Run.inOrder {ids : List ValueId} (run : Run ids w) :
    ids = List.range' 1 ids.length ∧ w.graph.next = ids.length + 1 ∧
      w.graph.next < Graph.handleLimit := by
  induction run with
  | start name => exact ⟨rfl, rfl, show 1 < UInt32.size by decide⟩
  | @step ids w w' e answer run edit ih =>
    obtain ⟨own, next, room⟩ := ih
    have issues := edit.issues run.reachable.built
    refine ⟨?_, ?_, ?_⟩
    · rw [List.length_append, ← List.range'_append_1, ← own, Nat.add_comm 1, ← next, ← issues.inOrder]
    · rw [issues.next, next, List.length_append]
      exact Nat.add_right_comm ids.length 1 _
    · by_cases none : w'.handed e answer = []
      · rw [issues.next, none]
        exact room
      · exact issues.room none

/-- A constant that is created and removed uses up one number. -/
theorem Reachable.skip (h : w.Reachable) (room : w.graph.next + 1 < Graph.handleLimit) :
    ∃ w' : Workspace, w'.Reachable ∧ w'.graph = { w.graph with next := w.graph.next + 1 } := by
  let zero : Value := { ty := .i32, kind := .integer 0 }
  let w₁ := w.withGraph (w.graph.entered zero)
  have created : w.graph.build (.integer 0) none = .ok (w.graph.next, w.graph.entered zero) :=
    Graph.build_constant (by simp) rfl rfl rfl room
  have removed : w₁.graph.removeValue w.graph.next =
      .ok (.ok zero, { w.graph with next := w.graph.next + 1 }) :=
    Graph.removeValue_entered h.built.numbered ⟨rfl, rfl, rfl⟩ rfl (by simp [zero]) (by simp [zero])
  have creation : w.Step (.build (.integer 0) none) (.ok (.handle w.graph.next)) w₁ :=
    .apply (bind_eq_ok.2 ⟨_, created, rfl⟩)
  have removal : w₁.Step (.removeValue w.graph.next) _ _ := .apply (bind_eq_ok.2 ⟨_, removed, rfl⟩)
  exact ⟨_, (h.step creation).step removal, rfl⟩

/-- Any later number can be made the next one, with nothing else in the graph changed. -/
theorem Reachable.skip_to (h : w.Reachable) {last : Nat} (later : w.graph.next ≤ last)
    (room : last < Graph.handleLimit) :
    ∃ w' : Workspace, w'.Reachable ∧ w'.graph = { w.graph with next := last } := by
  induction later with
  | refl => exact ⟨w, h, rfl⟩
  | step _ ih =>
    obtain ⟨w₁, reached, same⟩ := ih (Nat.lt_of_succ_lt room)
    obtain ⟨w', reached', same'⟩ := reached.skip (by rw [same]; exact room)
    exact ⟨w', reached', by rw [same', same]⟩

/-- All numbers can be used up around a graph. -/
theorem Reachable.exists_exhausted (h : w.Reachable) : ∃ w' : Workspace, w'.Reachable ∧
    w'.graph = { w.graph with next := Graph.handleLimit - 1 } := by
  obtain ⟨ids, run⟩ := h.exists_run
  obtain ⟨-, -, room⟩ := run.inOrder
  exact h.skip_to (Nat.le_sub_one_of_lt room) (by decide)

theorem Step.handle_of_creates (edit : w.Step e answer w') (creates : e.creates = true) :
    ∃ id, answer = .ok (.handle id) := by
  cases e with
  | rename | setOperand | replaceAllUses | addIncoming | removeValue | removeInst | attach | detach =>
    cases creates
  | define | declare | addGlobal | addBlock | build =>
    obtain ⟨run⟩ := edit
    simp only [Workspace.apply, bind_eq_ok, pure_eq_ok, Prod.exists, Prod.mk.injEq] at run
    obtain ⟨id, _, -, rfl, -⟩ := run
    exact ⟨id, rfl⟩
  | reinsert =>
    obtain ⟨run⟩ := edit
    simp only [Workspace.apply, bind_eq_ok, pure_eq_ok, Prod.exists, Prod.mk.injEq] at run
    obtain ⟨_, -, id, _, -, rfl, -⟩ := run
    exact ⟨id, rfl⟩

/-- At the end of the numbers every edit that would create a value faults. -/
theorem Built.faults_of_full (built : w.Built) (full : ¬w.graph.next + 1 < Graph.handleLimit)
    (creates : e.creates = true) : Faults (w.apply e) := by
  cases run : w.apply e with
  | error fault => exact ⟨fault, rfl⟩
  | ok result =>
    obtain ⟨answer, w'⟩ := result
    have edit : w.Step e answer w' := .apply run
    obtain ⟨id, rfl⟩ := edit.handle_of_creates creates
    have issues := edit.issues built
    have ids : w'.handed e (.ok (.handle id)) = id :: w'.graph.paramsOf id := if_pos creates
    rw [ids] at issues
    have room := issues.room (by simp)
    rw [issues.next, List.length_cons] at room
    exact absurd (Nat.lt_of_le_of_lt (Nat.add_le_add_left (Nat.le_add_left 1 _) _) room) full

/-- Handles are given out once. In every run they are 1, 2, 3 and so on, one for each value created and
none for a refused edit; a handle that lost its value never has one again; and when a value is created
its handle stands nowhere in the workspace, which for the parameters of a function is the workspace with
the function and the parameters before them. The counter stays a 32-bit number: where it can not be
advanced, nothing is created. -/
theorem handles_used_once {ids : List ValueId} (run : Run ids w) :
    (ids = List.range' 1 ids.length ∧ w.graph.next = ids.length + 1 ∧ w.graph.next < UInt32.size) ∧
      (∀ e answer w', w.Step e answer w' → w.HandsOut e answer w') ∧
      (∀ x ∈ ids, x ∉ w.graph.values → ∀ w', w.Later w' → x ∉ w'.graph.values) ∧
      (∀ ty name id g params made g', w.graph.createNamed { ty, kind := .function } name = .ok (id, g) →
        g.createParams 0 params = .ok (made, g') → ¬(w.withGraph g').Occurs g'.next) ∧
      (¬w.graph.next + 1 < UInt32.size → ∀ e, e.creates = true → Faults (w.apply e)) ∧
      ∀ g : Graph, ¬g.next + 1 < UInt32.size → ∀ v, g.create v = .error .tooManyValues := by
  have built := run.reachable.built
  have inOrder := run.inOrder
  refine ⟨inOrder, fun e answer w' edit => edit.handsOut built, fun x hx dead w' later => ?_,
    fun ty name id g params made g' function created occurs => ?_,
    fun full e creates => built.faults_of_full full creates, fun g => Graph.create_exhausted⟩
  · rw [inOrder.1, List.mem_range'_1, Nat.add_comm, ← inOrder.2.1] at hx
    exact not_live_again built later hx.2 dead
  · obtain ⟨-, -, -, rfl, rfl⟩ := Graph.createNamed_eq_ok.1 function
    obtain ⟨vs, plain, -, rfl, -⟩ := Graph.createParams_ok created
    have first := Graph.grown_entered built.numbered
      (v := { ty, kind := .function, name }) ⟨rfl, rfl, rfl⟩ rfl
    have rest := Graph.grown_foldl_entered (first.numbered built.numbered)
      (fun v hv => ⟨(plain v hv).1.toIdle, (plain v hv).2⟩)
    exact Nat.lt_irrefl _ (built.occurs_lt_grown (first.trans rest)
      (Graph.functions_foldl_entered _) occurs)

/-- In the loop the addition was removed and put back under another handle; the first one stays dead. -/
theorem handles_used_once_loop : Run (List.range' 1 10) loop ∧
    (∀ w', loop.Later w' → 8 ∉ w'.graph.values) ∧
    ∃ w', loop.Step (.build (.integer 5) none) (.ok (.handle 11)) w' ∧ ¬loop.Occurs 11 := by
  obtain ⟨ids, run⟩ := reachable_loop.exists_run
  obtain ⟨⟨own, next, -⟩, edits, again, -⟩ := handles_used_once run
  have last : loop.graph.next = 11 := by decide +kernel
  have ten : ids.length = 10 := Nat.succ.inj (next.symm.trans last)
  rw [ten] at own
  subst own
  obtain ⟨w', edit⟩ : ∃ w', loop.Step (.build (.integer 5) none) (.ok (.handle 11)) w' :=
    Step.of_answer (by decide +kernel)
  refine ⟨run, again 8 (by decide) (by decide +kernel), w', edit, ?_⟩
  exact (edits _ _ _ edit).fresh 11 (List.mem_cons_self ..)

end Workspace

end SsaGraph
