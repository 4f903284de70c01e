import Mathlib.Logic.Equiv.Basic
import SsaGraph.Proofs.Handles
import SsaGraph.Proofs.Mirroring
import SsaGraph.Proofs.Pages

/-!
# Printing does not show handles

A program can be built under many numberings: constants may be created earlier or later, and values that
are never printed may come and go. `Program.Carried` says that one program is another under a different
numbering, as far as printing goes through its lists. Such programs are printed alike, whatever the sink
and whatever was printed before.

Results:
* `Built.outline_relabel`: corresponding items stand on corresponding lines;
* `Built.mirrors_line`, `dumpItems_relabel`: each line is rendered alike, and so are all of them in a row;
* `Step.carried`: an edit outside the layouts leaves the program as it was, up to what is not printed;
* `printing_ignores_handles`: both, for all runs.
-/
namespace SsaGraph

variable {r : ValueId → ValueId}

/-! ## Programs under another numbering -/

namespace Graph

theorem mem_operandsOf {g : Graph} {x v : ValueId} :
    x ∈ g.operandsOf v ↔ ∃ e, g.values[v]? = some e ∧ x ∈ e.operands := by
  unfold operandsOf
  cases g.values[v]? <;> simp

theorem mem_paramsOf {g : Graph} {x : ValueId} {f : FuncId} :
    x ∈ g.paramsOf f ↔ ∃ func, g.functions[f]? = some func ∧ x ∈ func.params := by
  unfold paramsOf
  cases g.functions[f]? <;> simp

/-- The type of a function and whether it is a declaration. -/
def signatureOf (g : Graph) (f : FuncId) : Option (Ty × Bool) :=
  g.functions[f]?.map fun func => (func.ty, func.isDecl)

end Graph

namespace Program

/-- The values with a line of their own, functions and blocks apart. -/
def printed (p : Program) : List ValueId := p.globals ++ p.insts

/-- Everything in the lists that printing goes through: the layouts, parameters, blocks, instructions,
predecessors, and the operands of what is printed. -/
def mentioned (p : Program) : List ValueId :=
  p.functions ++ p.functions.flatMap p.graph.paramsOf ++ p.blocks ++ p.blocks.flatMap p.graph.predsOf ++
    p.printed ++ p.printed.flatMap p.graph.operandsOf

/-- `r` carries the lists of `p` to those of `q`, and what they mention looks the same. -/
structure Carried (r : ValueId → ValueId) (p q : Program) : Prop where
  injective : Function.Injective r
  globals : q.globals = p.globals.map r
  functions : q.functions = p.functions.map r
  signature : ∀ f ∈ p.functions, q.graph.signatureOf (r f) = p.graph.signatureOf f
  params : ∀ f ∈ p.functions, q.graph.paramsOf (r f) = (p.graph.paramsOf f).map r
  blocksOf : ∀ f ∈ p.functions, q.graph.blocksOf (r f) = (p.graph.blocksOf f).map r
  insts : ∀ b ∈ p.blocks, q.graph.instsOf (r b) = (p.graph.instsOf b).map r
  preds : ∀ b ∈ p.blocks, q.graph.predsOf (r b) = (p.graph.predsOf b).map r
  operands : ∀ x ∈ p.printed, q.graph.operandsOf (r x) = (p.graph.operandsOf x).map r
  /-- Both are live and have the same kind, type and name, or both are not live. -/
  faces : ∀ x ∈ p.mentioned, q.graph.faceOf (r x) = p.graph.faceOf x

/-- Printing the programs writes the same bytes, logs the same entries with the same counts and ends in the
same way: into any sink, after anything that was printed before, and any number of times. -/
def PrintsLike (p q : Program) : Prop :=
  ∀ (out : Text.Printout) (times : Nat), out.rounds p.dump times = out.rounds q.dump times

theorem PrintsLike.of_dump {p q : Program} (same : p.dump = q.dump) : p.PrintsLike q :=
  fun out times => by rw [same]

end Program

/-! ## Items under another numbering -/

def Func.relabel (r : ValueId → ValueId) (func : Func) : Func :=
  { func with params := func.params.map r, blocks := func.blocks.map r }

namespace Text

def Item.relabel (r : ValueId → ValueId) : Item → Item
  | global id => global (r id)
  | blank => blank
  | header id func => header (r id) (func.relabel r)
  | label id => label (r id)
  | inst id => inst (r id)
  | close => close
  | broken fault => broken fault

theorem map_intercalate_blank (parts : List (List Item)) :
    ([Item.blank].intercalate parts).map (Item.relabel r) =
      [Item.blank].intercalate (parts.map (List.map (Item.relabel r))) := by
  induction parts with
  | nil => rfl
  | cons part parts ih =>
    cases parts with
    | nil => simp
    | cons next parts =>
      simp only [List.map_cons] at ih ⊢
      rw [List.intercalate_cons_cons, List.intercalate_cons_cons, List.map_append, List.map_append, ih]
      rfl

/-- Lines that are rendered alike one by one are rendered alike in a row. -/
theorem dumpItems_relabel {g h : Graph} {items : List Item}
    (each : ∀ item ∈ items, Mirrors r (item.line g) ((item.relabel r).line h)) {names names' : Names}
    (alike : names.Alike r names') :
    dumpItems h names' (items.map (Item.relabel r)) = dumpItems g names items := by
  -- along the items; what carries over from line to line are the names, which stay alike
  induction items generalizing names names' with
  | nil => rfl
  | cons item rest ih =>
    obtain ⟨result, pens⟩ := each item (List.mem_cons_self ..) { names } { names := names' } ⟨alike, rfl⟩
    have later := fun {n n'} => @ih (fun i hi => each i (List.mem_cons_of_mem _ hi)) n n'
    rw [List.map_cons, dumpItems, dumpItems]
    generalize (item.line g).run { names } = x at result pens
    generalize ((item.relabel r).line h).run { names := names' } = y at result pens
    obtain ⟨x, pen⟩ := x
    obtain ⟨y, pen'⟩ := y
    obtain rfl : y = x := result
    have notes : pen'.notes = pen.notes := pens.notes
    cases y with
    | error fault =>
      dsimp only
      rw [notes]
    | ok text =>
      dsimp only
      rw [notes, later pens.names]

end Text

namespace Program.Carried

variable {p q : Program}

theorem blocks_eq (carried : p.Carried r q) : q.blocks = p.blocks.map r := by
  rw [Program.blocks, Program.blocks, carried.functions, List.flatMap_map, List.map_flatMap]
  exact List.flatMap_congr fun f hf => carried.blocksOf f hf

theorem func (carried : p.Carried r q) {f : FuncId} (listed : f ∈ p.functions) :
    q.graph.functions[r f]? = p.graph.functions[f]?.map (Func.relabel r) := by
  have signature := carried.signature f listed
  have params := carried.params f listed
  have blocks := carried.blocksOf f listed
  unfold Graph.signatureOf at signature
  unfold Graph.paramsOf at params
  unfold Graph.blocksOf at blocks
  cases found : p.graph.functions[f]? with
  | none =>
    rw [found, Option.map_none, Option.map_eq_none_iff] at signature
    exact signature
  | some func =>
    rw [found, Option.map_some, Option.map_eq_some_iff] at signature
    obtain ⟨func', found', same⟩ := signature
    rw [found', found] at params blocks
    obtain ⟨ty, isDecl⟩ := Prod.mk.inj same
    rw [found', Option.map_some]
    cases func
    cases func'
    simp_all [Func.relabel]

end Program.Carried

namespace Workspace

open Text Relation

variable {w w' : Workspace} {x : ValueId} {e : Edit} {answer : Except Refusal Reply}

/-- Blocks that functions list exist, so a block has lines under every numbering. -/
theorem Built.blockItems_relabel (h : w.Built) (h' : w'.Built)
    (carried : w.program.Carried r w'.program) {b : BlockId} (listed : b ∈ w.program.blocks) :
    blockItems w'.graph (r b) = (blockItems w.graph b).map (Item.relabel r) := by
  have listed' : r b ∈ w'.program.blocks := carried.blocks_eq ▸ List.mem_map_of_mem listed
  obtain ⟨block, found⟩ := Table.getElem?_of_mem ((h.mem_blocks b).1 listed)
  obtain ⟨block', found'⟩ := Table.getElem?_of_mem ((h'.mem_blocks (r b)).1 listed')
  have lists : w'.graph.instsOf (r b) = (w.graph.instsOf b).map r := carried.insts b listed
  rw [Graph.instsOf_eq found, Graph.instsOf_eq found'] at lists
  simp only [blockItems, found, found', lists, List.map_cons, List.map_map]
  rfl

theorem Built.funcItems_relabel (h : w.Built) (h' : w'.Built)
    (carried : w.program.Carried r w'.program) {f : FuncId} (listed : f ∈ w.program.functions) :
    funcItems w'.graph (r f) = (funcItems w.graph f).map (Item.relabel r) := by
  obtain ⟨func, found⟩ := Table.getElem?_of_mem ((h.laidOut.mem f).1 listed)
  have found' : w'.graph.functions[r f]? = some (func.relabel r) := by
    rw [show w'.graph.functions[r f]? = _ from carried.func listed]
    exact congrArg (Option.map (Func.relabel r)) found
  have body : (func.blocks.map r).map (blockItems w'.graph) =
      (func.blocks.map (blockItems w.graph)).map (List.map (Item.relabel r)) := by
    rw [List.map_map, List.map_map]
    refine List.map_congr_left fun b hb => h.blockItems_relabel h' carried ?_
    exact List.mem_flatMap.2 ⟨f, listed, Graph.mem_blocksOf.2 ⟨func, found, hb⟩⟩
  unfold funcItems
  rw [found, found']
  dsimp only
  rw [show (func.relabel r).isDecl = func.isDecl from rfl]
  cases func.isDecl with
  | true => rfl
  | false =>
    show Item.header (r f) _ :: [Item.blank].intercalate ((func.blocks.map r).map _) ++ [Item.close] = _
    rw [body, ← map_intercalate_blank]
    simp [Item.relabel]

/-- Corresponding items stand on corresponding lines. -/
theorem Built.outline_relabel (h : w.Built) (h' : w'.Built) (carried : w.program.Carried r w'.program) :
    w'.program.outline = w.program.outline.map (Item.relabel r) := by
  have functions : w'.program.functions.map (funcItems w'.graph) =
      (w.program.functions.map (funcItems w.graph)).map (List.map (Item.relabel r)) := by
    rw [carried.functions, List.map_map, List.map_map]
    exact List.map_congr_left fun f hf => h.funcItems_relabel h' carried hf
  have globals : w'.program.globals.map Item.global =
      (w.program.globals.map Item.global).map (Item.relabel r) := by
    rw [carried.globals, List.map_map, List.map_map]
    rfl
  rw [Program.outline, Program.outline, map_intercalate_blank, Program.sections, Program.sections,
    List.map_append]
  refine congrArg _ (congrArg₂ _ ?_ functions)
  rw [globals, carried.globals, List.isEmpty_map]
  cases w.program.globals.isEmpty <;> rfl

/-! ## Lines -/

theorem sameOperands_of_carried (carried : w.program.Carried r w'.program)
    (listed : x ∈ w.program.printed) : w.graph.SameOperands r w'.graph x where
  face := carried.faces x (by simp [Program.mentioned, listed])
  operands := carried.operands x listed
  mentioned y hy := carried.faces y (List.mem_append_right _ (List.mem_flatMap.2 ⟨x, listed, hy⟩))

theorem Built.samePreds (h : w.Built) (h' : w'.Built) (carried : w.program.Carried r w'.program)
    {b : BlockId} (live : b ∈ w.graph.blocks) : w.graph.SamePreds r w'.graph b := by
  have listed := (h.mem_blocks b).2 live
  refine ⟨live, (h'.mem_blocks (r b)).1 (carried.blocks_eq ▸ List.mem_map_of_mem listed),
    carried.preds b listed, fun p hp => carried.faces p ?_⟩
  have pred : p ∈ w.program.blocks.flatMap w.program.graph.predsOf := List.mem_flatMap.2 ⟨b, listed, hp⟩
  simp [Program.mentioned, pred]

/-- Each line is rendered alike, whatever it shows. -/
theorem Built.mirrors_line (h : w.Built) (h' : w'.Built) (carried : w.program.Carried r w'.program)
    {item : Item} (member : item ∈ w.program.outline) :
    Mirrors r (item.line w.graph) ((item.relabel r).line w'.graph) := by
  have inj := carried.injective
  by_cases blank : item = .blank
  · subst blank
    exact .pure _
  cases (h.mem_outline_iff blank).1 member with
  | @global x listed =>
    exact mirrors_globalLine inj (sameOperands_of_carried carried (List.mem_append_left _ listed))
  | @header f func found =>
    have listed := (h.laidOut.mem f).2 (Table.mem_of_getElem? found)
    refine mirrors_headerLine inj (carried.faces f (by simp [Program.mentioned, listed])) rfl rfl rfl
      fun y hy => carried.faces y ?_
    have params : w.graph.paramsOf f = func.params := by simp [Graph.paramsOf, found]
    have param : y ∈ w.program.functions.flatMap w.program.graph.paramsOf :=
      List.mem_flatMap.2 ⟨f, listed, params ▸ hy⟩
    simp [Program.mentioned, param]
  | @label b live =>
    have face := carried.faces b (by simp [Program.mentioned, (h.mem_blocks b).2 live])
    refine .lift (agree_value face) ?_
    rintro e e' ⟨-, -, same⟩
    exact (mirrors_bareNameOf inj b same).bind fun _ => .pure _
  | @inst v b attached =>
    -- the parents are not part of the lists: both come from the block that lists the instruction
    have place := (h.placed.filed.iff v b).1 attached
    obtain ⟨block, found, -⟩ := Graph.mem_instsOf.1 place
    have live := Table.mem_of_getElem? found
    have listed : v ∈ w.program.insts := (h.mem_insts v).2 ⟨b, attached⟩
    have place' : r v ∈ w'.graph.instsOf (r b) := by
      rw [show w'.graph.instsOf (r b) = _ from carried.insts b ((h.mem_blocks b).2 live)]
      exact List.mem_map_of_mem place
    exact (mirrors_instruction inj (sameOperands_of_carried carried (List.mem_append_right _ listed))
      (h.samePreds h' carried live) attached ((h'.placed.filed.iff _ _).2 place')).bind fun _ => .pure _
  | close => exact .pure _

theorem Built.dump_relabel (h : w.Built) (h' : w'.Built) (carried : w.program.Carried r w'.program) :
    w'.program.dump = w.program.dump := by
  rw [Program.dump, h.outline_relabel h' carried]
  exact dumpItems_relabel (fun item member => h.mirrors_line h' carried member) .empty

/-! ## Edits that are not printed -/

/-- The value is no global of the layout, no parameter and not attached. -/
structure Unlisted (w : Workspace) (v : ValueId) : Prop where
  global : v ∉ w.program.globals
  param : ∀ f, v ∉ w.graph.paramsOf f
  detached : w.graph.parentOf v = none

/-- The edit creates a constant or a detached instruction, puts a removed value back without attaching it,
or removes a value outside the layouts. -/
inductive OffStage (w : Workspace) : Edit → Prop
  | build {draft : Draft} {spot : Option BlockId}
      (aside : ∀ v, draft.value w.graph = .ok v → v.kind.isInst = true → spot = none) :
      OffStage w (.build draft spot)
  | reinsert {v : ValueId} {spot : Option BlockId}
      (aside : ∀ entry, w.removed[v]? = some entry → entry.kind.isInst = true → spot = none) :
      OffStage w (.reinsert v spot)
  | removeValue {v : ValueId} (unlisted : w.Unlisted v) : OffStage w (.removeValue v)
  | removeInst {v : ValueId} (unlisted : w.Unlisted v) : OffStage w (.removeInst v)

/-- Where a handle that printing comes across stands. -/
inductive Met (w : Workspace) (x : ValueId) : Prop
  | function (live : x ∈ w.graph.functions)
  | block (live : x ∈ w.graph.blocks)
  | param {f : FuncId} (listed : x ∈ w.graph.paramsOf f)
  | global (listed : x ∈ w.program.globals)
  | inst {b : BlockId} (attached : w.graph.parentOf x = some b)
  | operand {u : Use} (held : w.graph.slot u = some x)

theorem Built.met (h : w.Built) (mentioned : x ∈ w.program.mentioned) : w.Met x := by
  simp only [Program.mentioned, Program.printed, List.mem_append, List.mem_flatMap] at mentioned
  rcases mentioned with ((((function | ⟨f, -, param⟩) | block) | ⟨b, -, pred⟩) | global | inst) |
    ⟨v, -, operand⟩
  · exact .function ((h.laidOut.mem x).1 function)
  · exact .param param
  · exact .block ((h.mem_blocks x).1 block)
  · exact .block (h.records.mem_blocks ((h.records.preds x b).1 pred)).1
  · exact .global global
  · obtain ⟨b, attached⟩ := (h.mem_insts x).1 inst
    exact .inst attached
  · obtain ⟨e, entry, member⟩ := Graph.mem_operandsOf.1 operand
    obtain ⟨i, held⟩ := List.mem_iff_getElem?.1 member
    exact .operand (u := ⟨v, i⟩) (Graph.slot_eq_some.2 ⟨e, entry, held⟩)

/-- Printing comes across handles that were given out, so a new value is not among them. -/
theorem Built.mentioned_lt (h : w.Built) (mentioned : x ∈ w.program.mentioned) : x < w.graph.next := by
  have num := h.numbered
  cases h.met mentioned with
  | function live => exact num.functions x live
  | block live => exact num.blocks x live
  | @param f listed =>
    obtain ⟨func, found, param⟩ := Graph.mem_paramsOf.1 listed
    exact (h.params f func found x param).1
  | global listed => exact (h.globals x listed).1
  | inst attached =>
    obtain ⟨e, entry, -⟩ := Graph.parentOf_eq_some.1 attached
    exact num.values x (Table.mem_of_getElem? entry)
  | operand held => exact num.values x (h.useDef.live held)

/-- An unused value outside the layouts is not among them either. -/
theorem Built.not_mentioned (h : w.Built) {v : ValueId} {entry : Value}
    (found : w.graph.values[v]? = some entry) (unused : entry.uses = ∅) (noBlock : entry.kind ≠ .block)
    (noFunction : entry.kind ≠ .function) (unlisted : w.Unlisted v) : v ∉ w.program.mentioned := by
  have kind : w.graph.kindOf v = some entry.kind := Graph.kindOf_eq_some.2 ⟨entry, found, rfl⟩
  intro mentioned
  cases h.met mentioned with
  | function live =>
    rw [h.catalogued.function v, kind] at live
    exact noFunction (Option.some.inj live)
  | block live =>
    rw [h.catalogued.block v, kind] at live
    exact noBlock (Option.some.inj live)
  | param listed => exact unlisted.param _ listed
  | global listed => exact unlisted.global listed
  | inst attached =>
    rw [unlisted.detached] at attached
    cases attached
  | @operand u held =>
    obtain ⟨e, entry', member⟩ := Graph.mem_usesOf.1 ((h.useDef v u).2 held)
    rw [found] at entry'
    cases entry'
    rw [unused] at member
    simp at member

/-- What is read of a value that is mentioned. -/
def view (e : Value) : (Kind × Ty × Option String) × List ValueId := (e.face, e.operands)

/-- A graph with the same lists, in which all that they mention is the same up to its uses. -/
theorem carried_of_views {g : Graph} (blocks : g.blocks = w.graph.blocks)
    (functions : g.functions = w.graph.functions)
    (views : ∀ x ∈ w.program.mentioned, g.values[x]?.map view = w.graph.values[x]?.map view) :
    w.program.Carried id (w.withGraph g).program := by
  obtain ⟨values, _, _, next⟩ := g
  obtain rfl : _ = w.graph.blocks := blocks
  obtain rfl : _ = w.graph.functions := functions
  have lists : ∀ l : List ValueId, l = l.map id := fun l => (List.map_id l).symm
  refine ⟨Function.injective_id, lists _, lists _, fun _ _ => rfl, fun _ _ => lists _, fun _ _ => lists _,
    fun _ _ => lists _, fun _ _ => lists _, fun x listed => ?_, fun x mentioned => ?_⟩
  · have same := congrArg (Option.map Prod.snd) (views x (by simp [Program.mentioned, listed]))
    rw [Option.map_map, Option.map_map] at same
    rw [← lists]
    exact congrArg (·.getD []) same
  · have same := congrArg (Option.map Prod.fst) (views x mentioned)
    rw [Option.map_map, Option.map_map] at same
    exact same

theorem Built.carried_entered (h : w.Built) (v : Value) :
    w.program.Carried id (w.withGraph (w.graph.entered v)).program := by
  refine carried_of_views rfl rfl fun x mentioned => ?_
  rw [Graph.view_entered view (fun _ _ => rfl), if_neg (Nat.ne_of_lt (h.mentioned_lt mentioned))]

/-- What is not mentioned is not missed. -/
theorem Built.carried_removed (h : w.Built) {v : ValueId} {removed : Value} {g : Graph}
    (run : w.graph.removeValue v = .ok (.ok removed, g)) (unlisted : w.Unlisted v) :
    w.program.Carried id (w.withGraph g).program := by
  obtain ⟨e, entry, unused, noBlock, noFunction, -, ⟨-, rfl⟩ | ⟨block, _, attached, -⟩⟩ :=
    Graph.removeValue_split run
  · have absent := h.not_mentioned entry unused noBlock noFunction unlisted
    refine carried_of_views rfl rfl fun x mentioned => ?_
    have ne : x ≠ v := fun same => absent (same ▸ mentioned)
    rw [Graph.view_without view (fun _ _ => rfl), if_neg ne]
  · have parent := Graph.parentOf_eq_some.2 ⟨e, entry, attached⟩
    rw [unlisted.detached] at parent
    cases parent

theorem carried_refl (w : Workspace) : w.program.Carried id w.program :=
  carried_of_views (w := w) rfl rfl fun _ _ => rfl

end Workspace

/-- What is not placed is just entered. -/
theorem Graph.insert_aside {g g' : Graph} {v : Value} {spot : Option BlockId} {id : ValueId}
    (run : g.insert v spot = .ok (id, g')) (aside : v.kind.isInst = true → spot = none) :
    g' = g.entered v := by
  simp only [insert, bind_eq_ok, Prod.exists, create_eq_ok] at run
  obtain ⟨_, _, ⟨-, -, rfl, rfl⟩, run⟩ := run
  cases spot with
  | none =>
    simp only [pure_eq_ok, Prod.mk.injEq] at run
    exact run.2
  | some block =>
    have const : v.kind.isInst = false := by
      cases inst : v.kind.isInst with
      | false => rfl
      | true => cases aside inst
    simp only [const, Bool.false_eq_true, if_false, pure_eq_ok, Prod.mk.injEq] at run
    exact run.2

namespace Workspace

open Text Relation

variable {w w' : Workspace} {e : Edit} {answer : Except Refusal Reply}

/-- An edit outside the layouts keeps all that is printed. -/
theorem Step.carried (built : w.Built) (edit : w.Step e answer w') (aside : w.OffStage e) :
    w.program.Carried id w'.program := by
  cases answer with
  | error reason =>
    rw [(built.refusedExactly edit).same reason rfl]
    exact carried_refl w
  | ok reply =>
    cases aside with
    | build aside =>
      obtain ⟨run⟩ := edit
      simp only [Workspace.apply, Graph.build, bind_eq_ok, pure_eq_ok, Prod.exists, Prod.mk.injEq] at run
      obtain ⟨_, g, ⟨-, -, v, made, entered⟩, -, rfl⟩ := run
      rw [Graph.insert_aside entered (aside v made)]
      exact built.carried_entered v
    | reinsert aside =>
      obtain ⟨run⟩ := edit
      simp only [Workspace.apply, Graph.reinsert, removedEntry, Table.fetch_eq_ok, bind_eq_ok, pure_eq_ok,
        Prod.exists, Prod.mk.injEq] at run
      obtain ⟨v, kept, _, g, ⟨-, -, entered⟩, -, rfl⟩ := run
      rw [Graph.insert_aside entered (aside v kept)]
      exact built.carried_entered v
    | removeValue unlisted =>
      obtain ⟨removed, g, removal, rfl⟩ := edit.removal (.inl rfl)
      exact built.carried_removed removal unlisted
    | removeInst unlisted =>
      obtain ⟨removed, g, removal, rfl⟩ := edit.removal (.inr rfl)
      exact built.carried_removed removal unlisted

/-- Any number of edits outside the layouts. -/
def Aside : Workspace → Workspace → Prop :=
  ReflTransGen fun w w' => ∃ e answer, w.OffStage e ∧ w.Step e answer w'

theorem Aside.dump_eq (built : w.Built) (path : w.Aside w') :
    w'.Built ∧ w'.program.dump = w.program.dump := by
  induction path with
  | refl => exact ⟨built, rfl⟩
  | tail _ step ih =>
    obtain ⟨e, answer, aside, edit⟩ := step
    have later := edit.built ih.1
    exact ⟨later, (ih.1.dump_relabel later (edit.carried ih.1 aside)).trans ih.2⟩

/-- After every run, a program is printed like any other that a run leads to and that is the same under
another numbering of the values. In particular it is printed as before after any number of edits outside
the layouts. -/
theorem printing_ignores_handles (h : w.Reachable) :
    (∀ (w' : Workspace) (r : ValueId → ValueId), w'.Reachable → w.program.Carried r w'.program →
        w'.program.PrintsLike w.program) ∧
      ∀ w', w.Aside w' → w'.program.PrintsLike w.program := by
  refine ⟨fun w' r h' carried => ?_, fun w' path => ?_⟩
  · exact .of_dump (h.built.dump_relabel h'.built carried)
  · exact .of_dump (path.dump_eq h.built).2

/-- The three blocks of `crossing` with the phi created before the jumps, and with a detached instruction
and a constant, which was removed again. -/
def recrossing : Workspace :=
  (start "recrossing").perform
    [.build (.integer 1) none, .addGlobal "g" .i32 true 1, .declare "put" [.i32] .void,
      .define "f" [] .void, .addBlock 4 none, .addBlock 4 none, .addBlock 4 none,
      .build (.phi .i32) (some 7), .build (.jump 7) (some 5), .build (.jump 7) (some 6),
      .addIncoming 8 1 7, .build (.ret none) (some 7), .build (.alloca .i32) none,
      .build (.integer 5) none, .removeValue 13]

/-- The jumps and the phi trade their handles, and the text, the log and its counts stay. -/
theorem printing_ignores_handles_crossing : crossing.Reachable ∧ recrossing.Reachable ∧
    crossing.program.Carried (fun x => Equiv.swap 8 10 (Equiv.swap 8 9 x)) recrossing.program ∧
    crossing.graph ≠ recrossing.graph ∧ recrossing.program.PrintsLike crossing.program ∧
    ∃ w', crossing.Step (.build (.alloca .i32) none) (.ok (.handle 12)) w' ∧
      w'.program.PrintsLike crossing.program := by
  have reachable : crossing.Reachable := (Reachable.start "crossing").perform _
  have reachable' : recrossing.Reachable := (Reachable.start "recrossing").perform _
  have carried : crossing.program.Carried (fun x => Equiv.swap 8 10 (Equiv.swap 8 9 x))
      recrossing.program := by
    refine ⟨(Equiv.injective _).comp (Equiv.injective _), ?_, ?_, ?_, ?_, ?_, ?_, ?_, ?_, ?_⟩ <;>
      decide +kernel
  obtain ⟨numberings, edits⟩ := printing_ignores_handles reachable
  obtain ⟨w', edit⟩ : ∃ w', crossing.Step (.build (.alloca .i32) none) (.ok (.handle 12)) w' :=
    Step.of_answer (by decide +kernel)
  refine ⟨reachable, reachable', carried, by decide +kernel, numberings _ _ reachable' carried, w', edit, ?_⟩
  exact edits w' (.single ⟨_, _, .build fun _ _ _ => rfl, edit⟩)

end Workspace

end SsaGraph
