import Mathlib.Data.List.Nodup
import Mathlib.Data.List.Perm.Basic
import SsaGraph.Proofs.Printing

/-!
# What a dump holds

A `Page` has one line for each global, function, block and instruction, and `Page.text` puts these lines
together along the layout of a program, without regard to how they are rendered. A dump that goes through
is the text of a page. Since the layout lists every attached instruction once, and each in the block and
the function it belongs to, so does the dump.

Results:
* `Built.nodup_insts`, `Built.mem_insts`: the layout lists the attached instructions, each once;
* `Built.exists_page`: the lines of a printable program make up a page;
* `dump_complete`: text and log of a whole round of printing.
-/
namespace SsaGraph

/-! ## Layouts -/

namespace Program

/-- The blocks in the order of the layout. -/
def blocks (p : Program) : List BlockId := p.functions.flatMap p.graph.blocksOf

/-- The instructions in the order of the layout: function by function, block by block. -/
def insts (p : Program) : List ValueId := p.blocks.flatMap p.graph.instsOf

end Program

theorem Filed.nodup_flatMap {owner : ValueId → Option ValueId} {members : ValueId → List ValueId}
    (h : Filed owner members) {owners : List ValueId} (nodup : owners.Nodup) :
    (owners.flatMap members).Nodup := by
  refine List.nodup_flatMap.2 ⟨fun o _ => h.nodup o, nodup.imp fun {o p} ne x hx hx' => ?_⟩
  have own := (h.iff x o).2 hx
  rw [(h.iff x p).2 hx'] at own
  exact ne (Option.some.inj own).symm

namespace Workspace

variable {w : Workspace}

theorem Built.nodup_blocks (h : w.Built) : w.program.blocks.Nodup :=
  h.owned.filed.nodup_flatMap h.laidOut.nodup

theorem Built.nodup_insts (h : w.Built) : w.program.insts.Nodup :=
  h.placed.filed.nodup_flatMap h.nodup_blocks

theorem Built.mem_blocks (h : w.Built) (b : BlockId) : b ∈ w.program.blocks ↔ b ∈ w.graph.blocks := by
  simp only [Program.blocks, List.mem_flatMap]
  refine ⟨fun ⟨f, _, member⟩ => ?_, fun live => ?_⟩
  · obtain ⟨block, found, -⟩ := Graph.funcOf_eq_some.1 ((h.owned.filed.iff b f).2 member)
    exact Table.mem_of_getElem? found
  · obtain ⟨block, found⟩ := Table.getElem?_of_mem live
    have member := (h.owned.filed.iff b _).1 (Graph.funcOf_eq_some.2 ⟨block, found, rfl⟩)
    obtain ⟨func, known, -⟩ := Graph.mem_blocksOf.1 member
    exact ⟨_, (h.laidOut.mem _).2 (Table.mem_of_getElem? known), member⟩

theorem Built.mem_insts (h : w.Built) (v : ValueId) :
    v ∈ w.program.insts ↔ ∃ b, w.graph.parentOf v = some b := by
  simp only [Program.insts, List.mem_flatMap, h.mem_blocks, h.placed.filed.iff]
  refine ⟨fun ⟨b, _, member⟩ => ⟨b, member⟩, fun ⟨b, member⟩ => ⟨b, ?_, member⟩⟩
  obtain ⟨block, found, -⟩ := Graph.mem_instsOf.1 member
  exact Table.mem_of_getElem? found

theorem Built.nodup_globals (h : w.Built) : w.program.globals.Nodup := by
  refine Built.invariant (P := fun w => w.program.globals.Nodup) (fun name => ?_)
    (fun {w w'} built nodup step => ?_) h
  · simp [start]
  · cases step with
    | graph | function | restore | discard => exact nodup
    | global =>
      refine List.nodup_append.2 ⟨nodup, List.nodup_singleton _, fun x hx y hy same => ?_⟩
      rw [List.mem_singleton.1 hy] at same
      have older := (built.globals x hx).1
      rw [same] at older
      exact Nat.lt_irrefl _ older

end Workspace

/-! ## Pages -/

namespace Text

/-- Lines in order, each with its line break. -/
def ended (lines : List String) : String := String.join (lines.map (· ++ "\n"))

/-- How each global, function, block and instruction is written. Only instructions come with notes. -/
structure Page where
  global : ValueId → String
  head : FuncId → String
  label : BlockId → String
  inst : ValueId → Line

namespace Page

/-- A block is its label and below it its instructions. -/
def blockText (page : Page) (g : Graph) (b : BlockId) : String :=
  ended (page.label b :: (g.instsOf b).map fun v => (page.inst v).text)

/-- A declaration is one line. A definition has its blocks, with an empty line between neighbours,
between its head and a closing brace. -/
def funcText (page : Page) (g : Graph) (f : FuncId) : String :=
  match g.functions[f]? with
  | none => ""
  | some func =>
    if func.isDecl then ended [page.head f]
    else ended [page.head f] ++ "\n".intercalate (func.blocks.map (page.blockText g)) ++ ended ["\x7d"]

/-- The globals together, if there are any, and each function, with an empty line between neighbours. -/
def text (page : Page) (p : Program) : String :=
  "\n".intercalate
    ((if p.globals = [] then [] else [ended (p.globals.map page.global)]) ++
      p.functions.map (page.funcText p.graph))

/-- What is noted on the page. -/
def notes (page : Page) (p : Program) : List Diagnostic := p.insts.flatMap fun v => (page.inst v).notes

/-- The line of an item. -/
def line (page : Page) : Item → Line
  | .global x => { text := page.global x }
  | .header f _ => { text := page.head f }
  | .label b => { text := page.label b }
  | .inst v => page.inst v
  | .close => { text := "\x7d" }
  | .blank | .broken _ => { text := "" }

end Page

/-! ## The text of an outline -/

theorem ended_append (ls ls' : List String) : ended (ls ++ ls') = ended ls ++ ended ls' := by
  simp [ended, String.join_append]

theorem ended_cons (l : String) (ls : List String) : ended (l :: ls) = ended [l] ++ ended ls :=
  ended_append [l] ls

/-- Joined parts are written with an empty line between neighbours. -/
theorem ended_intercalate_blank {shown : Item → String} (blank : shown .blank = "")
    (parts : List (List Item)) :
    ended (([Item.blank].intercalate parts).map shown) =
      "\n".intercalate (parts.map fun part => ended (part.map shown)) := by
  induction parts with
  | nil => rfl
  | cons part parts ih =>
    cases parts with
    | nil => simp
    | cons next parts =>
      have sep : ended [""] = "\n" := rfl
      rw [List.intercalate_cons_cons, List.map_append, List.map_append, ended_append, ended_append, ih]
      simp only [List.map_cons, List.map_nil, blank, sep, String.intercalate_cons_cons]

/-- Whether the line of the item stands for a part of the program. -/
def Item.isPart : Item → Bool
  | .blank | .close => false
  | _ => true

/-- The head of the function, if there is such a function. -/
def headItems (g : Graph) (f : FuncId) : List Item :=
  (g.functions[f]?.map fun func => [Item.header f func]).getD []

end Text

namespace Workspace

open Text

variable {w : Workspace}

theorem Built.blockItems_eq (h : w.Built) {b : BlockId} (listed : b ∈ w.program.blocks) :
    blockItems w.graph b = .label b :: (w.graph.instsOf b).map .inst := by
  obtain ⟨block, found⟩ := Table.getElem?_of_mem ((h.mem_blocks b).1 listed)
  simp [blockItems, found, Graph.instsOf]

/-- The text of the outline is that of the layout. -/
theorem Built.ended_outline (h : w.Built) (page : Page) :
    ended (w.program.outline.map fun item => (page.line item).text) = page.text w.program := by
  have block : ∀ b ∈ w.program.blocks,
      ended ((blockItems w.graph b).map fun item => (page.line item).text) =
        page.blockText w.graph b := by
    intro b listed
    rw [h.blockItems_eq listed]
    simp [Page.blockText, Page.line, Function.comp_def]
  have function : ∀ f ∈ w.program.functions,
      ended ((funcItems w.graph f).map fun item => (page.line item).text) =
        page.funcText w.graph f := by
    intro f listed
    obtain ⟨func, found⟩ := Table.getElem?_of_mem ((h.laidOut.mem f).1 listed)
    simp only [funcItems, Page.funcText, found]
    cases func.isDecl with
    | true => rfl
    | false =>
      have blocks : func.blocks.map (fun b =>
          ended ((blockItems w.graph b).map fun item => (page.line item).text)) =
            func.blocks.map (page.blockText w.graph) := by
        refine List.map_congr_left fun b member => block b ?_
        exact List.mem_flatMap.2 ⟨f, listed, Graph.mem_blocksOf.2 ⟨func, found, member⟩⟩
      simp only [Bool.false_eq_true, if_false, List.map_append, List.map_cons, List.map_nil, ended_append]
      rw [ended_cons, ended_intercalate_blank rfl, List.map_map]
      simp only [Function.comp_def, blocks]
      rfl
  have functions : w.program.functions.map (fun f =>
      ended ((funcItems w.graph f).map fun item => (page.line item).text)) =
        w.program.functions.map (page.funcText w.graph) := List.map_congr_left function
  rw [Program.outline, ended_intercalate_blank rfl, Program.sections, Page.text]
  simp only [List.map_append, List.map_map, Function.comp_def]
  rw [← graph, functions]
  cases w.program.globals with
  | nil => rfl
  | cons x globals => simp [Page.line, Function.comp_def]

/-- What is collected from the outline along the layout, if blank and closing lines have nothing. -/
theorem Built.collect_outline (h : w.Built) {β : Type} {f : List Item → List β} (nil : f [] = [])
    (append : ∀ a b, f (a ++ b) = f a ++ f b) (blank : f [.blank] = []) (close : f [.close] = []) :
    f w.program.outline = f (w.program.globals.map .global) ++
      w.program.functions.flatMap fun id => f (headItems w.graph id) ++
        (w.graph.blocksOf id).flatMap fun b => f (.label b :: (w.graph.instsOf b).map .inst) := by
  have cons : ∀ item items, f (item :: items) = f [item] ++ f items := fun item => append [item]
  have function : ∀ id ∈ w.program.functions, f (funcItems w.graph id) = f (headItems w.graph id) ++
      (w.graph.blocksOf id).flatMap fun b => f (.label b :: (w.graph.instsOf b).map .inst) := by
    intro id listed
    obtain ⟨func, found⟩ := Table.getElem?_of_mem ((h.laidOut.mem id).1 listed)
    simp only [funcItems, headItems, Graph.blocksOf, found, Option.map_some, Option.getD_some]
    cases decl : func.isDecl with
    | true => simp [h.owned.bodies id func found decl]
    | false =>
      have blocks : ∀ b ∈ func.blocks,
          f (blockItems w.graph b) = f (.label b :: (w.graph.instsOf b).map .inst) := by
        intro b member
        rw [h.blockItems_eq (List.mem_flatMap.2 ⟨id, listed, Graph.mem_blocksOf.2 ⟨func, found, member⟩⟩)]
      simp only [Bool.false_eq_true, if_false]
      rw [append, close, List.append_nil, cons, collect_intercalate_blank nil append blank,
        List.flatMap_map, List.flatMap_congr blocks]
  rw [Program.outline, collect_intercalate_blank nil append blank, Program.sections, List.flatMap_append,
    List.flatMap_map, ← graph, List.flatMap_congr function]
  cases w.program.globals with
  | nil => simp [nil]
  | cons x globals => simp

/-- Every part of the program has one line. -/
theorem Built.nodup_parts (h : w.Built) : (w.program.outline.filter Item.isPart).Nodup := by
  have heads : (w.program.functions.flatMap (headItems w.graph)).Nodup := by
    refine List.nodup_flatMap.2 ⟨fun f _ => ?_, h.laidOut.nodup.imp fun {f f'} ne item hi hi' => ?_⟩
    · cases found : w.graph.functions[f]? <;> simp [headItems, found]
    · cases found : w.graph.functions[f]? <;> cases found' : w.graph.functions[f']? <;>
        simp_all [headItems]
  have labels : (w.program.blocks.map Item.label).Nodup := h.nodup_blocks.map fun _ _ => Item.label.inj
  have insts : (w.program.insts.map Item.inst).Nodup := h.nodup_insts.map fun _ _ => Item.inst.inj
  have globals : (w.program.globals.map Item.global).Nodup :=
    h.nodup_globals.map fun _ _ => Item.global.inj
  have block : ∀ b, (Item.label b :: (w.graph.instsOf b).map Item.inst).filter Item.isPart =
      .label b :: (w.graph.instsOf b).map .inst := fun b => List.filter_eq_self.2 (by simp [Item.isPart])
  have head : ∀ f, (headItems w.graph f).filter Item.isPart = headItems w.graph f := by
    intro f
    cases found : w.graph.functions[f]? <;> simp [headItems, found, Item.isPart]
  have global : (w.program.globals.map Item.global).filter Item.isPart = w.program.globals.map .global :=
    List.filter_eq_self.2 (by simp [Item.isPart])
  -- the same parts, those of one sort together
  have sorted : (w.program.outline.filter Item.isPart).Perm
      (w.program.globals.map .global ++ (w.program.functions.flatMap (headItems w.graph) ++
        (w.program.blocks.map .label ++ w.program.insts.map .inst))) := by
    rw [h.collect_outline (f := List.filter Item.isPart) rfl (fun _ _ => List.filter_append ..) rfl rfl]
    simp only [block, head, global]
    refine .append_left _ ((List.flatMap_append_perm ..).symm.trans (.append_left _ ?_))
    rw [← List.flatMap_assoc, Program.insts, List.map_flatMap]
    exact (List.map_append_flatMap_perm ..).symm
  rw [sorted.nodup_iff]
  have headOnly : ∀ item ∈ w.program.functions.flatMap (headItems w.graph),
      ∃ f func, item = .header f func := by
    intro item member
    obtain ⟨f, -, hi⟩ := List.mem_flatMap.1 member
    cases found : w.graph.functions[f]? <;> simp_all [headItems]
  refine List.Nodup.append globals (heads.append (labels.append insts ?_) ?_) ?_
  · simp [List.Disjoint]
  · intro item left right
    obtain ⟨f, func, rfl⟩ := headOnly item left
    simp at right
  · intro item left right
    obtain ⟨x, -, rfl⟩ := List.mem_map.1 left
    rcases List.mem_append.1 right with header | other
    · obtain ⟨f, func, same⟩ := headOnly _ header
      cases same
    · simp at other

end Workspace

/-! ## Dumps as pages -/

namespace Text

variable {g : Graph}

theorem Shows.eq_text {item : Item} {line : Line} (h : Shows g item line)
    (plain : ∀ n, item.notes g n = []) : line = { text := line.text } := by
  obtain ⟨names, pen, n, -, -, notes⟩ := h
  rw [plain] at notes
  rw [← notes]

theorem Shows.eq_of_pure {item : Item} {line : Line} (h : Shows g item line)
    (plain : ∀ n, item.notes g n = []) {text : String} (code : item.line g = pure text) :
    line = { text } := by
  rw [h.eq_text plain]
  obtain ⟨names, pen, n, run, -, -⟩ := h
  rw [code] at run
  obtain ⟨same, -⟩ := Prod.mk.inj run
  rw [Except.ok.inj same]

/-- Lines of items are a function of the items, if items that come up twice have one line only. -/
theorem exists_map_of_shows {items : List Item} {lines : List Line}
    (h : List.Forall₂ (Shows g) items lines)
    (once : items.Pairwise fun i j => i = j → ∀ l l', Shows g i l → Shows g i l' → l = l') :
    ∃ line : Item → Line, lines = items.map line ∧ ∀ item ∈ items, Shows g item (line item) := by
  induction h with
  | nil => exact ⟨fun _ => { text := "" }, rfl, by simp⟩
  | @cons first l items lines shows _ ih =>
    obtain ⟨apart, rest⟩ := List.pairwise_cons.1 once
    obtain ⟨line, rfl, each⟩ := ih rest
    have agree : ∀ item ∈ items, (if item = first then l else line item) = line item := by
      intro item member
      split
      · rename_i same
        subst same
        exact apart item member rfl _ _ shows (each item member)
      · rfl
    refine ⟨fun item => if item = first then l else line item, ?_, fun item member => ?_⟩
    · rw [List.map_cons, if_pos rfl, List.map_congr_left agree]
    · rcases List.mem_cons.1 member with rfl | later
      · simpa using shows
      · dsimp only
        rw [agree item later]
        exact each item later

/-- The page shows what has a line of its own. -/
def Page.Shows (page : Page) (w : Workspace) : Prop :=
  ∀ item, w.Listed item → Text.Shows w.graph item (page.line item)

end Text

namespace Workspace

open Text

variable {w : Workspace}

/-- The dump of a printable program is a page. -/
theorem Built.exists_page (h : w.Built) (printable : ¬w.Unprintable) :
    ∃ page : Page, w.program.dump = { lines := w.program.outline.map page.line } ∧ page.Shows w := by
  obtain ⟨lines, dump, shown⟩ := dumpItems_passes {} fun _ => h.passes_line printable
  obtain ⟨line, rfl, each⟩ := exists_map_of_shows shown (by
    refine (List.pairwise_filter.1 h.nodup_parts).imp ?_
    intro item other apart same l l' first second
    cases part : item.isPart with
    | true => exact absurd same (apart part (same ▸ part))
    | false =>
      cases item with
      | blank | close => rw [first.eq_of_pure (fun _ => rfl) rfl, second.eq_of_pure (fun _ => rfl) rfl]
      | global | header | label | inst | broken => cases part)
  let page : Page :=
    { global := fun x => (line (.global x)).text
      head := fun f => (w.graph.functions[f]?.map fun func => (line (.header f func)).text).getD ""
      label := fun b => (line (.label b)).text
      inst := fun v => line (.inst v) }
  have agree : ∀ item ∈ w.program.outline, line item = page.line item := by
    intro item member
    have shows := each item member
    by_cases blank : item = .blank
    · subst blank
      exact shows.eq_of_pure (fun _ => rfl) rfl
    cases (h.mem_outline_iff blank).1 member with
    | global | label => exact shows.eq_text fun _ => rfl
    | header found =>
      rw [shows.eq_text fun _ => rfl]
      simp [Page.line, page, found]
    | inst => rfl
    | close => exact shows.eq_of_pure (fun _ => rfl) rfl
  refine ⟨page, ?_, fun item listed => ?_⟩
  · rw [← List.map_congr_left agree]
    exact dump
  · have ne : item ≠ .blank := by
      rintro rfl
      cases listed
    have member := (h.mem_outline_iff ne).2 listed
    rw [← agree item member]
    exact each item member

end Workspace

/-! ## Notes -/

theorem Tally.addAll_eq (t : Tally) (ds : List Diagnostic) : t.addAll ds =
    { errors := t.errors + ds.countP (·.severity = .error)
      warnings := t.warnings + ds.countP (·.severity = .warning) } := by
  induction ds generalizing t with
  | nil => rfl
  | cons d ds ih =>
    refine (ih (t.add d)).trans ?_
    cases severity : d.severity <;> simp [Tally.add, severity, Nat.add_assoc, Nat.add_comm]

namespace Graph

variable {g : Graph}

/-- The incoming pairs of an attached phi whose block is no predecessor. -/
def straysOf (g : Graph) (v : ValueId) : List (ValueId × BlockId) := (g.values[v]?.map g.strays).getD []

/-- Whether the handle is that of an attached phi with fewer pairs than predecessors. -/
def isShortPhi (g : Graph) (v : ValueId) : Bool := (g.values[v]?.map g.isShort).getD false

theorem countP_diagnostics (n : Names) (inst : ValueId) (v : Value) :
    (g.diagnostics n inst v).countP (·.severity = .error) = (g.strays v).length ∧
      (g.diagnostics n inst v).countP (·.severity = .warning) = if g.isShort v then 1 else 0 := by
  cases short : g.isShort v <;>
    simp [diagnostics, short, List.countP_map, Function.comp_def, Diagnostic.strayIncoming,
      Diagnostic.incompletePhi]

theorem detached_not_mem_diagnostics (n : Names) (inst : ValueId) (v : Value) :
    Diagnostic.detached ∉ g.diagnostics n inst v := by
  intro member
  simp only [diagnostics, List.mem_append, List.mem_map] at member
  rcases member with ⟨pair, -, same⟩ | short
  · simp [Diagnostic.detached, Diagnostic.strayIncoming] at same
  · split at short
    · have same := congrArg (fun d => d.message.toList[1]?) (List.mem_singleton.1 short)
      simp [Diagnostic.detached, Diagnostic.incompletePhi] at same
    · cases short

end Graph

namespace Text

/-- The head of a function says whether it is declared or defined. -/
theorem headerLine_text {g : Graph} {f : FuncId} {func : Func} {pen pen' : Pen} {text : String}
    (run : (headerLine g f func).run pen = (.ok text, pen')) :
    ∃ rest, text = if func.isDecl then "declare " ++ rest else "define " ++ rest ++ " \x7b" := by
  obtain ⟨-, _, -, run⟩ := run_bind_eq_ok run
  obtain ⟨v, _, -, run⟩ := run_bind_eq_ok run
  obtain ⟨name, _, -, run⟩ := run_bind_eq_ok run
  obtain ⟨ret, _, -, run⟩ := run_bind_eq_ok run
  cases decl : func.isDecl with
  | true =>
    simp only [decl, if_true] at run
    obtain ⟨same, -⟩ := Prod.mk.inj run
    rw [← Except.ok.inj same]
    refine ⟨ret.text ++ " " ++ name ++ "(" ++ commas ((func.ty.params?.getD []).map Ty.text) ++ ")", ?_⟩
    simp [String.append_assoc]
  | false =>
    simp only [decl, Bool.false_eq_true, if_false] at run
    obtain ⟨params, _, -, run⟩ := run_bind_eq_ok run
    obtain ⟨same, -⟩ := Prod.mk.inj run
    rw [← Except.ok.inj same]
    refine ⟨ret.text ++ " " ++ name ++ "(" ++ params ++ ")", ?_⟩
    simp [String.append_assoc]

namespace Page

variable {page : Page} {w : Workspace}

theorem Shows.notes (h : page.Shows w) {v : ValueId} {e : Value} {b : BlockId}
    (entry : w.graph.values[v]? = some e) (attached : e.parent = some b) :
    ∃ n, (page.inst v).notes = w.graph.diagnostics n v e := by
  obtain ⟨-, -, n, -, -, notes⟩ := h _ (.inst (Graph.parentOf_eq_some.2 ⟨e, entry, attached⟩))
  refine ⟨n, notes.trans ?_⟩
  simp only [Item.notes, entry]

theorem Shows.countP_notes (h : page.Shows w) {vs : List ValueId}
    (attached : ∀ v ∈ vs, ∃ b, w.graph.parentOf v = some b) :
    (vs.flatMap fun v => (page.inst v).notes).countP (·.severity = .error) =
        (vs.flatMap w.graph.straysOf).length ∧
      (vs.flatMap fun v => (page.inst v).notes).countP (·.severity = .warning) =
        vs.countP w.graph.isShortPhi := by
  induction vs with
  | nil => exact ⟨rfl, rfl⟩
  | cons v vs ih =>
    obtain ⟨b, parent⟩ := attached v (List.mem_cons_self ..)
    obtain ⟨e, entry, inBlock⟩ := Graph.parentOf_eq_some.1 parent
    obtain ⟨n, notes⟩ := h.notes entry inBlock
    obtain ⟨errors, warnings⟩ := Graph.countP_diagnostics (g := w.graph) n v e
    obtain ⟨errors', warnings'⟩ := ih fun u hu => attached u (List.mem_cons_of_mem v hu)
    have strays : w.graph.straysOf v = w.graph.strays e := by simp [Graph.straysOf, entry]
    have short : w.graph.isShortPhi v = w.graph.isShort e := by simp [Graph.isShortPhi, entry]
    simp only [List.flatMap_cons, List.countP_append, List.length_append, List.countP_cons, notes, errors,
      warnings, errors', warnings', strays, short, Nat.add_comm, and_self]

/-- The page shows the whole workspace and nothing twice. -/
structure Complete (page : Page) (w : Workspace) : Prop where
  shows : page.Shows w
  heads : ∀ (f : FuncId) (func : Func), w.graph.functions[f]? = some func →
    ∃ rest, page.head f = if func.isDecl then "declare " ++ rest else "define " ++ rest ++ " \x7b"
  /-- What is left out with the blocks of declarations is nothing. -/
  bodies : ∀ (f : FuncId) (func : Func), w.graph.functions[f]? = some func →
    func.isDecl = true → w.graph.blocksOf f = []
  once : w.program.insts.Nodup
  attached : ∀ v, v ∈ w.program.insts ↔ ∃ b, w.graph.parentOf v = some b
  place : ∀ f ∈ w.program.functions, ∀ b ∈ w.graph.blocksOf f, ∀ v ∈ w.graph.instsOf b,
    w.graph.parentOf v = some b ∧ w.graph.instFunc v = .ok (some f)
  noted : ∀ (v : ValueId) (e : Value) (b : BlockId), w.graph.values[v]? = some e → e.parent = some b →
    ∃ n, (page.inst v).notes = w.graph.diagnostics n v e
  attachedOnly : Diagnostic.detached ∉ page.notes w.program

end Page

end Text

namespace Workspace

open Text

variable {w : Workspace}

theorem Built.complete (h : w.Built) {page : Page} (shows : page.Shows w) : page.Complete w where
  shows := shows
  heads f func found := by
    obtain ⟨_, _, _, run, -, -⟩ := shows _ (.header found)
    exact headerLine_text run
  bodies f func found decl := by simp [Graph.blocksOf, found, h.owned.bodies f func found decl]
  once := h.nodup_insts
  attached := h.mem_insts
  place f _ b inFunc v inBlock := by
    have parent := (h.placed.filed.iff v b).2 inBlock
    exact ⟨parent, Graph.instFunc_eq_some.2 ⟨b, parent, (h.owned.filed.iff b f).2 inFunc⟩⟩
  noted _ _ _ := shows.notes
  attachedOnly := by
    intro member
    obtain ⟨v, listed, noted⟩ := List.mem_flatMap.1 member
    obtain ⟨b, parent⟩ := (h.mem_insts v).1 listed
    obtain ⟨e, entry, inBlock⟩ := Graph.parentOf_eq_some.1 parent
    obtain ⟨n, notes⟩ := shows.notes entry inBlock
    rw [notes] at noted
    exact Graph.detached_not_mem_diagnostics n v e noted

theorem Built.dump_notes (h : w.Built) (page : Page) :
    (w.program.outline.map page.line).flatMap Line.notes = page.notes w.program := by
  rw [h.collect_outline (f := fun items => (items.map page.line).flatMap Line.notes) rfl
    (fun _ _ => by simp) rfl rfl]
  have heads : ∀ f, ((headItems w.graph f).map page.line).flatMap Line.notes = [] := by
    intro f
    cases found : w.graph.functions[f]? <;> simp [headItems, found, Page.line]
  have globals : ((w.program.globals.map Item.global).map page.line).flatMap Line.notes = [] := by
    simp [Page.line]
  simp only [heads, globals, Page.notes, Program.insts, Program.blocks, List.flatMap_assoc]
  simp only [List.map_cons, List.map_map, List.flatMap_cons, List.flatMap_map, Function.comp_def, Page.line,
    List.nil_append]
  rfl

/-- After every run, if printing into a sink without a limit does not fault, it completes and prints a
page: each attached instruction once, below the label of its block and in the section of its function,
with single empty lines between sections and between blocks. The log gets one error for each incoming
pair whose block is no predecessor and one warning for each phi with fewer pairs than predecessors. -/
theorem dump_complete (h : w.Reachable) {out : Printout} (unlimited : out.sink.limit = none)
    (sound : ∀ fault, (out.round w.program.dump).1 ≠ .faulted fault) :
    ∃ (page : Page) (out' : Printout), out.round w.program.dump = (.complete, out') ∧ page.Complete w ∧
      out'.sink.bytes = out.sink.bytes ++ (page.text w.program).toUTF8 ∧
      out'.log = (out.log.noteAll (page.notes w.program)).summarize ∧
      out'.log.tally =
        { errors := out.log.tally.errors + (w.program.insts.flatMap w.graph.straysOf).length
          warnings := out.log.tally.warnings + w.program.insts.countP w.graph.isShortPhi } := by
  have built := h.built
  have printable : ¬w.Unprintable := by
    rw [← built.dump_stop_eq_none_iff]
    cases stop : w.program.dump.stop with
    | none => rfl
    | some last =>
      refine absurd ?_ (sound last.1)
      rw [Printout.round_unlimited unlimited, stop]
  obtain ⟨page, dump, shows⟩ := built.exists_page printable
  obtain ⟨errors, warnings⟩ := shows.countP_notes fun v => (built.mem_insts v).1
  have text : w.program.dump.text = page.text w.program := by
    rw [← built.ended_outline page, dump]
    simp [Dump.text, ended, Function.comp_def]
  refine ⟨page, { out.grown (page.text w.program) (page.notes w.program) with
    log := (out.log.noteAll (page.notes w.program)).summarize }, ?_, built.complete shows, rfl, rfl, ?_⟩
  · rw [Printout.round_unlimited unlimited, ← text, ← built.dump_notes page, dump]
    rfl
  · refine (Tally.addAll_eq ..).trans ?_
    rw [Page.notes, errors, warnings]

/-- Two blocks jump to a third. Its phi has a single pair, with the block of the phi itself. -/
def crossing : Workspace :=
  (start "crossing").perform
    [.build (.integer 1) none, .addGlobal "g" .i32 true 1, .declare "put" [.i32] .void,
      .define "f" [] .void, .addBlock 4 none, .addBlock 4 none, .addBlock 4 none,
      .build (.jump 7) (some 5), .build (.jump 7) (some 6), .build (.phi .i32) (some 7),
      .addIncoming 10 1 7, .build (.ret none) (some 7)]

/-- The three sections are written with the four instructions in order, and the phi is noted twice. -/
theorem dump_complete_crossing : crossing.Reachable ∧
    (Printout.round {} crossing.program.dump).1 = .complete ∧ crossing.program.insts = [8, 9, 10, 11] ∧
    crossing.program.dump.text =
      "@g = constant i32 1\n\ndeclare void @put(i32)\n\ndefine void @f() \x7b\n" ++
        "0:\n  br label %1\n\n2:\n  br label %1\n\n" ++
        "1:\n  %3 = phi i32 [ 1, %1 ], [ undef, %0 ], [ undef, %2 ]\n  ret void\n\x7d\n" ∧
    ∃ (page : Page) (out' : Printout), Printout.round {} crossing.program.dump = (.complete, out') ∧
      page.Complete crossing ∧ out'.sink.bytes = .empty ++ (page.text crossing.program).toUTF8 ∧
      out'.log.tally = { errors := 1, warnings := 1 } := by
  have reachable : crossing.Reachable := (Reachable.start "crossing").perform _
  have ending : (Printout.round {} crossing.program.dump).1 = .complete := by decide +kernel
  have insts : crossing.program.insts = [8, 9, 10, 11] := by decide +kernel
  have strays : crossing.program.insts.flatMap crossing.graph.straysOf = [(1, 7)] := by decide +kernel
  have short : crossing.program.insts.countP crossing.graph.isShortPhi = 1 := by decide +kernel
  obtain ⟨page, out', run, complete, bytes, -, tally⟩ :=
    @dump_complete crossing reachable {} rfl fun fault => by simp [ending]
  rw [strays, short] at tally
  exact ⟨reachable, ending, insts, by decide +kernel, page, out', run, complete, bytes, tally⟩

end Workspace

end SsaGraph
