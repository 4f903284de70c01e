import SsaGraph.Proofs.Arrangement
import SsaGraph.Proofs.Rendering
import SsaGraph.Text.Rounds

/-!
# When printing goes through

A program is printed line by line, and rendering a line faults when something it looks up is missing or
not as expected. In a built workspace nearly everything is as expected.

Results:
* `dumpItems_breaks`, `dumpItems_passes`: a dump stops early exactly when the line of some item faults;
* `Built.mem_outline_iff`: the lines are those of the listed globals, of the functions and blocks, and of
  the attached instructions;
* `Built.dump_stop_eq_none_iff`, `printing_faults_iff`: the three ways in which a program becomes
  unprintable, and no others.
-/
namespace SsaGraph

namespace Text

variable {α : Type} {g : Graph}

/-! ## Lines -/

/-- The rendering goes through, whatever was rendered before, and notes what `notes` says for some
names. Unlike `Writes` this does not tie its text to later names, so names may be given up. -/
def Passes (x : Render α) (notes : Names → List Diagnostic) : Prop :=
  ∀ pen : Pen, ∃ text names n, x.run pen = (.ok text, { names, notes := pen.notes ++ notes n })

theorem Writes.passes {x : Render α} {text : Names → α} {notes : Names → List Diagnostic}
    (h : Writes x text notes) : Passes x notes := by
  intro pen
  obtain ⟨names, -, run⟩ := h pen
  exact ⟨text names, names, names, run names (.refl _)⟩

theorem Quiet.passes {x : Render α} (h : Quiet x) : Passes x fun _ => [] := by
  obtain ⟨text, writes⟩ := h
  exact writes.passes

theorem quiet_globalLine {id init : ValueId} {v : Value} {isConst : Bool}
    (entry : g.values[id]? = some v) (kind : v.kind = .global isConst) (operands : v.operands = [init])
    (live : init ∈ g.values) : Quiet (globalLine g id) := by
  have first : v.operand 0 = .ok init := Value.operand_eq_ok.2 (by simp [operands])
  rw [globalLine, lift_bind (Graph.value_eq_ok.2 entry), lift_bind first, kind]
  exact Quiet.bind ⟨_, writes_nameOf id v⟩ fun _ => (quiet_typedOperand live).bind fun _ => .pure _

theorem breaks_globalLine {id : ValueId} (dead : id ∉ g.values) : Breaks (globalLine g id) :=
  (breaks_value dead).bind _

theorem passes_headerLine {id : FuncId} {func : Func} {tys : List Ty} {ret : Ty} (live : id ∈ g.values)
    (formed : func.ty = .function tys ret)
    (params : func.isDecl = false → ∀ p ∈ func.params, p ∈ g.values) :
    Passes (headerLine g id func) fun _ => [] := by
  obtain ⟨v, entry⟩ := Table.getElem?_of_mem live
  have result : func.ret = .ok ret := by
    rw [Func.ret, formed]
    rfl
  -- the new scope gives up names, what follows keeps them
  suffices rest : Quiet (do
      let name ← nameOf id (← g.value id)
      let ret ← func.ret
      if func.isDecl then
        return "declare " ++ ret.text ++ " " ++ name ++ "("
          ++ commas ((func.ty.params?.getD []).map Ty.text) ++ ")"
      else
        return "define " ++ ret.text ++ " " ++ name ++ "(" ++ (← typedOperands g func.params)
          ++ ") \x7b") by
    intro pen
    exact rest.passes { pen with names := pen.names.newScope }
  rw [lift_bind (Graph.value_eq_ok.2 entry)]
  refine Quiet.bind ⟨_, writes_nameOf id v⟩ fun name => ?_
  rw [lift_bind result]
  cases decl : func.isDecl with
  | true => exact .pure _
  | false => exact (quiet_typedOperands (params decl)).bind fun _ => .pure _

theorem breaks_headerLine {id : FuncId} {func : Func} {p : ValueId} (defined : func.isDecl = false)
    (listed : p ∈ func.params) (dead : p ∉ g.values) : Breaks (headerLine g id func) := by
  refine .after (fun _ => .after (fun _ => .after (fun _ => .after (fun _ => ?_) _) _) _) _
  dsimp only
  rw [defined]
  exact (breaks_typedOperands listed dead).bind _

theorem quiet_labelLine {id : BlockId} (live : id ∈ g.values) : Quiet ((Item.label id).line g) := by
  obtain ⟨v, entry⟩ := Table.getElem?_of_mem live
  rw [Item.line, lift_bind (Graph.value_eq_ok.2 entry)]
  exact (quiet_bareNameOf id v).bind fun _ => .pure _

/-- What is noted with the line of an item under these names. -/
def Item.notes (g : Graph) (n : Names) : Item → List Diagnostic
  | .inst id =>
    match g.values[id]? with
    | some v => g.diagnostics n id v
    | none => []
  | _ => []

/-! ## Dumps -/

/-- The line is what the item is rendered to under some names. -/
def Shows (g : Graph) (item : Item) (line : Line) : Prop :=
  ∃ names pen n, (item.line g).run { names } = (.ok line.text, pen) ∧ line.notes = pen.notes ∧
    line.notes = item.notes g n

theorem dumpItems_passes {items : List Item} (names : Names)
    (each : ∀ item ∈ items, Passes (item.line g) fun n => item.notes g n) :
    ∃ lines, dumpItems g names items = { lines } ∧ List.Forall₂ (Shows g) items lines := by
  induction items generalizing names with
  | nil => exact ⟨[], rfl, .nil⟩
  | cons item items ih =>
    obtain ⟨text, later, n, run⟩ := each item (List.mem_cons_self ..) { names }
    obtain ⟨lines, rest, shown⟩ := ih later fun item member => each item (List.mem_cons_of_mem _ member)
    refine ⟨⟨text, item.notes g n⟩ :: lines, ?_, .cons ⟨names, _, n, run, rfl, rfl⟩ shown⟩
    simp only [dumpItems, run, rest, List.nil_append]

theorem dumpItems_breaks {items : List Item} {item : Item} (names : Names) (member : item ∈ items)
    (broken : Breaks (item.line g)) : (dumpItems g names items).stop ≠ none := by
  induction items generalizing names with
  | nil => cases member
  | cons first items ih =>
    cases run : (first.line g).run { names } with
    | mk result pen =>
      cases result with
      | error fault => simp [dumpItems, run]
      | ok text =>
        rcases List.mem_cons.1 member with rfl | later
        · obtain ⟨fault, pen', fails⟩ := broken { names }
          rw [run] at fails
          cases fails
        · simpa only [dumpItems, run] using ih pen.names later

/-! ## Rounds -/

theorem noteAll_noteAll (log : Log) (ds es : List Diagnostic) :
    (log.noteAll ds).noteAll es = log.noteAll (ds ++ es) := by
  simp [Log.noteAll, Tally.addAll]

namespace Printout

variable {out : Printout}

/-- The printout with this text and these notes added. -/
def grown (out : Printout) (text : String) (notes : List Diagnostic) : Printout :=
  { sink := { out.sink with bytes := out.sink.bytes ++ text.toUTF8 }, log := out.log.noteAll notes }

theorem putLines_unlimited (unlimited : out.sink.limit = none) (lines : List Line) :
    out.putLines lines = (true, out.grown (Dump.text { lines }) (lines.flatMap Line.notes)) := by
  induction lines generalizing out with
  | nil => simp [putLines, grown, Dump.text, Log.noteAll, Tally.addAll]
  | cons line lines ih =>
    have put : out.sink.put (line.text ++ "\n").toUTF8 =
        (true, { out.sink with bytes := out.sink.bytes ++ (line.text ++ "\n").toUTF8 }) := by
      simp [Sink.put, unlimited]
    simp only [putLines, put]
    rw [ih]
    · simp [grown, Dump.text, noteAll_noteAll, String.join_cons, ByteArray.append_assoc]
    · exact unlimited

/-- Without a limit a round ends as the dump does. -/
theorem round_unlimited (unlimited : out.sink.limit = none) (d : Dump) :
    out.round d =
      match d.stop with
      | none =>
        let out := out.grown d.text (d.lines.flatMap Line.notes)
        (.complete, { out with log := out.log.summarize })
      | some (fault, notes) => (.faulted fault, out.grown d.text (d.lines.flatMap Line.notes ++ notes)) := by
  rw [round, putLines_unlimited unlimited]
  cases d with
  | mk lines stop =>
    cases stop with
    | none => rfl
    | some last => simp [grown, noteAll_noteAll, Dump.text]

end Printout

/-! ## What the lines show -/

/-- What is collected from joined parts is what is collected from each, if blanks have nothing. -/
theorem collect_intercalate_blank {β : Type} {f : List Item → List β} (nil : f [] = [])
    (append : ∀ a b, f (a ++ b) = f a ++ f b) (blank : f [.blank] = []) (parts : List (List Item)) :
    f ([Item.blank].intercalate parts) = parts.flatMap f := by
  induction parts with
  | nil => exact nil
  | cons part parts ih =>
    cases parts with
    | nil => simp
    | cons next parts =>
      rw [List.intercalate_cons_cons, append, append, blank, ih, List.append_nil]
      rfl

theorem mem_intercalate_blank {item : Item} (ne : item ≠ .blank) {parts : List (List Item)} :
    item ∈ [Item.blank].intercalate parts ↔ ∃ part ∈ parts, item ∈ part := by
  have same : item ∈ ([Item.blank].intercalate parts).filter (· ≠ .blank) ↔
      item ∈ parts.flatMap (List.filter (· ≠ .blank)) := by
    rw [collect_intercalate_blank (f := List.filter (· ≠ .blank)) rfl (fun _ _ => List.filter_append ..) rfl]
  simpa [ne] using same

theorem mem_blockItems {item : Item} {b : BlockId} {block : Block} (found : g.blocks[b]? = some block) :
    item ∈ blockItems g b ↔ item = .label b ∨ ∃ v ∈ block.insts, item = .inst v := by
  simp [blockItems, found, eq_comm]

theorem mem_funcItems {item : Item} (ne : item ≠ .blank) {f : FuncId} {func : Func}
    (found : g.functions[f]? = some func) :
    item ∈ funcItems g f ↔ item = .header f func ∨
      func.isDecl = false ∧ (item = .close ∨ ∃ b ∈ func.blocks, item ∈ blockItems g b) := by
  simp only [funcItems, found]
  cases func.isDecl with
  | true => simp
  | false => simp [mem_intercalate_blank ne, or_comm]

theorem mem_outline {p : Program} {item : Item} (ne : item ≠ .blank) : item ∈ p.outline ↔
    (∃ x ∈ p.globals, item = .global x) ∨ ∃ f ∈ p.functions, item ∈ funcItems p.graph f := by
  rw [Program.outline, mem_intercalate_blank ne, Program.sections]
  cases p.globals with
  | nil => simp
  | cons x globals => simp [eq_comm]

end Text

namespace Workspace

open Text

variable {w w' : Workspace}

/-- What has a line of its own in the dump. -/
inductive Listed (w : Workspace) : Item → Prop
  | global {x : ValueId} (listed : x ∈ w.program.globals) : Listed w (.global x)
  | header {f : FuncId} {func : Func} (found : w.graph.functions[f]? = some func) :
      Listed w (.header f func)
  | label {b : BlockId} (live : b ∈ w.graph.blocks) : Listed w (.label b)
  | inst {v : ValueId} {b : BlockId} (attached : w.graph.parentOf v = some b) : Listed w (.inst v)
  | close {f : FuncId} {func : Func} (found : w.graph.functions[f]? = some func)
      (defined : func.isDecl = false) : Listed w .close

/-- Blocks belong to definitions. -/
theorem Built.block_owner (h : w.Built) {b : BlockId} {f : FuncId} (owned : w.graph.funcOf b = some f) :
    ∃ func, w.graph.functions[f]? = some func ∧ func.isDecl = false ∧ b ∈ func.blocks := by
  obtain ⟨func, found, member⟩ := Graph.mem_blocksOf.1 ((h.owned.filed.iff b f).1 owned)
  refine ⟨func, found, ?_, member⟩
  by_contra decl
  have none := h.owned.bodies f func found (by simpa using decl)
  rw [none] at member
  cases member

/-- The lines that are not blank are those of what is listed. -/
theorem Built.mem_outline_iff (h : w.Built) {item : Item} (ne : item ≠ .blank) :
    item ∈ w.program.outline ↔ w.Listed item := by
  have laid := h.laidOut
  have owned := h.owned
  have placed := h.placed
  rw [mem_outline ne]
  refine ⟨fun member => ?_, fun listed => ?_⟩
  · rcases member with ⟨x, hx, rfl⟩ | ⟨f, hf, member⟩
    · exact .global hx
    · obtain ⟨func, found⟩ := Table.getElem?_of_mem ((laid.mem f).1 hf)
      rcases (mem_funcItems ne found).1 member with rfl | ⟨defined, rfl | ⟨b, hb, inner⟩⟩
      · exact .header found
      · exact .close found defined
      · have owner := (owned.filed.iff b f).2 (Graph.mem_blocksOf.2 ⟨func, found, hb⟩)
        obtain ⟨block, hblock, -⟩ := Graph.funcOf_eq_some.1 owner
        rcases (mem_blockItems hblock).1 inner with rfl | ⟨v, hv, rfl⟩
        · exact .label (Table.mem_of_getElem? hblock)
        · exact .inst ((placed.filed.iff v b).2 (Graph.mem_instsOf.2 ⟨block, hblock, hv⟩))
  · have inFunc : ∀ {f : FuncId} {func : Func}, w.graph.functions[f]? = some func →
        item ∈ funcItems w.graph f → ∃ f ∈ w.program.functions, item ∈ funcItems w.graph f :=
      fun found member => ⟨_, (laid.mem _).2 (Table.mem_of_getElem? found), member⟩
    -- the block of a label or an instruction leads to the section of its function
    have inBlock : ∀ {b : BlockId} {block : Block}, w.graph.blocks[b]? = some block →
        item ∈ blockItems w.graph b → ∃ f ∈ w.program.functions, item ∈ funcItems w.graph f := by
      intro b block hblock inner
      obtain ⟨func, found, defined, member⟩ := h.block_owner (Graph.funcOf_eq_some.2 ⟨block, hblock, rfl⟩)
      exact inFunc found ((mem_funcItems ne found).2 (.inr ⟨defined, .inr ⟨b, member, inner⟩⟩))
    cases listed with
    | @global x listed => exact .inl ⟨x, listed, rfl⟩
    | header found => exact .inr (inFunc found ((mem_funcItems ne found).2 (.inl rfl)))
    | close found defined =>
      exact .inr (inFunc found ((mem_funcItems ne found).2 (.inr ⟨defined, .inl rfl⟩)))
    | label live =>
      obtain ⟨block, hblock⟩ := Table.getElem?_of_mem live
      exact .inr (inBlock hblock ((mem_blockItems hblock).2 (.inl rfl)))
    | inst attached =>
      obtain ⟨block, hblock, member⟩ := Graph.mem_instsOf.1 ((placed.filed.iff _ _).1 attached)
      exact .inr (inBlock hblock ((mem_blockItems hblock).2 (.inr ⟨_, member, rfl⟩)))

/-! ## Functions of every run -/

theorem Built.formed (h : w.Built) : ∀ (f : FuncId) (func : Func), w.graph.functions[f]? = some func →
    ∃ tys ret, func.ty = .function tys ret := by
  refine Built.invariant (P := fun w => ∀ (f : FuncId) (func : Func),
    w.graph.functions[f]? = some func → ∃ tys ret, func.ty = .function tys ret) (fun name => ?_)
    (fun {w w'} built formed step f func found => ?_) h
  · simp [start, graph]
  · rcases step.function_origin found with ⟨former, before, same⟩ | new
    · rw [same]
      exact formed f former before
    · exact new

/-! ## Unprintable workspaces -/

/-- A listed global or a parameter of a definition was removed, or an attached instruction lost the
pointer it reads through. -/
inductive Unprintable (w : Workspace) : Prop
  | global {x : ValueId} (listed : x ∈ w.program.globals) (removed : x ∉ w.graph.values)
  | param {f : FuncId} {func : Func} {p : ValueId} (found : w.graph.functions[f]? = some func)
      (defined : func.isDecl = false) (listed : p ∈ func.params) (removed : p ∉ w.graph.values)
  | base {v : ValueId} {e : Value} {b : BlockId} (entry : w.graph.values[v]? = some e)
      (attached : e.parent = some b) (lost : w.graph.LostBase e)

theorem Built.passes_line (h : w.Built) (printable : ¬w.Unprintable) {item : Item}
    (member : item ∈ w.program.outline) :
    Passes (item.line w.graph) fun n => item.notes w.graph n := by
  by_cases blank : item = .blank
  · rw [blank]
    exact (Quiet.pure "").passes
  cases (h.mem_outline_iff blank).1 member with
  | @global x listed =>
    have live : x ∈ w.graph.values := by
      by_contra removed
      exact printable (.global listed removed)
    obtain ⟨e, entry⟩ := Table.getElem?_of_mem live
    obtain ⟨isConst, kind⟩ := (h.globals x listed).2 e entry
    have arity := h.shaped x e entry
    rw [kind] at arity
    obtain ⟨init, operands⟩ := List.length_eq_one_iff.1 arity
    refine (quiet_globalLine entry kind operands ?_).passes
    exact h.useDef.operands_live entry init (by simp [operands])
  | header found =>
    obtain ⟨tys, ret, formed⟩ := h.formed _ _ found
    refine passes_headerLine (h.catalogued.live_function (Table.mem_of_getElem? found)) formed ?_
    intro defined p listed
    by_contra removed
    exact printable (.param found defined listed removed)
  | label live => exact (quiet_labelLine (h.catalogued.live_block live)).passes
  | inst attached =>
    obtain ⟨e, entry, parent⟩ := Graph.parentOf_eq_some.1 attached
    have sound : ¬w.graph.LostBase e := fun lost => printable (.base entry parent lost)
    obtain ⟨text, writes⟩ := writes_instruction h.wellFormed entry parent sound
    obtain ⟨text', indented⟩ := writes.bind_quiet fun text => Quiet.pure ("  " ++ text)
    simp only [Item.notes, entry]
    exact indented.passes
  | close => exact (Quiet.pure "\x7d").passes

theorem Built.breaks_line (h : w.Built) (unprintable : w.Unprintable) :
    ∃ item ∈ w.program.outline, Breaks (item.line w.graph) := by
  cases unprintable with
  | global listed removed =>
    exact ⟨_, (h.mem_outline_iff (by simp)).2 (.global listed), breaks_globalLine removed⟩
  | param found defined listed removed =>
    exact ⟨_, (h.mem_outline_iff (by simp)).2 (.header found), breaks_headerLine defined listed removed⟩
  | base entry attached lost =>
    refine ⟨_, (h.mem_outline_iff (by simp)).2 (.inst (Graph.parentOf_eq_some.2 ⟨_, entry, attached⟩)), ?_⟩
    exact (breaks_instruction h.wellFormed entry attached lost).bind _

theorem Built.dump_stop_eq_none_iff (h : w.Built) : w.program.dump.stop = none ↔ ¬w.Unprintable := by
  refine ⟨fun done unprintable => ?_, fun printable => ?_⟩
  · obtain ⟨item, member, broken⟩ := h.breaks_line unprintable
    exact dumpItems_breaks {} member broken done
  · obtain ⟨lines, dump, -⟩ := dumpItems_passes {} fun _ => h.passes_line printable
    rw [Program.dump]
    exact congrArg Dump.stop dump

/-- After every run, printing into a sink without a limit faults exactly when a global of the layout or a
parameter of a definition was removed, or an attached load or element pointer no longer reads through a
pointer; otherwise it completes. -/
theorem printing_faults_iff (h : w.Reachable) {out : Printout} (unlimited : out.sink.limit = none) :
    ((∃ fault, (out.round w.program.dump).1 = .faulted fault) ↔ w.Unprintable) ∧
      (¬w.Unprintable → (out.round w.program.dump).1 = .complete) := by
  have stops := h.built.dump_stop_eq_none_iff
  rw [Printout.round_unlimited unlimited]
  cases stop : w.program.dump.stop with
  | none =>
    have printable := stops.1 stop
    exact ⟨iff_of_false (by simp) printable, fun _ => rfl⟩
  | some last =>
    have unprintable : w.Unprintable := by
      by_contra printable
      rw [stops.2 printable] at stop
      cases stop
    exact ⟨iff_of_true ⟨_, rfl⟩ unprintable, fun printable => absurd unprintable printable⟩

/-- A global, and a function that loads through its first parameter. -/
def reader : Workspace :=
  (start "reader").perform
    [.build (.integer 1) none, .addGlobal "g" .i32 false 1,
      .define "f" [(some "p", .pointer .i32), (none, .i32)] .i32, .addBlock 3 none,
      .build (.load .i32 4) (some 6), .build (.ret (some 7)) (some 6)]

/-- The program can be printed, but no longer once the global or the unused parameter is removed or the
load reads through the constant. -/
theorem printing_faults_iff_reader : reader.Reachable ∧
    (Printout.round {} reader.program.dump).1 = .complete ∧
    (Printout.round {} (reader.perform [.removeValue 2]).program.dump).1 = .faulted .missingValue ∧
    (reader.perform [.removeValue 2]).Unprintable ∧
    (Printout.round {} (reader.perform [.removeValue 5]).program.dump).1 = .faulted .missingValue ∧
    (reader.perform [.removeValue 5]).Unprintable ∧
    (Printout.round {} (reader.perform [.setOperand 7 0 1]).program.dump).1 = .faulted .loadSource ∧
    (reader.perform [.setOperand 7 0 1]).Unprintable := by
  have reachable : reader.Reachable := (Reachable.start "reader").perform _
  have unprintable : ∀ {edits : List Edit} {fault : Fault},
      (Printout.round {} (reader.perform edits).program.dump).1 = .faulted fault →
        (reader.perform edits).Unprintable := fun {edits fault} run =>
    (printing_faults_iff (reachable.perform edits) rfl).1.1 ⟨fault, run⟩
  have global : (Printout.round {} (reader.perform [.removeValue 2]).program.dump).1 =
      .faulted .missingValue := by decide +kernel
  have param : (Printout.round {} (reader.perform [.removeValue 5]).program.dump).1 =
      .faulted .missingValue := by decide +kernel
  have base : (Printout.round {} (reader.perform [.setOperand 7 0 1]).program.dump).1 =
      .faulted .loadSource := by decide +kernel
  have complete : (Printout.round {} reader.program.dump).1 = .complete := by decide +kernel
  exact ⟨reachable, complete, global, unprintable global, param, unprintable param, base, unprintable base⟩

end Workspace

end SsaGraph
