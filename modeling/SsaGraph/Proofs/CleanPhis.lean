import Mathlib.Data.List.Dedup
import SsaGraph.Proofs.PhiEntries

/-!
# What a clean printout says about phis

Printing notes an error for each pair of a phi that names a block other than a predecessor, and a warning for
each phi with fewer pairs than its block has predecessors. When neither is noted, all pairs name predecessors
and there are enough of them. This does not mean that every predecessor is named: two pairs may name the same
one, and the number of pairs makes up for the one that is missing.

Results:
* `Printout.round_complete`, `notes_eq_nil`: a clean log means that no line of the dump has a note;
* `Built.phi_line`: the line of a phi in the dump, with its notes;
* `PhiEntry.length_dedup_eq_iff`, `PhiEntry.Known.of_no_notes`: what pairs without notes name;
* `clean_phi_entries`: the same for every run, and for every phi that is printed;
* `clean_phi_incomplete`: a clean printout that leaves a predecessor out.
-/
namespace SsaGraph

/-! ## Clean logs -/

namespace Text.Printout

variable {out out' : Printout}

/-- Lines that are all printed leave their notes in the log, whatever the sink. -/
theorem log_putLines {lines : List Line} (run : out.putLines lines = (true, out')) :
    out'.log = out.log.noteAll (lines.flatMap Line.notes) := by
  induction lines generalizing out with
  | nil =>
    cases run
    simp [Log.noteAll, Tally.addAll]
  | cons line lines ih =>
    rw [putLines] at run
    cases put : out.sink.put (line.text ++ "\n").toUTF8 with
    | mk fits sink =>
      rw [put] at run
      cases fits with
      | false => cases run
      | true =>
        rw [ih run, List.flatMap_cons]
        exact noteAll_noteAll ..

theorem round_complete {d : Dump} (run : out.round d = (.complete, out')) :
    d.stop = none ∧ out'.log = (out.log.noteAll (d.lines.flatMap Line.notes)).summarize := by
  rw [round] at run
  cases put : out.putLines d.lines with
  | mk fits printed =>
    rw [put] at run
    cases fits with
    | false => cases run
    | true =>
      cases stop : d.stop with
      | some last =>
        rw [stop] at run
        cases run
      | none =>
        rw [stop] at run
        cases run
        exact ⟨rfl, congrArg Log.summarize (log_putLines put)⟩

theorem round_eq {d : Dump} {ending : Ending} (h : (out.round d).1 = ending) :
    out.round d = (ending, (out.round d).2) := by
  rw [← h]

end Text.Printout

/-- Where nothing is counted nothing was noted. -/
theorem notes_eq_nil {log : Log} {notes : List Diagnostic} (clean : (log.noteAll notes).tally = {}) :
    notes = [] := by
  rw [Log.noteAll, Tally.addAll_eq] at clean
  obtain ⟨errors, warnings⟩ := Tally.mk.inj clean
  refine List.eq_nil_iff_forall_not_mem.2 fun d noted => ?_
  cases severity : d.severity with
  | error =>
    have none := List.countP_eq_zero.1 (Nat.eq_zero_of_add_eq_zero_left errors) d noted
    simp [severity] at none
  | warning =>
    have none := List.countP_eq_zero.1 (Nat.eq_zero_of_add_eq_zero_left warnings) d noted
    simp [severity] at none

/-! ## Pairs without notes -/

namespace PhiEntry

variable {pairs : List (ValueId × BlockId)} {preds : List BlockId}

/-- Some of the predecessors are all of them if there are as many different ones. -/
theorem length_dedup_eq_iff {blocks : List BlockId} (nodup : preds.Nodup) (known : blocks ⊆ preds) :
    blocks.dedup.length = preds.length ↔ preds ⊆ blocks := by
  have some : blocks.dedup.Subperm preds :=
    List.subperm_of_subset (List.nodup_dedup blocks) fun b member => known (List.mem_dedup.1 member)
  refine ⟨fun length b member => ?_, fun all => ?_⟩
  · exact List.mem_dedup.1 ((some.perm_of_length_le (Nat.le_of_eq length.symm)).mem_iff.2 member)
  · refine Nat.le_antisymm some.length_le ?_
    exact (List.subperm_of_subset nodup fun b member => List.mem_dedup.2 (all member)).length_le

/-- What the pairs of a phi name when nothing is noted about it. -/
structure Known (pairs : List (ValueId × BlockId)) (preds : List BlockId) : Prop where
  /-- No pair is for another block. -/
  only : ∀ pair ∈ pairs, pair.2 ∈ preds
  enough : preds.length ≤ pairs.length
  /-- No predecessor is left out exactly if as many different blocks are named. -/
  covered_iff : (∀ pred ∈ preds, ∃ pair ∈ pairs, pair.2 = pred) ↔
    (pairs.map (·.2)).dedup.length = preds.length
  /-- Pairs that name no block twice name each predecessor once. -/
  once : (pairs.map (·.2)).Nodup → (pairs.map (·.2)).Perm preds

theorem Known.of_no_notes {g : Graph} {n : Names} {phi : ValueId} {v : Value} (nodup : preds.Nodup)
    (none : g.phiNotes n phi v pairs preds = []) : Known pairs preds := by
  have noError : ∀ d ∈ g.phiNotes n phi v pairs preds, d.severity ≠ .error := by
    intro d noted
    rw [none] at noted
    cases noted
  have only : ∀ pair ∈ pairs, pair.2 ∈ preds := Graph.known_of_no_error noError
  have long : ¬pairs.length < preds.length := by
    intro short
    have warned : .incompletePhi (n.name phi v).1 ∈ g.phiNotes n phi v pairs preds := by
      rw [Graph.phiNotes, if_pos short]
      exact List.mem_append_right _ (List.mem_singleton_self _)
    rw [none] at warned
    cases warned
  have subset : pairs.map (·.2) ⊆ preds := by
    intro b member
    obtain ⟨pair, listed, rfl⟩ := List.mem_map.1 member
    exact only pair listed
  refine ⟨only, Nat.not_lt.1 long, ?_, fun distinct => ?_⟩
  · rw [length_dedup_eq_iff nodup subset]
    refine forall₂_congr fun pred _ => ?_
    rw [List.mem_map]
  · have perm := blocks_perm nodup distinct only
    rwa [completed_of_long long, List.map_map] at perm

end PhiEntry

/-! ## Lines of phis -/

/-- A line whose rendering is known. -/
theorem Text.Shows.eq_of_writes {g : Graph} {item : Item} {line : Line} {text : Names → String}
    {notes : Names → List Diagnostic} (h : Shows g item line) (writes : Writes (item.line g) text notes) :
    ∃ n, line = ⟨text n, notes n⟩ := by
  obtain ⟨names, pen, -, run, noted, -⟩ := h
  obtain ⟨n, -, written⟩ := writes { names }
  obtain ⟨texts, pens⟩ := Prod.mk.inj ((written n (.refl _)).symm.trans run)
  have own : [] ++ notes n = line.notes := (congrArg Pen.notes pens).trans noted.symm
  exact ⟨n, congrArg₂ Line.mk (Except.ok.inj texts).symm own.symm⟩

namespace Workspace

open Text

variable {w : Workspace} {out out' : Printout} {phi : ValueId} {e : Value} {block : BlockId}

/-- A phi that stands in a block has a line in the dump, with what is noted about it. -/
theorem Built.phi_line (h : w.Built) (printable : ¬w.Unprintable) (entry : w.graph.values[phi]? = some e)
    (kind : e.kind = .phi) (attached : e.parent = some block) :
    ∃ n, (⟨"  " ++ w.graph.phiLine n phi e
        (PhiEntry.completed (Value.pairUp e.operands) (w.graph.predsOf block)),
      w.graph.phiNotes n phi e (Value.pairUp e.operands) (w.graph.predsOf block)⟩ : Line) ∈
        w.program.dump.lines := by
  have value : e.ty ≠ .void := by
    intro void
    have storable := h.phi_storable.1 phi e entry kind
    rw [void] at storable
    cases storable
  have line := writes_phi entry kind value (writes_entries_attached h.wellFormed entry kind attached)
  have indented := line.bind fun text => Writes.pure ("  " ++ text)
  obtain ⟨page, dump, shows⟩ := h.exists_page printable
  have listed : w.Listed (.inst phi) := .inst (Graph.parentOf_eq_some.2 ⟨e, entry, attached⟩)
  obtain ⟨n, shown⟩ := (shows _ listed).eq_of_writes indented
  have printed : page.line (.inst phi) ∈ w.program.dump.lines := by
    rw [dump]
    exact List.mem_map_of_mem ((h.mem_outline_iff (by simp)).2 listed)
  rw [shown] at printed
  simp only [attached, reduceCtorEq, if_false, List.nil_append, List.append_nil] at printed
  exact ⟨n, printed⟩

/-! ## Every run -/

/-- After every run, if printing completes and neither an error nor a warning is counted, the line of each
attached phi shows its pairs and nothing else. None of them is for a block that is no predecessor, and there
are enough of them. They leave no predecessor out exactly if they name as many different blocks as there are
predecessors, and so if they name no block twice. -/
theorem clean_phi_entries (h : w.Reachable) (run : out.round w.program.dump = (.complete, out'))
    (clean : out'.log.tally = { errors := 0, warnings := 0 }) (entry : w.graph.values[phi]? = some e)
    (kind : e.kind = .phi) (attached : e.parent = some block) :
    ∃ pairs n, e.incomings = .ok pairs ∧
      (⟨"  " ++ w.graph.phiLine n phi e (pairs.map .ofPair), []⟩ : Line) ∈ w.program.dump.lines ∧
      PhiEntry.Known pairs (w.graph.predsOf block) := by
  have built := h.built
  obtain ⟨stop, log⟩ := Printout.round_complete run
  -- counts only grow, so a log with older notes would not be clean either
  have quiet : w.program.dump.lines.flatMap Line.notes = [] := by
    rw [log] at clean
    exact notes_eq_nil clean
  obtain ⟨n, line⟩ := built.phi_line (built.dump_stop_eq_none_iff.1 stop) entry kind attached
  have none : w.graph.phiNotes n phi e (Value.pairUp e.operands) (w.graph.predsOf block) = [] :=
    List.flatMap_eq_nil_iff.1 quiet _ line
  have known := PhiEntry.Known.of_no_notes (built.records.nodup block).2 none
  rw [none, PhiEntry.completed_of_long (Nat.not_lt.2 known.enough)] at line
  exact ⟨_, n, Value.incomings_eq kind, line, known⟩

/-- Two blocks jump to a third, which starts with a phi of two pairs. The first pair names the first block,
and the second the given one. -/
def merging (second : BlockId) : Workspace :=
  (start "merging").perform
    [.define "f" [] .void, .addBlock 1 (some "a"), .addBlock 1 (some "b"), .addBlock 1 (some "m"),
      .build (.jump 4) (some 2), .build (.jump 4) (some 3), .build (.integer 1) none,
      .build (.phi .i32) (some 4), .addIncoming 8 7 2, .addIncoming 8 7 second]

/-- With a pair for each of the two blocks nothing is noted, and both are named. -/
theorem clean_phi_entries_merging : (merging 3).Reachable ∧ (merging 3).graph.predsOf 4 = [2, 3] ∧
    (∃ out', Printout.round {} (merging 3).program.dump = (.complete, out') ∧
      out'.log.tally = { errors := 0, warnings := 0 }) ∧
    ∃ e n, (merging 3).graph.values[8]? = some e ∧ e.incomings = .ok [(7, 2), (7, 3)] ∧
      (⟨"  " ++ (merging 3).graph.phiLine n 8 e [⟨some 7, 2⟩, ⟨some 7, 3⟩], []⟩ : Line) ∈
        (merging 3).program.dump.lines ∧
      PhiEntry.Known [(7, 2), (7, 3)] [2, 3] := by
  have reachable : (merging 3).Reachable := (Reachable.start "merging").perform _
  have preds : (merging 3).graph.predsOf 4 = [2, 3] := by decide +kernel
  have ending : (Printout.round {} (merging 3).program.dump).1 = .complete := by decide +kernel
  have clean : (Printout.round {} (merging 3).program.dump).2.log.tally =
      { errors := 0, warnings := 0 } := by decide +kernel
  have run := Printout.round_eq ending
  have found : (merging 3).graph.values[8]?.map (fun e => (e.kind, e.parent, e.operands)) =
      some (.phi, some 4, [7, 2, 7, 3]) := by decide +kernel
  obtain ⟨e, entry, view⟩ := Option.map_eq_some_iff.1 found
  obtain ⟨kind, view⟩ := Prod.mk.inj view
  obtain ⟨attached, operands⟩ := Prod.mk.inj view
  obtain ⟨pairs, n, recorded, line, known⟩ := clean_phi_entries reachable run clean entry kind attached
  have both : e.incomings = .ok [(7, 2), (7, 3)] := by
    rw [Value.incomings_eq kind, operands]
    rfl
  rw [both] at recorded
  cases recorded
  rw [preds] at known
  exact ⟨reachable, preds, ⟨_, run, clean⟩, e, n, entry, both, line, known⟩

/-- With two pairs for the first block nothing is noted either. The second block has no entry, although it
is a predecessor. -/
theorem clean_phi_incomplete : (merging 2).Reachable ∧ (merging 2).graph.predsOf 4 = [2, 3] ∧
    (∃ out', Printout.round {} (merging 2).program.dump = (.complete, out') ∧
      out'.log.tally = { errors := 0, warnings := 0 }) ∧
    (∃ e, (merging 2).graph.values[8]? = some e ∧ e.kind = .phi ∧ e.parent = some 4 ∧
      e.incomings = .ok [(7, 2), (7, 2)]) ∧
    (¬∃ entry ∈ PhiEntry.completed [(7, 2), (7, 2)] [2, 3], entry.block = 3) ∧
    (merging 2).program.dump.text =
      "define void @f() \x7b\na:\n  br label %m\n\nb:\n  br label %m\n\n" ++
        "m:\n  %0 = phi i32 [ 1, %a ], [ 1, %a ]\n\x7d\n" := by
  have ending : (Printout.round {} (merging 2).program.dump).1 = .complete := by decide +kernel
  have clean : (Printout.round {} (merging 2).program.dump).2.log.tally =
      { errors := 0, warnings := 0 } := by decide +kernel
  have found : (merging 2).graph.values[8]?.map (fun e => (e.kind, e.parent, e.operands)) =
      some (.phi, some 4, [7, 2, 7, 2]) := by decide +kernel
  obtain ⟨e, entry, view⟩ := Option.map_eq_some_iff.1 found
  obtain ⟨kind, view⟩ := Prod.mk.inj view
  obtain ⟨attached, operands⟩ := Prod.mk.inj view
  have both : e.incomings = .ok [(7, 2), (7, 2)] := by
    rw [Value.incomings_eq kind, operands]
    rfl
  exact ⟨(Reachable.start "merging").perform _, by decide +kernel, ⟨_, Printout.round_eq ending, clean⟩,
    ⟨e, entry, kind, attached, both⟩, by decide, by decide +kernel⟩

end Workspace

end SsaGraph
