import SsaGraph.Proofs.Handles
import SsaGraph.Proofs.Printing
import SsaGraph.Proofs.Removal

/-!
# Printing after a removal

A removal is refused as long as a slot holds the value, an instruction is taken out of its list first, and
blocks and functions are not removed at all. So no operand and no instruction goes missing that would have
to be printed. But printing also follows the layout of globals and the parameter lists of definitions, and
no removal looks at these.

Results:
* `Graph.lostBase_removal`: an instruction that is left reads through what it read through before;
* `unprintable_removal_iff`: how a printable program becomes unprintable by a removal;
* `printing_kept_iff`: the same for every run, and for both edits that remove;
* `removal_breaks_printing`: a removal after which a program can not be printed.
-/
namespace SsaGraph

namespace Graph

variable {g : Graph} {v x : ValueId} {e : Value}

/-! ## What is left -/

theorem mem_values_removal : x ∈ (g.removal v).values ↔ x ≠ v ∧ x ∈ g.values := by
  have other : compare v x ≠ .eq ↔ x ≠ v := by
    rw [ne_eq, Std.LawfulEqCmp.compare_eq_iff_eq, ne_comm]
  rw [removal, Std.ExtTreeMap.mem_map, Std.ExtTreeMap.mem_erase, other]

/-- An entry that is left differs from the one before in its uses only. -/
theorem entry_of_removal (h : (g.removal v).values[x]? = some e) :
    ∃ former, g.values[x]? = some former ∧ e.ty = former.ty ∧ e.kind = former.kind ∧
      e.operands = former.operands ∧ e.parent = former.parent := by
  have other : x ≠ v := by
    rintro rfl
    rw [getElem?_removal_self] at h
    cases h
  rw [getElem?_removal_of_ne other] at h
  obtain ⟨former, entry, rfl⟩ := Option.map_eq_some_iff.1 h
  exact ⟨former, entry, rfl, rfl, rfl, rfl⟩

theorem lostBase_removal {former : Value} (kind : e.kind = former.kind)
    (operands : e.operands = former.operands) (lost : (g.removal v).LostBase e) : g.LostBase former := by
  obtain ⟨reads, base, ty, first, hty, noPointer⟩ := lost
  obtain ⟨b, found, rfl⟩ := tyOf_eq_some.1 hty
  obtain ⟨b', found', same, -⟩ := entry_of_removal found
  rw [kind] at reads
  rw [operands] at first
  exact ⟨reads, base, b.ty, first, tyOf_eq_some.2 ⟨b', found', same.symm⟩, noPointer⟩

end Graph

namespace Workspace

open Text

variable {w w' : Workspace} {v : ValueId} {edit : Edit} {reply : Reply} {out out' : Printout}

/-! ## How printing ends -/

/-- Without a limit, printing completes or faults, and it faults for unprintable programs only. -/
theorem Built.round_cases (h : w.Built) (unlimited : out.sink.limit = none) :
    (out.round w.program.dump).1 = .complete ∧ ¬w.Unprintable ∨
      (∃ fault, (out.round w.program.dump).1 = .faulted fault) ∧ w.Unprintable := by
  have stops := h.dump_stop_eq_none_iff
  rw [Printout.round_unlimited unlimited]
  cases stop : w.program.dump.stop with
  | none => exact .inl ⟨rfl, stops.1 stop⟩
  | some last =>
    refine .inr ⟨⟨last.1, rfl⟩, ?_⟩
    by_contra printable
    rw [stops.2 printable] at stop
    cases stop

theorem Built.round_complete_iff (h : w.Built) (unlimited : out.sink.limit = none) :
    (out.round w.program.dump).1 = .complete ↔ ¬w.Unprintable := by
  rcases h.round_cases unlimited with ⟨complete, printable⟩ | ⟨⟨fault, faulted⟩, unprintable⟩
  · exact iff_of_true complete printable
  · refine iff_of_false (fun complete => ?_) (not_not_intro unprintable)
    rw [faulted] at complete
    cases complete

/-! ## Values that printing comes to without a slot -/

/-- The handle is that of a global of the layout or of a parameter of a definition. -/
inductive InLayout (w : Workspace) (v : ValueId) : Prop
  | global (listed : v ∈ w.program.globals)
  | param {f : FuncId} {func : Func} (found : w.graph.functions[f]? = some func)
      (defined : func.isDecl = false) (listed : v ∈ func.params)

theorem Built.not_inst_of_inLayout (h : w.Built) (inLayout : w.InLayout v) {e : Value}
    (entry : w.graph.values[v]? = some e) : e.kind.isInst = false := by
  cases inLayout with
  | global listed =>
    obtain ⟨isConst, kind⟩ := (h.globals v listed).2 e entry
    rw [kind]
    rfl
  | param found defined listed =>
    obtain ⟨index, kind⟩ := (h.params _ _ found v listed).2 e entry
    rw [kind]
    rfl

/-- A printable program stays so when a value is removed, unless the layout has the value. -/
theorem unprintable_removal_iff (printable : ¬w.Unprintable) (removed : Table Value) :
    { w.withGraph (w.graph.removal v) with removed }.Unprintable ↔ w.InLayout v := by
  have gone : v ∉ (w.graph.removal v).values := fun live => (Graph.mem_values_removal.1 live).1 rfl
  -- what is missing now and was not before is the value
  have missing : ∀ {x : ValueId}, x ∉ (w.graph.removal v).values → x ∈ w.graph.values → x = v := by
    intro x dead live
    by_contra other
    exact dead (Graph.mem_values_removal.2 ⟨other, live⟩)
  refine ⟨fun unprintable => ?_, fun inLayout => ?_⟩
  · cases unprintable with
    | @global x listed dead =>
      have live : x ∈ w.graph.values := by
        by_contra before
        exact printable (.global listed before)
      exact .global (missing dead live ▸ listed)
    | @param f func x found defined listed dead =>
      have live : x ∈ w.graph.values := by
        by_contra before
        exact printable (.param found defined listed before)
      exact .param found defined (missing dead live ▸ listed)
    | base entry attached lost =>
      obtain ⟨former, entry', -, kind, operands, parent⟩ := Graph.entry_of_removal entry
      rw [parent] at attached
      exact absurd (.base entry' attached (Graph.lostBase_removal kind operands lost)) printable
  · cases inLayout with
    | global listed => exact .global listed gone
    | param found defined listed => exact .param found defined listed gone

/-! ## Every run -/

/-- An instruction that is removed as such was one. -/
theorem Step.isInst_of_removeInst (step : w.Step (.removeInst v) (.ok reply) w') :
    ∃ e, w.graph.values[v]? = some e ∧ e.kind.isInst = true := by
  obtain ⟨run⟩ := step
  simp only [Workspace.apply, Graph.removeInst, bind_eq_ok, pure_eq_ok, Graph.value_eq_ok, Prod.exists] at run
  obtain ⟨answer, g, ⟨e, entry, run⟩, kept⟩ := run
  refine ⟨e, entry, ?_⟩
  by_contra other
  rw [if_pos (by simpa using other)] at run
  cases run
  cases congrArg Prod.fst kept

/-- After every run that leaves a printable program, printing completes after a removal exactly when the
value is neither a global of the layout nor a parameter of a definition, and faults otherwise. Removing a
value as an instruction never keeps a program from being printed. -/
theorem printing_kept_iff (h : w.Reachable) (unlimited : out.sink.limit = none)
    (unlimited' : out'.sink.limit = none) (complete : (out.round w.program.dump).1 = .complete)
    (step : w.Step edit (.ok reply) w') (removal : edit = .removeValue v ∨ edit = .removeInst v) :
    ((out'.round w'.program.dump).1 = .complete ↔ ¬w.InLayout v) ∧
      (w.InLayout v → ∃ fault, (out'.round w'.program.dump).1 = .faulted fault) ∧
      (edit = .removeInst v → (out'.round w'.program.dump).1 = .complete) := by
  have built := h.built
  have built' := step.built built
  have printable := (built.round_complete_iff unlimited).1 complete
  have unprintable : w'.Unprintable ↔ w.InLayout v := by
    obtain ⟨entry, g, run, rfl⟩ := step.removal removal
    obtain ⟨e, -, -, rfl⟩ := built.wellFormed.removal_of_ok run
    exact unprintable_removal_iff printable _
  have kept : (out'.round w'.program.dump).1 = .complete ↔ ¬w.InLayout v := by
    rw [built'.round_complete_iff unlimited', unprintable]
  refine ⟨kept, fun inLayout => ?_, fun asInst => kept.2 fun inLayout => ?_⟩
  · rcases built'.round_cases unlimited' with ⟨-, fine⟩ | ⟨faults, -⟩
    · exact absurd (unprintable.2 inLayout) fine
    · exact faults
  · subst asInst
    obtain ⟨e, entry, isInst⟩ := step.isInst_of_removeInst
    rw [built.not_inst_of_inLayout inLayout entry] at isInst
    cases isInst

/-- The program still prints without its last instruction. The second parameter is not used, but it is in
the layout. -/
theorem printing_kept_iff_reader : reader.Reachable ∧
    (Printout.round {} reader.program.dump).1 = .complete ∧
    (∃ e w', reader.Step (.removeInst 8) (.ok (.removed e)) w' ∧ e.operands = [7] ∧
      (Printout.round {} w'.program.dump).1 = .complete) ∧
    ∃ e w' fault, reader.Step (.removeValue 5) (.ok (.removed e)) w' ∧ e.kind = .param 1 ∧
      reader.InLayout 5 ∧ (Printout.round {} w'.program.dump).1 = .faulted fault := by
  have reachable : reader.Reachable := (Reachable.start "reader").perform _
  have complete : (Printout.round {} reader.program.dump).1 = .complete := by decide +kernel
  have last : reader.Step (.removeInst 8)
      (.ok (.removed { ty := .void, kind := .ret, operands := [7] })) (reader.perform [.removeInst 8]) :=
    .perform (by decide +kernel)
  have param : reader.Step (.removeValue 5) (.ok (.removed { ty := .i32, kind := .param 1 }))
      (reader.perform [.removeValue 5]) := .perform (by decide +kernel)
  have inLayout : reader.InLayout 5 := by
    have listed : (reader.graph.functions[3]?.any fun f => f.isDecl = false ∧ 5 ∈ f.params) = true := by
      decide +kernel
    obtain ⟨func, found, both⟩ := (Option.any_eq_true _ _).1 listed
    obtain ⟨defined, member⟩ := decide_eq_true_eq.mp both
    exact .param found defined member
  have faults : ∃ fault,
      (Printout.round {} (reader.perform [.removeValue 5]).program.dump).1 = .faulted fault :=
    (printing_kept_iff reachable rfl rfl complete param (.inl rfl)).2.1 inLayout
  obtain ⟨fault, faulted⟩ := faults
  exact ⟨reachable, complete,
    ⟨_, _, last, rfl, (printing_kept_iff reachable rfl rfl complete last (.inr rfl)).2.2 rfl⟩,
    _, _, fault, param, rfl, inLayout, faulted⟩

/-- Neither the global nor the second parameter is held by a slot, so both can be removed, and what is left
can not be printed in either case. -/
theorem removal_breaks_printing : reader.Reachable ∧
    (Printout.round {} reader.program.dump).1 = .complete ∧
    (∃ e w', reader.Step (.removeValue 2) (.ok (.removed e)) w' ∧ e.kind = .global false ∧
      (Printout.round {} w'.program.dump).1 = .faulted .missingValue) ∧
    ∃ e w', reader.Step (.removeValue 5) (.ok (.removed e)) w' ∧ e.kind = .param 1 ∧
      (Printout.round {} w'.program.dump).1 = .faulted .missingValue := by
  have global : reader.Step (.removeValue 2)
      (.ok (.removed
        { ty := .pointer .i32, kind := .global false, name := some "g", operands := [1] }))
      (reader.perform [.removeValue 2]) := .perform (by decide +kernel)
  have param : reader.Step (.removeValue 5) (.ok (.removed { ty := .i32, kind := .param 1 }))
      (reader.perform [.removeValue 5]) := .perform (by decide +kernel)
  exact ⟨(Reachable.start "reader").perform _, by decide +kernel,
    ⟨_, _, global, rfl, by decide +kernel⟩, _, _, param, rfl, by decide +kernel⟩

end Workspace

end SsaGraph
