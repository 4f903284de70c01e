import SsaGraph.Proofs.Pages

/-!
# The entries of a phi

A phi has recorded pairs of a value and a block, and the block it stands in has predecessors. Nothing
keeps the two in step. When a phi is written its pairs come first, as they are, and it is completed with
`undef` if there are fewer pairs than predecessors. Only the two numbers are compared, so a pair may name a
block that is no predecessor, or two pairs the same one.

`PhiEntry.completed` lists the entries before they are written. That they name every predecessor is then
a matter of counting: as a block has no predecessor twice, `n` pairs leave out all but `n` of them.

Results:
* `length_le_unnamed`, `PhiEntry.blocks_perm`: how many predecessors the pairs leave out, and when every
  predecessor is named once;
* `Text.writes_phi`: the line of a phi;
* `Built.phi_storable`: a phi always has a value, so the line starts with a name;
* `phi_entries_exact`: the written phi and its notes, after every run.
-/
namespace SsaGraph

/-! ## Entries -/

/-- An entry of a phi: a block and what comes in from it, if that is recorded. -/
structure PhiEntry where
  value : Option ValueId
  block : BlockId
  deriving DecidableEq, Repr

namespace PhiEntry

variable {pairs : List (ValueId × BlockId)} {preds : List BlockId}

/-- How the entry reads under these names. -/
def text (g : Graph) (n : Names) (entry : PhiEntry) : String :=
  "[ " ++ entry.value.elim "undef" (g.shown n) ++ ", " ++ g.shown n entry.block ++ " ]"

def ofPair (pair : ValueId × BlockId) : PhiEntry := ⟨some pair.1, pair.2⟩

def ofPred (pred : BlockId) : PhiEntry := ⟨none, pred⟩

theorem text_ofPred (g : Graph) (n : Names) (pred : BlockId) :
    (ofPred pred).text g n = "[ undef, " ++ g.shown n pred ++ " ]" := by
  have head : "[ undef, " = "[ " ++ "undef" ++ ", " := rfl
  rw [head]
  rfl

/-- The entries of a phi with these pairs in a block with these predecessors. -/
def completed (pairs : List (ValueId × BlockId)) (preds : List BlockId) : List PhiEntry :=
  pairs.map ofPair ++
    if pairs.length < preds.length then (preds.filter (· ∉ pairs.map (·.2))).map ofPred else []

theorem completed_of_short (short : pairs.length < preds.length) : completed pairs preds =
    pairs.map ofPair ++ (preds.filter (· ∉ pairs.map (·.2))).map ofPred := by
  rw [completed, if_pos short]

theorem completed_of_long (long : ¬pairs.length < preds.length) :
    completed pairs preds = pairs.map ofPair := by
  rw [completed, if_neg long, List.append_nil]

/-- A list without repetitions has at most `blocks.length` members in `blocks`. -/
theorem length_le_unnamed (nodup : preds.Nodup) (blocks : List BlockId) :
    preds.length ≤ blocks.length + (preds.filter (· ∉ blocks)).length := by
  have named : (preds.filter (· ∈ blocks)).length ≤ blocks.length := by
    refine (List.subperm_of_subset (nodup.filter _) fun b member => ?_).length_le
    simpa using (List.mem_filter.1 member).2
  have split := List.length_eq_length_filter_add (l := preds) (· ∈ blocks)
  simp only [decide_not] at split ⊢
  omega

theorem undef_completed (nodup : preds.Nodup) (short : pairs.length < preds.length) :
    preds.length - pairs.length ≤ (completed pairs preds).countP (·.value = none) := by
  have unnamed := length_le_unnamed nodup (pairs.map (·.2))
  have undef : ∀ l : List BlockId, (l.map ofPred).countP (·.value = none) = l.length := by
    intro l
    simp [List.countP_map, ofPred, Function.comp_def]
  rw [completed_of_short short, List.countP_append, undef]
  rw [List.length_map] at unnamed
  omega

theorem covered (short : pairs.length < preds.length) {pred : BlockId} (member : pred ∈ preds) :
    ∃ entry ∈ completed pairs preds, entry.block = pred := by
  rw [completed_of_short short]
  by_cases named : pred ∈ pairs.map (·.2)
  · obtain ⟨pair, listed, rfl⟩ := List.mem_map.1 named
    exact ⟨ofPair pair, List.mem_append_left _ (List.mem_map_of_mem listed), rfl⟩
  · have unnamed : pred ∈ preds.filter (· ∉ pairs.map (·.2)) :=
      List.mem_filter.2 ⟨member, by simpa using named⟩
    exact ⟨ofPred pred, List.mem_append_right _ (List.mem_map_of_mem unnamed), rfl⟩

/-- Pairs with different blocks, all of them predecessors, are completed to one entry for each
predecessor. -/
theorem blocks_perm (nodup : preds.Nodup) (distinct : (pairs.map (·.2)).Nodup)
    (known : ∀ pair ∈ pairs, pair.2 ∈ preds) : ((completed pairs preds).map block).Perm preds := by
  have subset : pairs.map (·.2) ⊆ preds := by
    intro b member
    obtain ⟨pair, listed, rfl⟩ := List.mem_map.1 member
    exact known pair listed
  by_cases short : pairs.length < preds.length
  · rw [completed_of_short short, List.map_append, List.map_map, List.map_map]
    have rest : (preds.filter (· ∉ pairs.map (·.2))).map (block ∘ ofPred) =
        preds.filter (· ∉ pairs.map (·.2)) := List.map_id _
    rw [rest]
    refine (List.perm_ext_iff_of_nodup (distinct.append (nodup.filter _) ?_) nodup).2 fun b => ?_
    · intro b named unnamed
      exact absurd named (by simpa using (List.mem_filter.1 unnamed).2)
    · constructor
      · intro member
        rcases List.mem_append.1 member with named | unnamed
        · exact subset named
        · exact (List.mem_filter.1 unnamed).1
      · intro member
        by_cases named : b ∈ pairs.map (·.2)
        · exact List.mem_append_left _ named
        · exact List.mem_append_right _ (List.mem_filter.2 ⟨member, by simpa using named⟩)
  · rw [completed_of_long short, List.map_map]
    refine (List.subperm_of_subset distinct subset).perm_of_length_le ?_
    rw [List.length_map]
    omega

theorem count_blocks (nodup : preds.Nodup) (distinct : (pairs.map (·.2)).Nodup)
    (known : ∀ pair ∈ pairs, pair.2 ∈ preds) (b : BlockId) :
    ((completed pairs preds).map block).count b = if b ∈ preds then 1 else 0 := by
  rw [(blocks_perm nodup distinct known).count_eq]
  exact nodup.count

end PhiEntry

/-! ## Lines and notes -/

namespace Graph

variable {g : Graph} {n : Names} {phi : ValueId} {v : Value} {pairs : List (ValueId × BlockId)}
  {preds : List BlockId}

/-- The type of a phi and its entries, if there are any. -/
def phiArguments (ty : Ty) : List String → String
  | [] => ty.text
  | entries => ty.text ++ " " ++ Text.commas entries

/-- A phi with these entries under these names. -/
def phiLine (g : Graph) (n : Names) (phi : ValueId) (v : Value) (entries : List PhiEntry) : String :=
  (n.name phi v).1 ++ " = phi " ++ phiArguments v.ty (entries.map (·.text g n))

/-- What is noted about a phi with these pairs in a block with these predecessors: an error for each pair
that names another block, and then a warning if there are fewer pairs. -/
def phiNotes (g : Graph) (n : Names) (phi : ValueId) (v : Value) (pairs : List (ValueId × BlockId))
    (preds : List BlockId) : List Diagnostic :=
  (pairs.filter (·.2 ∉ preds)).map
      (fun pair => .strayIncoming (g.shown n pair.2) (n.name phi v).1) ++
    if pairs.length < preds.length then [.incompletePhi (n.name phi v).1] else []

theorem known_of_no_error (clean : ∀ d ∈ g.phiNotes n phi v pairs preds, d.severity ≠ .error) :
    ∀ pair ∈ pairs, pair.2 ∈ preds := by
  intro pair listed
  by_contra stray
  have found : pair ∈ pairs.filter (·.2 ∉ preds) := List.mem_filter.2 ⟨listed, by simpa using stray⟩
  exact clean _ (List.mem_append_left _ (List.mem_map_of_mem found)) rfl

theorem short_of_warning {d : Diagnostic} (noted : d ∈ g.phiNotes n phi v pairs preds)
    (warning : d.severity = .warning) : pairs.length < preds.length := by
  rcases List.mem_append.1 noted with stray | last
  · obtain ⟨pair, -, rfl⟩ := List.mem_map.1 stray
    cases warning
  · by_contra long
    rw [if_neg long] at last
    cases last

end Graph

namespace Text

variable {g : Graph} {phi : ValueId} {v : Value}

/-- The line of a phi, once its entries are known. -/
theorem writes_phi {entries : List PhiEntry} {notes : Names → List Diagnostic}
    (entry : g.values[phi]? = some v) (kind : v.kind = .phi) (value : v.ty ≠ .void)
    (writes : Writes (phiEntries g phi v) (fun n => entries.map (·.text g n)) notes) :
    Writes (instruction g phi) (g.phiLine · phi v entries) fun n =>
      (if v.parent = none then [.detached] else []) ++ notes n := by
  have arguments : Writes (arguments g phi v)
      (fun n => Graph.phiArguments v.ty (entries.map (·.text g n))) notes := by
    unfold Text.arguments
    rw [kind]
    refine (@Writes.bind _ _ _ _ _ _ (fun texts _ => Graph.phiArguments v.ty texts) (fun _ _ => []) writes
      fun texts => ?_).congr (fun _ => rfl) fun _ => List.append_nil _
    cases texts with
    | nil => exact .pure _
    | cons => exact .pure _
  have line : Writes (do
      let args ← Text.arguments g phi v
      Pure.pure ((← nameOf phi v) ++ " = " ++ ("phi" ++ " " ++ args)))
      (g.phiLine · phi v entries) notes := by
    refine (arguments.bind fun _ => (writes_nameOf phi v).bind fun _ => .pure _).congr (fun n => ?_)
      fun n => List.append_nil _
    have head : " = phi " = " = " ++ ("phi" ++ " ") := rfl
    rw [Graph.phiLine, head]
    simp only [String.append_assoc]
  have hasValue : v.isVoid = false := by simpa [Value.isVoid] using value
  rw [instruction, lift_bind (Graph.value_eq_ok.2 entry)]
  simp only [kind, hasValue]
  split
  · exact (writes_note .detached).bind fun _ => line
  · exact line

theorem writes_entries_attached {block : BlockId} (wf : g.WellFormed) (entry : g.values[phi]? = some v)
    (kind : v.kind = .phi) (attached : v.parent = some block) :
    Writes (phiEntries g phi v)
      (fun n => (PhiEntry.completed (Value.pairUp v.operands) (g.predsOf block)).map (·.text g n))
      fun n => g.phiNotes n phi v (Value.pairUp v.operands) (g.predsOf block) := by
  refine (writes_attachedEntries wf entry attached kind).congr (fun n => ?_) fun n => ?_
  · unfold Graph.entries Graph.isShort PhiEntry.completed
    simp only [kind, attached, List.map_append, decide_eq_true_eq]
    split
    · simp only [List.map_map, Function.comp_def, PhiEntry.text_ofPred]
      rfl
    · rw [List.map_map]
      rfl
  · unfold Graph.diagnostics Graph.strays Graph.isShort Graph.phiNotes
    simp only [kind, attached, decide_eq_true_eq]

theorem writes_entries_detached (live : ∀ op ∈ v.operands, op ∈ g.values) (kind : v.kind = .phi)
    (detached : v.parent = none) :
    Writes (phiEntries g phi v)
      (fun n => ((Value.pairUp v.operands).map PhiEntry.ofPair).map (·.text g n)) fun _ => [] := by
  rw [phiEntries, lift_bind (Value.incomings_eq kind)]
  simp only [detached, bind_pure]
  refine (writes_recordedEntries fun pair member => ?_).congr (fun n => ?_) fun _ => rfl
  · have both := Value.mem_of_mem_pairUp member
    exact ⟨live _ both.1, live _ both.2⟩
  · rw [List.map_map]
    rfl

end Text

namespace Graph

/-- How a phi with these pairs is written in a block with these predecessors. -/
structure WritesPhi (g : Graph) (phi : ValueId) (e : Value) (pairs : List (ValueId × BlockId))
    (preds : List BlockId) : Prop where
  line : Text.Writes (Text.instruction g phi)
    (g.phiLine · phi e (PhiEntry.completed pairs preds)) (g.phiNotes · phi e pairs preds)
  /-- A warning means that at least the missing number of entries was added. -/
  added : ∀ n, (∃ d ∈ g.phiNotes n phi e pairs preds, d.severity = .warning) →
    preds.length - pairs.length ≤ (PhiEntry.completed pairs preds).countP (·.value = none)
  covered : ∀ n, (∃ d ∈ g.phiNotes n phi e pairs preds, d.severity = .warning) →
    ∀ pred ∈ preds, ∃ entry ∈ PhiEntry.completed pairs preds, entry.block = pred
  /-- Without an error, different blocks make one entry for each predecessor and no other. -/
  once : ∀ n, (∀ d ∈ g.phiNotes n phi e pairs preds, d.severity ≠ .error) →
    (pairs.map (·.2)).Nodup →
      ∀ b, ((PhiEntry.completed pairs preds).map (·.block)).count b = if b ∈ preds then 1 else 0

end Graph

/-! ## Every run -/

namespace Workspace

variable {w : Workspace} {phi : ValueId} {e : Value}

/-- A phi is built with a type that can be stored, and keeps its type. -/
theorem Built.phi_storable (h : w.Built) :
    w.All fun e => e.kind = .phi → e.ty.isStorable = true := by
  refine Built.invariant (P := fun w => w.All fun e => e.kind = .phi → e.ty.isStorable = true)
    (fun name => .start name _) (fun {w w'} built all step => ?_) h
  obtain ⟨values, removed⟩ := all
  have carried : ∀ {e former : Value}, (former.kind = .phi → former.ty.isStorable = true) →
      e.ty = former.ty → e.kind = former.kind → e.kind = .phi → e.ty.isStorable = true := by
    intro e former storable ty kind phi
    rw [kind] at phi
    rw [ty]
    exact storable phi
  refine ⟨fun x e he => ?_, fun v e he => ?_⟩
  · cases step.origin built.numbered he with
    | kept entry bare | extended entry kind blockLive ty bare =>
      obtain ⟨ty, kind, -⟩ := Value.bare_inj.1 bare
      exact carried (values x _ entry) ty kind
    | written allowed slot bare =>
      obtain ⟨ty, kind, -⟩ := Value.bare_inj.1 bare
      exact carried (values x _ slot.entry) ty kind
    | drafted new drafted live bare =>
      obtain ⟨tys, -, typed⟩ := (Draft.value_made built.catalogued drafted live).checked
      obtain ⟨ty, kind, -⟩ := Value.bare_inj.1 bare
      intro phi
      rw [← kind, phi, ← ty] at typed
      cases typed with
      | phi storable => exact storable
    | block new kind | function new kind | param new kind | global new kind =>
      intro phi
      rw [kind] at phi
      cases phi
    | restored new found live bare =>
      obtain ⟨ty, kind, -⟩ := Value.bare_inj.1 bare
      exact carried (removed _ _ found) ty kind
  · rcases step.removed_origin he with he | he
    · exact removed v e he
    · exact values v e he

/-- After every run a phi is written, whatever was written before. Its pairs are its operands, two by two. An
attached one shows them in order and is completed if it has fewer of them than its block has predecessors; what is noted tells whether the
entries are those of the predecessors. A detached one shows its pairs only. -/
theorem phi_entries_exact (h : w.Reachable) (entry : w.graph.values[phi]? = some e)
    (kind : e.kind = .phi) : ∃ pairs, e.incomings = .ok pairs ∧
      pairs.flatMap (fun pair => [pair.1, pair.2]) = e.operands ∧
      (∀ block, e.parent = some block →
        w.graph.WritesPhi phi e pairs (w.graph.predsOf block)) ∧
      (e.parent = none → Text.Writes (Text.instruction w.graph phi)
        (w.graph.phiLine · phi e (pairs.map .ofPair)) fun _ => [.detached]) := by
  have built := h.built
  have wf := built.wellFormed
  have value : e.ty ≠ .void := by
    intro void
    have storable := built.phi_storable.1 phi e entry kind
    rw [void] at storable
    cases storable
  obtain ⟨pairs, recorded, operands⟩ := (Value.answers (wf.shaped phi e entry)).incomings kind
  obtain rfl : Value.pairUp e.operands = pairs :=
    Except.ok.inj ((Value.incomings_eq kind).symm.trans recorded)
  refine ⟨_, recorded, operands, fun block attached => ?_, fun detached => ?_⟩
  · have nodup : (w.graph.predsOf block).Nodup := (wf.records.nodup block).2
    refine ⟨?_, fun n warned => ?_, fun n warned => ?_, fun n clean distinct => ?_⟩
    · have line := Text.writes_phi entry kind value (Text.writes_entries_attached wf entry kind attached)
      exact line.congr (fun _ => rfl) fun n => by simp [attached]
    · obtain ⟨d, noted, warning⟩ := warned
      exact PhiEntry.undef_completed nodup (Graph.short_of_warning noted warning)
    · obtain ⟨d, noted, warning⟩ := warned
      exact fun pred member => PhiEntry.covered (Graph.short_of_warning noted warning) member
    · exact PhiEntry.count_blocks nodup distinct (Graph.known_of_no_error clean)
  · have line := Text.writes_phi entry kind value
      (Text.writes_entries_detached (wf.useDef.operands_live entry) kind detached)
    exact line.congr (fun _ => rfl) fun n => by simp [detached]

/-- The phi has one pair, which names its own block, and neither of the two predecessors. -/
theorem phi_entries_exact_crossing : crossing.Reachable ∧ crossing.graph.predsOf 7 = [5, 6] ∧
    PhiEntry.completed [(1, 7)] [5, 6] = [⟨some 1, 7⟩, ⟨none, 5⟩, ⟨none, 6⟩] ∧
    ∃ e, crossing.graph.values[10]? = some e ∧ e.operands = [1, 7] ∧
      crossing.graph.WritesPhi 10 e [(1, 7)] [5, 6] := by
  have reachable : crossing.Reachable := (Reachable.start "crossing").perform _
  have preds : crossing.graph.predsOf 7 = [5, 6] := by decide +kernel
  have found : crossing.graph.values[10]?.map (fun e => (e.kind, e.parent, e.operands)) =
      some (.phi, some 7, [1, 7]) := by decide +kernel
  obtain ⟨e, entry, view⟩ := Option.map_eq_some_iff.1 found
  obtain ⟨kind, view⟩ := Prod.mk.inj view
  obtain ⟨attached, operands⟩ := Prod.mk.inj view
  obtain ⟨pairs, recorded, -, written, -⟩ := phi_entries_exact reachable entry kind
  have known : e.incomings = .ok [(1, 7)] := by
    rw [Value.incomings_eq kind, operands]
    rfl
  rw [known] at recorded
  cases recorded
  have all := written 7 attached
  rw [preds] at all
  exact ⟨reachable, preds, by decide, e, entry, operands, all⟩

end Workspace

end SsaGraph
