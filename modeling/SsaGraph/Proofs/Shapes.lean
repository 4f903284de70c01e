import SsaGraph.Proofs.Progress
import SsaGraph.Proofs.Typing

/-!
# The shape of every value

The kind of a value says how many operands it has, which of them are blocks and functions, and often
which type it has. A builder sets this up. Slots are then written without regard to the kind beyond the
two checks for blocks and callees, phis grow, and removed entries are put back without any check.

`Graph.WellMade` is kept through all of this, for the values of a graph and for the removed entries
together, since each may become the other; by `Origin` there are few cases to look at.

Results:
* `Built.wellMade`: every value and every removed entry of a built workspace is well made;
* `Value.answers`: with the right number of operands the questions for the kind find their slots;
* `values_shaped`: the whole shape, after every run.
-/
namespace SsaGraph

/-! ## Questions -/

namespace Value

variable {v : Value}

/-- The questions that fit the kind of the value have an answer. -/
structure Answers (v : Value) : Prop where
  trueTarget : v.kind = .branch → ∃ b, v.trueTarget = .ok b
  falseTarget : v.kind = .branch → v.operands.length = 3 → ∃ b, v.falseTarget = .ok b
  call : v.kind = .call → ∃ f args, v.operands = f :: args ∧ v.callee = .ok f ∧ v.args = .ok args
  incomings : v.kind = .phi →
    ∃ pairs, v.incomings = .ok pairs ∧ pairs.flatMap (fun p => [p.1, p.2]) = v.operands

theorem flatMap_pairUp {l : List ValueId} (even : l.length % 2 = 0) :
    (pairUp l).flatMap (fun p => [p.1, p.2]) = l := by
  fun_induction pairUp l with
  | case1 value block rest ih =>
    have shorter : rest.length % 2 = 0 := by
      simp only [List.length_cons] at even
      omega
    simp [ih shorter]
  | case2 l single =>
    match l with
    | [] => rfl
    | [value] => simp at even
    | value :: block :: rest => exact absurd rfl (single value block rest)

theorem incomings_eq (phi : v.kind = .phi) : v.incomings = .ok (pairUp v.operands) := by
  simp only [incomings, bind_eq_ok, require_eq_ok]
  exact ⟨(), phi, rfl⟩

theorem answers (arity : v.kind.Arity v.operands.length) : v.Answers where
  trueTarget branch := by
    rw [branch] at arity
    simp only [trueTarget_eq_ok, branch, true_and]
    rcases arity with one | three
    · obtain ⟨t, ht⟩ := List.length_eq_one_iff.1 one
      exact ⟨t, by simp [ht]⟩
    · obtain ⟨c, t, f, hf⟩ := List.length_eq_three.1 three
      exact ⟨t, by simp [hf]⟩
  falseTarget branch three := by
    obtain ⟨c, t, f, hf⟩ := List.length_eq_three.1 three
    exact ⟨f, falseTarget_eq_ok.2 ⟨branch, three, by simp [hf]⟩⟩
  call kind := by
    rw [kind] at arity
    obtain ⟨f, args, split⟩ := List.exists_cons_of_length_pos arity
    refine ⟨f, args, split, ?_, ?_⟩
    · simp only [callee, bind_eq_ok, require_eq_ok, operand_eq_ok]
      exact ⟨(), kind, by rw [split]; rfl⟩
    · simp only [Value.args, bind_eq_ok, require_eq_ok]
      exact ⟨(), kind, by rw [split]; rfl⟩
  incomings phi := by
    rw [phi] at arity
    exact ⟨pairUp v.operands, incomings_eq phi, flatMap_pairUp arity⟩

end Value

/-! ## Well-made values -/

namespace Graph

variable {g g' : Graph} {v e : Value} {x : ValueId}

/-- The type, the callee and the incoming blocks are as the kind wants them. -/
structure WellMade (g : Graph) (v : Value) : Prop where
  result : ∀ t, v.kind.result? = some t → v.ty = t
  callee : v.kind = .call → ∀ f, v.operands[0]? = some f → f ∈ g.functions
  incoming : v.kind = .phi → ∀ i b, i % 2 = 1 → v.operands[i]? = some b → b ∈ g.blocks

theorem WellMade.of_bare (h : g.WellMade v) (bare : e.bare = v.bare) : g.WellMade e := by
  obtain ⟨ty, kind, operands⟩ := Value.bare_inj.1 bare
  refine ⟨?_, ?_, ?_⟩
  · rw [ty, kind]
    exact h.result
  · rw [kind, operands]
    exact h.callee
  · rw [kind, operands]
    exact h.incoming

theorem WellMade.extends (h : g.WellMade v) (more : g.Extends g') : g'.WellMade v where
  result := h.result
  callee call f held := more.functions f (h.callee call f held)
  incoming phi i b odd held := more.blocks b (h.incoming phi i b odd held)

theorem Made.wellMade (h : g.Made v) : g.WellMade v where
  result t fixed := by
    obtain ⟨tys, -, typed⟩ := h.checked
    exact typed.result fixed
  callee := h.callee
  incoming phi i b odd held := by
    rw [h.noPairs phi] at held
    cases held

/-- A value of a kind that is neither called nor joined has only its type to fit. -/
theorem wellMade_of_kind (result : ∀ t, v.kind.result? = some t → v.ty = t) (noCall : v.kind ≠ .call)
    (noPhi : v.kind ≠ .phi) : g.WellMade v :=
  ⟨result, fun h => absurd h noCall, fun h => absurd h noPhi⟩

/-- A write keeps a value well made: the slot was asked whether it accepts the operand. -/
theorem WellMade.write {user old new : ValueId} {index : Nat} (h : g.WellMade v)
    (slot : g.Writable user v index old new) : g.WellMade (v.setOperand index new) where
  result := h.result
  callee call f held := by
    simp only [Value.setOperand, List.getElem?_set] at held
    split at held
    · rename_i first
      split at held
      · cases held
        refine slot.accepts.function ?_
        simp [Value.isCalleeSlot, first, show v.kind = .call from call]
      · cases held
    · exact h.callee call f held
  incoming phi i b odd held := by
    simp only [Value.setOperand, List.getElem?_set] at held
    split at held
    · rename_i here
      split at held
      · cases held
        refine slot.accepts.block ?_
        simp [Value.isBlockSlot, here, odd, show v.kind = .phi from phi]
      · cases held
    · exact h.incoming phi i b odd held

/-- A new pair puts its block into an odd slot, since a phi has an even number of operands. -/
theorem WellMade.extend {value : ValueId} {block : BlockId} (h : g.WellMade v) (kind : v.kind = .phi)
    (arity : v.kind.Arity v.operands.length) (live : block ∈ g.blocks) :
    g.WellMade ((v.pushOperand value).pushOperand block) where
  result := h.result
  callee call := by
    have phi : ((v.pushOperand value).pushOperand block).kind = .phi := kind
    rw [phi] at call
    cases call
  incoming _ i b odd held := by
    rw [kind] at arity
    simp only [Value.pushOperand, List.append_assoc, List.singleton_append] at held
    rcases getElem?_append_pair arity held with old | ⟨even, -⟩ | ⟨-, last⟩
    · exact h.incoming kind i b odd old
    · omega
    · exact last ▸ live

end Graph

/-! ## Every run -/

namespace Workspace

variable {w w' : Workspace}

theorem Built.wellMade (h : w.Built) : w.All w.graph.WellMade := by
  refine Built.invariant (P := fun w => w.All w.graph.WellMade) (fun name => .start name _)
    (fun {w w'} built ⟨made, kept⟩ step => ?_) h
  have more := step.extends built.numbered
  refine ⟨fun x e he => Graph.WellMade.extends ?_ more, fun v e he => Graph.WellMade.extends ?_ more⟩
  · cases step.origin built.numbered he with
    | kept entry bare => exact (made x _ entry).of_bare bare
    | written allowed slot bare => exact ((made x _ slot.entry).write slot).of_bare bare
    | extended entry kind blockLive ty bare =>
      exact ((made x _ entry).extend kind (built.shaped x _ entry) blockLive).of_bare bare
    | drafted new drafted live bare =>
      exact (Draft.value_made built.catalogued drafted live).wellMade.of_bare bare
    | block new kind ty =>
      exact Graph.wellMade_of_kind (by simp [kind, ty, Kind.result?]) (by simp [kind]) (by simp [kind])
    | function new kind | param new kind | global new kind =>
      exact Graph.wellMade_of_kind (by simp [kind, Kind.result?]) (by simp [kind]) (by simp [kind])
    | restored new found live bare => exact (kept _ _ found).of_bare bare
  · rcases step.removed_origin he with he | he
    · exact kept v e he
    · exact made v e he

/-- The number, the place and the kind of the operands of value `x`, and its type. -/
structure Shape (w : Workspace) (x : ValueId) (e : Value) : Prop where
  arity : e.kind.Arity e.operands.length
  result : ∀ t, e.kind.result? = some t → e.ty = t
  callee : e.kind = .call → ∀ f, e.operands[0]? = some f → f ∈ w.graph.functions
  incoming : e.kind = .phi → ∀ i b, i % 2 = 1 → e.operands[i]? = some b → b ∈ w.graph.blocks
  targets : e.kind = .branch → ∀ b, e.parent = some b → ∀ t, e.HasTarget t → t ∈ w.graph.blocks
  function : e.kind = .function → ∃ func, w.graph.functions[x]? = some func ∧ e.ty = func.ty

/-- After every run each value has the shape of its kind, so that the questions for the kind find the
slots they look at, and the tables of blocks and functions have exactly the values of these kinds. -/
theorem values_shaped (h : w.Reachable) :
    (∀ (x : ValueId) (e : Value), w.graph.values[x]? = some e → w.Shape x e ∧ e.Answers) ∧
    (∀ x, x ∈ w.graph.blocks ↔ w.graph.kindOf x = some .block) ∧
    ∀ x, x ∈ w.graph.functions ↔ w.graph.kindOf x = some .function := by
  have built := h.built
  have cat := built.catalogued
  refine ⟨fun x e he => ?_, cat.block, cat.function⟩
  have arity := built.shaped x e he
  obtain ⟨result, callee, incoming⟩ := built.wellMade.1 x e he
  refine ⟨⟨arity, result, callee, incoming, ?_, ?_⟩, Value.answers arity⟩
  · exact fun _ b attached t target => built.wellFormed.target_live he attached target
  · intro kind
    have listed : x ∈ w.graph.functions := (cat.function x).2 (Graph.kindOf_eq_some.2 ⟨e, he, kind⟩)
    obtain ⟨func, hf⟩ := Table.getElem?_of_mem listed
    obtain ⟨e', he', ty⟩ := Graph.tyOf_eq_some.1 (cat.ty x func hf)
    rw [he] at he'
    cases he'
    exact ⟨func, hf, ty⟩

/-- The phi of the loop has two pairs, one of them with the phi itself, and the branch into the loop has
one block as both targets. -/
theorem values_shaped_loop : loop.Reachable ∧
    (∃ phi, loop.graph.values[7]? = some phi ∧ phi.operands = [4, 2, 7, 3] ∧ loop.Shape 7 phi ∧
      phi.Answers) ∧
    ∃ branch, loop.graph.values[6]? = some branch ∧ branch.parent = some 2 ∧
      branch.operands = [5, 3, 3] ∧ loop.Shape 6 branch ∧ branch.Answers := by
  have phi : (loop.graph.values[7]?).map Value.operands = some [4, 2, 7, 3] := by decide +kernel
  have branch : (loop.graph.values[6]?).map (fun v => (v.parent, v.operands)) =
      some (some 2, [5, 3, 3]) := by decide +kernel
  obtain ⟨p, hp, pairs⟩ := Option.map_eq_some_iff.1 phi
  obtain ⟨b, hb, both⟩ := Option.map_eq_some_iff.1 branch
  obtain ⟨parent, operands⟩ := Prod.mk.inj both
  have all := (values_shaped reachable_loop).1
  exact ⟨reachable_loop, ⟨p, hp, pairs, all 7 p hp⟩, b, hb, parent, operands, all 6 b hb⟩

end Workspace

end SsaGraph
