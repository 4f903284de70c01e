import SsaGraph.Graph.Lookup
import SsaGraph.Proofs.Runs

/-!
# Uses and operands

A slot that holds a value and the entry of the slot in the use set of the value are two records of
one fact. `Graph.slot` reads the first and `Graph.usesOf` the second, and `Graph.UseDef` says that they
agree. Each change of a graph is described by what it does to both.

Results:
* `Built.useDef`: the two records agree in every built workspace;
* `uses_iff_operand`: they agree after every run, and so every operand of every value is live.
-/
namespace SsaGraph

namespace Graph

variable {g g' : Graph} {u : Use} {v : ValueId}

/-- What the slot holds; nothing if there is no such slot. -/
def slot (g : Graph) (u : Use) : Option ValueId :=
  g.values[u.user]?.bind fun e => e.operands[u.index]?

/-- The use set of the value, empty if there is no such value. -/
def usesOf (g : Graph) (v : ValueId) : UseSet := (g.values[v]?.map Value.uses).getD ∅

def UseDef (g : Graph) : Prop := ∀ v u, u ∈ g.usesOf v ↔ g.slot u = some v

theorem slot_eq_some : g.slot u = some v ↔
    ∃ e, g.values[u.user]? = some e ∧ e.operands[u.index]? = some v :=
  Option.bind_eq_some_iff

theorem mem_usesOf : u ∈ g.usesOf v ↔ ∃ e, g.values[v]? = some e ∧ u ∈ e.uses := by
  unfold usesOf
  cases g.values[v]? <;> simp

theorem live_of_mem_usesOf (h : u ∈ g.usesOf v) : v ∈ g.values := by
  obtain ⟨e, he, -⟩ := mem_usesOf.1 h
  exact Table.mem_of_getElem? he

theorem live_of_slot (h : g.slot u = some v) : u.user ∈ g.values := by
  obtain ⟨e, he, -⟩ := slot_eq_some.1 h
  exact Table.mem_of_getElem? he

/-- What a slot holds is live. -/
theorem UseDef.live (h : g.UseDef) (held : g.slot u = some v) : v ∈ g.values :=
  live_of_mem_usesOf ((h v u).2 held)

theorem UseDef.operands_live (h : g.UseDef) {e : Value} (entry : g.values[v]? = some e) :
    ∀ op ∈ e.operands, op ∈ g.values := by
  intro op hop
  obtain ⟨i, hi⟩ := List.mem_iff_getElem?.1 hop
  exact h.live (u := ⟨v, i⟩) (slot_eq_some.2 ⟨e, entry, hi⟩)

theorem UseDef.isEmpty_iff (h : g.UseDef) {e : Value} (entry : g.values[v]? = some e) :
    e.uses.isEmpty = true ↔ ¬∃ u, g.slot u = some v := by
  have uses : g.usesOf v = e.uses := by
    rw [usesOf, entry]
    rfl
  refine ⟨fun empty ⟨u, held⟩ => ?_, fun none => ?_⟩
  · rw [← h, uses, Std.ExtTreeSet.isEmpty_iff.1 empty] at held
    simp at held
  · rw [Std.ExtTreeSet.isEmpty_iff]
    refine Std.ExtTreeSet.ext_mem fun u => ?_
    rw [← uses, h]
    exact iff_of_false (fun held => none ⟨u, held⟩) (by simp)

/-! ## Changes that touch neither -/

theorem slot_mapValues {f : ValueId → Value → Value} (same : ∀ x e, (f x e).operands = e.operands)
    (u : Use) : (g.mapValues f).slot u = g.slot u := by
  simp only [slot, getElem?_mapValues]
  cases g.values[u.user]? with
  | none => rfl
  | some e => simp [same]

theorem usesOf_mapValues {f : ValueId → Value → Value} (same : ∀ x e, (f x e).uses = e.uses)
    (v : ValueId) : (g.mapValues f).usesOf v = g.usesOf v := by
  simp only [usesOf, getElem?_mapValues]
  cases g.values[v]? with
  | none => rfl
  | some e => simp [same]

theorem UseDef.mapValues (h : g.UseDef) {f : ValueId → Value → Value}
    (operands : ∀ x e, (f x e).operands = e.operands) (uses : ∀ x e, (f x e).uses = e.uses) :
    (g.mapValues f).UseDef := by
  intro v u
  rw [usesOf_mapValues uses, slot_mapValues operands]
  exact h v u

theorem Grown.slot (h : g.Grown g') (u : Use) : g'.slot u = g.slot u := by
  by_cases hu : u.user ∈ g.values
  · rw [Graph.slot, h.old _ hu]
    rfl
  · have before : g.values[u.user]? = none := by simpa using hu
    rw [Graph.slot, Graph.slot, before]
    cases he : g'.values[u.user]? with
    | none => rfl
    | some e => simp [(h.new _ e hu he).2.1]

theorem Grown.usesOf (h : g.Grown g') (v : ValueId) : g'.usesOf v = g.usesOf v := by
  by_cases hv : v ∈ g.values
  · rw [Graph.usesOf, h.old v hv]
    rfl
  · have before : g.values[v]? = none := by simpa using hv
    rw [Graph.usesOf, Graph.usesOf, before]
    cases he : g'.values[v]? with
    | none => rfl
    | some e => simp [(h.new v e hv he).1.uses]

theorem UseDef.grown (h : g.UseDef) (grown : g.Grown g') : g'.UseDef := by
  intro v u
  rw [grown.usesOf, grown.slot]
  exact h v u

/-! ## New and removed values -/

theorem slot_entered (e : Value) (u : Use) :
    (g.entered e).slot u = if u.user = g.next then e.operands[u.index]? else g.slot u := by
  split
  · rename_i hu
    simp [slot, hu, getElem?_entered_self]
  · rename_i hu
    simp only [slot, getElem?_entered_of_ne hu]
    cases g.values[u.user]? <;> rfl

theorem mem_usesOf_entered {e : Value} (hv : v ≠ g.next) : u ∈ (g.entered e).usesOf v ↔
    u ∈ g.usesOf v ∨ v ∈ g.values ∧ u.user = g.next ∧ e.operands[u.index]? = some v := by
  simp only [usesOf, getElem?_entered_of_ne hv]
  cases hg : g.values[v]? with
  | none =>
    have dead : v ∉ g.values := by simpa using hg
    simp [dead]
  | some e' => simp [Table.mem_of_getElem? hg]

theorem UseDef.entered (h : g.UseDef) (num : g.Numbered) {e : Value} (unused : e.uses = ∅)
    (live : ∀ op ∈ e.operands, op ∈ g.values) : (g.entered e).UseDef := by
  intro v u
  rw [slot_entered]
  have dead : g.slot u = some v → u.user ≠ g.next := fun hs hu =>
    num.next_not_mem (hu ▸ live_of_slot hs)
  by_cases hv : v = g.next
  · -- the new value has no uses, and no slot can hold it yet
    have empty : u ∉ (g.entered e).usesOf v := by
      rw [hv, usesOf, getElem?_entered_self]
      simp [unused]
    refine ⟨fun hu => absurd hu empty, fun hs => ?_⟩
    split at hs
    · exact absurd (hv ▸ live v (List.mem_of_getElem? hs)) num.next_not_mem
    · exact absurd (hv ▸ h.live hs) num.next_not_mem
  · rw [mem_usesOf_entered hv, h v u]
    split
    · rename_i hu
      refine ⟨fun hs => ?_, fun hs => .inr ⟨live v (List.mem_of_getElem? hs), hu, hs⟩⟩
      rcases hs with hs | ⟨-, -, hs⟩
      · exact absurd hu (dead hs)
      · exact hs
    · rename_i hu
      simp [hu]

theorem slot_without (operands : List ValueId) (u : Use) :
    (g.without v operands).slot u = if u.user = v then none else g.slot u := by
  split
  · rename_i hu
    simp [slot, hu, getElem?_without_self]
  · rename_i hu
    simp only [slot, getElem?_without_of_ne hu]
    cases g.values[u.user]? <;> rfl

theorem mem_usesOf_without {operands : List ValueId} {x : ValueId} (hx : x ≠ v) :
    u ∈ (g.without v operands).usesOf x ↔
      u ∈ g.usesOf x ∧ ¬(u.user = v ∧ operands[u.index]? = some x) := by
  simp only [usesOf, getElem?_without_of_ne hx]
  cases g.values[x]? with
  | none => simp
  | some e => simp

theorem UseDef.without (h : g.UseDef) {entry : Value} (found : g.values[v]? = some entry)
    (unused : entry.uses = ∅) : (g.without v entry.operands).UseDef := by
  intro x u
  rw [slot_without]
  have own : g.slot u = some v → False := fun hs => by
    have hu := (h v u).2 hs
    rw [usesOf, found] at hu
    simp [unused] at hu
  by_cases hx : x = v
  · rw [usesOf, hx, getElem?_without_self]
    split
    · simp
    · simpa using own
  · rw [mem_usesOf_without hx, h x u]
    split
    · rename_i hu
      have held : g.slot u = entry.operands[u.index]? := by simp [slot, hu, found]
      simp [hu, held]
    · rename_i hu
      simp [hu]

/-! ## Slots -/

theorem Writable.slot {user old new : ValueId} {index : Nat} {e : Value}
    (w : g.Writable user e index old new) : g.slot ⟨user, index⟩ = some old :=
  slot_eq_some.2 ⟨e, w.entry, w.held⟩

theorem slot_rewired {old : ValueId} {u : Use} (held : g.slot u = some old) (new : ValueId) (s : Use) :
    (g.rewired u old new).slot s = if s = u then some new else g.slot s := by
  obtain ⟨e, he, ho⟩ := slot_eq_some.1 held
  have range := (List.getElem?_eq_some_iff.1 ho).1
  obtain ⟨user, index⟩ := u
  obtain ⟨x, i⟩ := s
  simp only [slot, rewired, getElem?_mapValues, Use.mk.injEq]
  by_cases hx : x = user
  · subst hx
    rw [he]
    by_cases hi : i = index
    · subst hi
      simp [Value.rewired, range]
    · simp [Value.rewired, hi, Ne.symm hi]
  · cases g.values[x]? <;> simp [Value.rewired, hx]

theorem mem_usesOf_rewired {old new : ValueId} (ne : old ≠ new) (live : new ∈ g.values) {s : Use} :
    s ∈ (g.rewired u old new).usesOf v ↔
      if s = u then v = new ∨ v ≠ old ∧ s ∈ g.usesOf v else s ∈ g.usesOf v := by
  simp only [usesOf, rewired, getElem?_mapValues]
  cases he : g.values[v]? with
  | none =>
    have dead : v ≠ new := by
      intro hv
      rw [hv] at he
      simp_all
    simp [dead]
  | some e =>
    simp only [Option.map_some, Option.getD_some, Value.rewired]
    by_cases hn : v = new
    · simp only [hn, if_true, Std.ExtTreeSet.mem_insert, Std.LawfulEqCmp.compare_eq_iff_eq, ne_eq]
      split <;> simp_all [eq_comm]
    · by_cases ho : v = old
      · simp only [ho, ne, if_true, if_false, Std.ExtTreeSet.mem_erase, ne_eq,
          Std.LawfulEqCmp.compare_eq_iff_eq]
        split <;> simp_all [eq_comm]
      · simp [hn, ho]

theorem UseDef.rewired (h : g.UseDef) {user old new : ValueId} {index : Nat} {e : Value}
    (w : g.Writable user e index old new) : (g.rewired ⟨user, index⟩ old new).UseDef := by
  have held := w.slot
  intro v s
  rw [slot_rewired held, mem_usesOf_rewired w.ne w.newLive]
  split
  · rename_i hs
    rw [h v s, hs, held]
    simp only [Option.some.injEq]
    refine ⟨fun hv => ?_, fun hv => ?_⟩
    · rcases hv with rfl | ⟨hne, hv⟩
      · rfl
      · exact absurd hv.symm hne
    · exact .inl hv.symm
  · exact h v s

theorem slot_extended {user operand : ValueId} {e : Value} (he : g.values[user]? = some e) (s : Use) :
    (g.extended user e.operands.length operand).slot s =
      if s = ⟨user, e.operands.length⟩ then some operand else g.slot s := by
  obtain ⟨x, i⟩ := s
  simp only [slot, extended, getElem?_mapValues, Use.mk.injEq]
  by_cases hx : x = user
  · subst hx
    rw [he]
    simp only [Option.map_some, Option.bind_some, Value.extended, if_true, true_and]
    rw [List.getElem?_append]
    split
    · rename_i hi
      rw [if_neg (by omega)]
    · rename_i hi
      split
      · simp_all
      · rw [List.getElem?_eq_none (by simp; omega), List.getElem?_eq_none (by omega)]
  · cases g.values[x]? <;> simp [Value.extended, hx]

theorem mem_usesOf_extended {user operand : ValueId} {len : Nat} (live : operand ∈ g.values) :
    u ∈ (g.extended user len operand).usesOf v ↔ u = ⟨user, len⟩ ∧ v = operand ∨ u ∈ g.usesOf v := by
  simp only [usesOf, extended, getElem?_mapValues]
  cases he : g.values[v]? with
  | none =>
    have dead : v ≠ operand := by
      intro hv
      rw [hv] at he
      simp_all
    simp [dead]
  | some e =>
    simp only [Option.map_some, Option.getD_some, Value.extended]
    by_cases hv : v = operand
    · simp only [hv, if_true, Std.ExtTreeSet.mem_insert, Std.LawfulEqCmp.compare_eq_iff_eq, and_true]
      rw [eq_comm]
    · simp [hv]

theorem UseDef.extended (h : g.UseDef) {user operand : ValueId} {e : Value}
    (he : g.values[user]? = some e) (live : operand ∈ g.values) :
    (g.extended user e.operands.length operand).UseDef := by
  intro v u
  rw [mem_usesOf_extended live, slot_extended he, h v u]
  have fresh : g.slot ⟨user, e.operands.length⟩ = none := by simp [slot, he]
  split
  · rename_i hu
    rw [hu, fresh]
    simp [eq_comm]
  · rename_i hu
    simp [hu]

/-! ## One change -/

theorem UseDef.change (h : g.UseDef) (num : g.Numbered) (change : g.Change g') : g'.UseDef := by
  cases change with
  | enter drafted live => exact h.entered num (Draft.value_plain drafted).uses live
  | rename =>
    refine h.mapValues (fun x e => ?_) (fun x e => ?_)
    · split <;> rfl
    · split <;> rfl
  | rewire w => exact h.rewired w
  | retarget w => exact h.rewired w
  | @incoming phi value block p entry kind live blockLive =>
    have first := h.extended entry live
    have second := first.extended (getElem?_extended_self entry _ value) ((mem_mapValues _ block).2 blockLive.2)
    rw [Value.length_extended_self] at second
    exact second
  | place => exact h.mapValues (fun _ _ => rfl) fun _ _ => rfl
  | displace => exact h.mapValues (fun _ _ => rfl) fun _ _ => rfl
  | @block v f func idle kind found defined =>
    have none := idle.operands_eq_nil (.inl kind)
    exact h.entered num idle.uses (by simp [none])

end Graph

/-! ## Every run -/

namespace Workspace

variable {w : Workspace}

theorem Built.useDef (h : w.Built) : w.graph.UseDef := by
  refine Built.invariant (P := fun w => w.graph.UseDef) (fun name => ?_)
    (fun {w w'} built useDef step => ?_) h
  · intro v u
    simp [Graph.usesOf, Graph.slot, start, graph]
  · cases step with
    | graph change => exact useDef.change built.numbered change
    | function idle kind ty plain =>
      exact useDef.grown (grown_withFunction built.numbered idle kind plain _)
    | global plain kind live => exact useDef.entered built.numbered plain.uses live
    | restore found live => exact useDef.entered built.numbered (built.stored _ _ found).uses live
    | discard found unused => exact useDef.without found unused

/-- After every run, a slot is in the use set of a live value exactly when it is a slot of a live value
and holds that value. So what the slots hold is live. -/
theorem uses_iff_operand (h : w.Reachable) :
    (∀ (v u : ValueId) (i : Nat),
      (∃ e, w.graph.values[v]? = some e ∧ ⟨u, i⟩ ∈ e.uses) ↔
        ∃ e, w.graph.values[u]? = some e ∧ i < e.operands.length ∧ w.graph.operand u i = .ok v) ∧
    ∀ (u : ValueId) (e : Value), w.graph.values[u]? = some e →
      ∀ op ∈ e.operands, op ∈ w.graph.values := by
  have useDef := h.built.useDef
  refine ⟨fun v u i => ?_, fun u e he op hop => ?_⟩
  · rw [← Graph.mem_usesOf, useDef v ⟨u, i⟩, Graph.slot_eq_some]
    refine exists_congr fun e => and_congr_right fun he => ?_
    have read : w.graph.operand u i = .ok v ↔ e.operands[i]? = some v := by
      simp [Graph.operand, bind_eq_ok, Graph.value_eq_ok, he, Value.operand_eq_ok]
    rw [read]
    exact ⟨fun ho => ⟨(List.getElem?_eq_some_iff.1 ho).1, ho⟩, fun ho => ho.2⟩
  · obtain ⟨i, hi⟩ := List.mem_iff_getElem?.1 hop
    exact useDef.live (u := ⟨u, i⟩) (Graph.slot_eq_some.2 ⟨e, he, hi⟩)

/-- The phi of the loop is in its own use set, with the slot that holds it. -/
theorem uses_iff_operand_loop :
    loop.Reachable ∧ (∃ e, loop.graph.values[7]? = some e ∧ ⟨7, 2⟩ ∈ e.uses) ∧
      ∃ e, loop.graph.values[7]? = some e ∧ 2 < e.operands.length ∧ loop.graph.operand 7 2 = .ok 7 := by
  have recorded : ∃ e, loop.graph.values[7]? = some e ∧ ⟨7, 2⟩ ∈ e.uses := by
    have any : (loop.graph.values[7]?.any fun e => ⟨7, 2⟩ ∈ e.uses) = true := by decide +kernel
    simpa [Option.any_eq_true] using any
  exact ⟨reachable_loop, recorded, ((uses_iff_operand reachable_loop).1 7 7 2).1 recorded⟩

end Workspace

end SsaGraph
