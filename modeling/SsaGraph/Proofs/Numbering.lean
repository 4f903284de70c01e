import SsaGraph.Proofs.Changes

/-!
# Handles, arities and removed entries

Three facts about every built workspace that the larger invariants rest on:

* `Built.numbered`: every handle in a table is below the next one, so a new value takes no place;
* `Built.shaped`: every value has as many operands as its kind allows;
* `Built.stored`: every removed entry is detached and unused, and no block or function.
-/
namespace SsaGraph

/-! ## Values outside a graph -/

theorem Value.plain_of {ty : Ty} {kind : Kind} {operands : List ValueId}
    (arity : kind.Arity operands.length) (noBlock : kind ≠ .block) (noFunction : kind ≠ .function) :
    ({ ty, kind, operands } : Value).Plain :=
  ⟨⟨arity, rfl, rfl⟩, noBlock, noFunction⟩

/-- Blocks and functions have no operands. -/
theorem Value.Idle.operands_eq_nil {v : Value} (idle : v.Idle)
    (kind : v.kind = .block ∨ v.kind = .function) : v.operands = [] := by
  have arity := idle.arity
  rcases kind with kind | kind
  · rw [kind] at arity
    exact List.length_eq_zero_iff.1 arity
  · rw [kind] at arity
    exact List.length_eq_zero_iff.1 arity

theorem Draft.value_plain {g : Graph} {draft : Draft} {v : Value} (h : draft.value g = .ok v) :
    v.Plain := by
  cases draft with
  | call callee args =>
    simp only [Draft.value, bind_eq_ok] at h
    obtain ⟨func, -, h⟩ := h
    split at h
    · simp only [bind_eq_ok, pure_eq_ok] at h
      obtain ⟨-, -, rfl⟩ := h
      exact Value.plain_of (by simp [Kind.Arity]) (by simp) (by simp)
    · cases h
  | ret value =>
    cases value <;> simp only [Draft.value, bind_eq_ok, pure_eq_ok] at h
    · subst h
      exact Value.plain_of (by simp [Kind.Arity]) (by simp) (by simp)
    · obtain ⟨-, -, -, -, rfl⟩ := h
      exact Value.plain_of (by simp [Kind.Arity]) (by simp) (by simp)
  | integer | jump =>
    simp only [Draft.value, pure_eq_ok] at h
    subst h
    exact Value.plain_of (by simp [Kind.Arity]) (by simp) (by simp)
  | integerOf | undef | alloca | phi | binary | compare | elemPtr =>
    simp only [Draft.value, bind_eq_ok, pure_eq_ok] at h
    obtain ⟨_, -, rfl⟩ := h
    exact Value.plain_of (by simp [Kind.Arity]) (by simp) (by simp)
  | branch | store | load =>
    simp only [Draft.value, bind_eq_ok, pure_eq_ok] at h
    obtain ⟨_, -, _, -, rfl⟩ := h
    exact Value.plain_of (by simp [Kind.Arity]) (by simp) (by simp)
  | zext =>
    simp only [Draft.value, bind_eq_ok, pure_eq_ok] at h
    obtain ⟨_, -, _, -, _, -, rfl⟩ := h
    exact Value.plain_of (by simp [Kind.Arity]) (by simp) (by simp)

namespace Graph

variable {g g' : Graph}

/-- The tables have no handle that was not given out. -/
structure Numbered (g : Graph) : Prop where
  values : ∀ x ∈ g.values, x < g.next
  blocks : ∀ x ∈ g.blocks, x < g.next
  functions : ∀ x ∈ g.functions, x < g.next

def Shaped (g : Graph) : Prop :=
  ∀ (x : ValueId) (e : Value), g.values[x]? = some e → e.kind.Arity e.operands.length

theorem Numbered.next_not_mem (h : g.Numbered) : g.next ∉ g.values := fun m =>
  Nat.lt_irrefl _ (h.values _ m)

theorem Numbered.values_next (h : g.Numbered) : g.values[g.next]? = none := by
  simpa using h.next_not_mem

theorem Numbered.blocks_next (h : g.Numbered) : g.blocks[g.next]? = none := by
  have new : g.next ∉ g.blocks := fun m => Nat.lt_irrefl _ (h.blocks _ m)
  simpa using new

theorem Numbered.functions_next (h : g.Numbered) : g.functions[g.next]? = none := by
  have new : g.next ∉ g.functions := fun m => Nat.lt_irrefl _ (h.functions _ m)
  simpa using new

theorem getElem?_entered_self (v : Value) : (g.entered v).values[g.next]? = some v := by
  simp [entered]

theorem getElem?_entered_of_ne {v : Value} {x : ValueId} (hx : x ≠ g.next) :
    (g.entered v).values[x]? =
      g.values[x]?.map fun e => { e with uses := e.uses ∪ slotsOf g.next v.operands x } := by
  have hc : ¬compare g.next x = .eq := by simpa using hx.symm
  simp [entered, Std.ExtTreeMap.getElem?_insert, hc]

theorem mem_entered {v : Value} {x : ValueId} : x ∈ (g.entered v).values ↔ x = g.next ∨ x ∈ g.values := by
  simp only [entered, Std.ExtTreeMap.mem_insert, Std.ExtTreeMap.mem_map,
    Std.LawfulEqCmp.compare_eq_iff_eq]
  rw [eq_comm]

theorem getElem?_without_of_ne {v x : ValueId} {operands : List ValueId} (hx : x ≠ v) :
    (g.without v operands).values[x]? =
      g.values[x]?.map fun e => { e with uses := e.uses \ slotsOf v operands x } := by
  have hc : ¬compare v x = .eq := by simpa using hx.symm
  simp [without, Std.ExtTreeMap.getElem?_erase, hc]

theorem getElem?_without_self (v : ValueId) (operands : List ValueId) :
    (g.without v operands).values[v]? = none := by
  simp [without]

/-! ## Growth -/

/-- Nothing changes but that idle values without operands are new. -/
structure Grown (g g' : Graph) : Prop where
  old : ∀ x ∈ g.values, g'.values[x]? = g.values[x]?
  new : ∀ x e, x ∉ g.values → g'.values[x]? = some e →
    e.Idle ∧ e.operands = [] ∧ g.next ≤ x ∧ x < g'.next
  blocks : g'.blocks = g.blocks
  functions : ∀ x ∈ g'.functions, x ∈ g.functions ∨ x < g'.next
  next : g.next ≤ g'.next

theorem Grown.trans {g'' : Graph} (h : g.Grown g') (h' : g'.Grown g'') : g.Grown g'' where
  old x hx := by
    have mem : x ∈ g'.values := by
      obtain ⟨e, he⟩ := Table.getElem?_of_mem hx
      exact Table.mem_of_getElem? ((h.old x hx).trans he)
    rw [h'.old x mem, h.old x hx]
  new x e hx he := by
    by_cases hm : x ∈ g'.values
    · rw [h'.old x hm] at he
      obtain ⟨idle, none, low, high⟩ := h.new x e hx he
      exact ⟨idle, none, low, Nat.lt_of_lt_of_le high h'.next⟩
    · obtain ⟨idle, none, low, high⟩ := h'.new x e hm he
      exact ⟨idle, none, Nat.le_trans h.next low, high⟩
  blocks := h'.blocks.trans h.blocks
  functions x hx := by
    rcases h'.functions x hx with hx | hx
    · exact (h.functions x hx).imp_right fun hx => Nat.lt_of_lt_of_le hx h'.next
    · exact .inr hx
  next := Nat.le_trans h.next h'.next

theorem Grown.numbered (h : g.Grown g') (num : g.Numbered) : g'.Numbered where
  values x hx := by
    obtain ⟨e, he⟩ := Table.getElem?_of_mem hx
    by_cases hm : x ∈ g.values
    · exact Nat.lt_of_lt_of_le (num.values x hm) h.next
    · exact (h.new x e hm he).2.2.2
  blocks x hx := Nat.lt_of_lt_of_le (num.blocks x (h.blocks ▸ hx)) h.next
  functions x hx := by
    rcases h.functions x hx with hx | hx
    · exact Nat.lt_of_lt_of_le (num.functions x hx) h.next
    · exact hx

theorem slotsOf_nil (user x : ValueId) (uses : UseSet) : uses ∪ slotsOf user [] x = uses :=
  Std.ExtTreeSet.ext_mem fun u => by simp

theorem grown_entered (num : g.Numbered) {v : Value} (idle : v.Idle) (none : v.operands = []) :
    g.Grown (g.entered v) where
  old x hx := by
    have hne : x ≠ g.next := fun h => num.next_not_mem (h ▸ hx)
    rw [getElem?_entered_of_ne hne, none]
    simp [slotsOf_nil]
  new x e hx he := by
    rcases mem_entered.1 (Table.mem_of_getElem? he) with rfl | hm
    · rw [getElem?_entered_self] at he
      cases he
      exact ⟨idle, none, Nat.le_refl _, Nat.lt_succ_self _⟩
    · exact absurd hm hx
  blocks := rfl
  functions x hx := .inl hx
  next := Nat.le_succ _

theorem Grown.refl (g : Graph) : g.Grown g where
  old _ _ := rfl
  new _ _ hx he := absurd (Table.mem_of_getElem? he) hx
  blocks := rfl
  functions _ hx := .inl hx
  next := Nat.le_refl _

theorem grown_foldl_entered (num : g.Numbered) {vs : List Value}
    (idle : ∀ v ∈ vs, v.Idle ∧ v.operands = []) : g.Grown (vs.foldl entered g) := by
  induction vs generalizing g with
  | nil => exact .refl g
  | cons v vs ih =>
    obtain ⟨hv, none⟩ := idle v (by simp)
    have first := grown_entered num hv none
    exact first.trans (ih (first.numbered num) fun w hw => idle w (List.mem_cons_of_mem v hw))

/-! ## One change -/

theorem Numbered.mapValues (num : g.Numbered) (f : ValueId → Value → Value) :
    (g.mapValues f).Numbered :=
  ⟨fun x hx => num.values x ((mem_mapValues f x).1 hx), num.blocks, num.functions⟩

theorem Numbered.mapBlocks (num : g.Numbered) (f : BlockId → Block → Block) :
    (g.mapBlocks f).Numbered :=
  ⟨num.values, fun x hx => num.blocks x ((mem_mapBlocks f x).1 hx), num.functions⟩

theorem Numbered.entered (num : g.Numbered) (v : Value) : (g.entered v).Numbered where
  values x hx := by
    rcases mem_entered.1 hx with rfl | hx
    · exact Nat.lt_succ_self _
    · exact Nat.lt_succ_of_lt (num.values x hx)
  blocks x hx := Nat.lt_succ_of_lt (num.blocks x hx)
  functions x hx := Nat.lt_succ_of_lt (num.functions x hx)

theorem Numbered.without (num : g.Numbered) (v : ValueId) (operands : List ValueId) :
    (g.without v operands).Numbered := by
  refine ⟨fun x hx => num.values x ?_, num.blocks, num.functions⟩
  simp only [Graph.without, Std.ExtTreeMap.mem_map, Std.ExtTreeMap.mem_erase] at hx
  exact hx.2

theorem Numbered.change (num : g.Numbered) (h : g.Change g') : g'.Numbered := by
  cases h with
  | enter => exact num.entered _
  | rename => exact num.mapValues _
  | rewire => exact num.mapValues _
  | retarget => exact (num.mapValues _).mapBlocks _
  | incoming => exact (num.mapValues _).mapValues _
  | place => exact (num.mapValues _).mapBlocks _
  | displace => exact (num.mapValues _).mapBlocks _
  | block idle kind found defined =>
    obtain ⟨hv, hb, hf⟩ := num.entered _
    refine ⟨hv, fun x hx => ?_, fun x hx => ?_⟩
    · simp only [withBlock, Std.ExtTreeMap.mem_insert, Std.LawfulEqCmp.compare_eq_iff_eq] at hx
      rcases hx with rfl | hx
      · exact Nat.lt_succ_self _
      · exact hb x hx
    · simp only [withBlock, Std.ExtTreeMap.mem_insert, Std.LawfulEqCmp.compare_eq_iff_eq] at hx
      rcases hx with rfl | hx
      · exact hf _ (Table.mem_of_getElem? found)
      · exact hf x hx

theorem Shaped.mapValues (shaped : g.Shaped) {f : ValueId → Value → Value}
    (keep : ∀ x e, g.values[x]? = some e → e.kind.Arity e.operands.length →
      (f x e).kind.Arity (f x e).operands.length) : (g.mapValues f).Shaped := by
  intro x e he
  rw [getElem?_mapValues, Option.map_eq_some_iff] at he
  obtain ⟨e, he, rfl⟩ := he
  exact keep x e he (shaped x e he)

theorem Shaped.entered (shaped : g.Shaped) {v : Value} (idle : v.Idle) : (g.entered v).Shaped := by
  intro x e he
  by_cases hx : x = g.next
  · rw [hx, getElem?_entered_self] at he
    cases he
    exact idle.arity
  · rw [getElem?_entered_of_ne hx, Option.map_eq_some_iff] at he
    obtain ⟨e, he, rfl⟩ := he
    exact shaped x e he

theorem Shaped.rewired (shaped : g.Shaped) (u : Use) (old new : ValueId) :
    (g.rewired u old new).Shaped := by
  refine shaped.mapValues fun x e _ arity => ?_
  have same : (e.rewired u old new x).operands.length = e.operands.length := by
    simp only [Value.rewired]
    split <;> simp
  rw [same]
  exact arity

theorem Shaped.grown (shaped : g.Shaped) (h : g.Grown g') : g'.Shaped := by
  intro x e he
  by_cases hx : x ∈ g.values
  · exact shaped x e ((h.old x hx).symm.trans he)
  · exact (h.new x e hx he).1.arity

theorem Shaped.without (shaped : g.Shaped) (v : ValueId) (operands : List ValueId) :
    (g.without v operands).Shaped := by
  intro x e he
  by_cases hx : x = v
  · rw [hx, getElem?_without_self] at he
    cases he
  · rw [getElem?_without_of_ne hx, Option.map_eq_some_iff] at he
    obtain ⟨e, he, rfl⟩ := he
    exact shaped x e he

theorem Shaped.change (shaped : g.Shaped) (h : g.Change g') : g'.Shaped := by
  cases h with
  | enter drafted => exact shaped.entered (Draft.value_plain drafted).toIdle
  | rename =>
    refine shaped.mapValues fun x e _ arity => ?_
    split
    · exact arity
    · exact arity
  | rewire => exact shaped.rewired _ _ _
  | retarget => exact shaped.rewired _ _ _
  | @incoming phi value block p entry kind live blockLive =>
    rw [extended, extended, mapValues_mapValues]
    refine shaped.mapValues fun x e he arity => ?_
    by_cases hx : x = phi
    · rw [hx, entry] at he
      cases he
      simp only [Value.extended, hx, if_true, kind, Kind.Arity, List.length_append, List.length_singleton]
      rw [kind] at arity
      simp only [Kind.Arity] at arity
      omega
    · simp only [Value.extended, hx, if_false]
      exact arity
  | place => exact shaped.mapValues fun x e _ arity => arity
  | displace => exact shaped.mapValues fun x e _ arity => arity
  | block idle => exact shaped.entered idle

theorem functions_foldl_entered (vs : List Value) : (vs.foldl entered g).functions = g.functions := by
  induction vs generalizing g with
  | nil => rfl
  | cons v vs ih => exact ih

theorem next_foldl_entered (vs : List Value) : (vs.foldl entered g).next = g.next + vs.length := by
  induction vs generalizing g with
  | nil => rfl
  | cons v vs ih =>
    rw [List.foldl_cons, ih]
    exact Nat.add_right_comm g.next 1 vs.length

end Graph

/-! ## Built workspaces -/

namespace Workspace

variable {w : Workspace}

theorem grown_withFunction (num : w.graph.Numbered) {v : Value} (idle : v.Idle)
    (kind : v.kind = .function) {params : List Value} (plain : ∀ p ∈ params, p.Plain ∧ p.operands = [])
    (func : Func) : w.graph.Grown (w.withFunction v params func).graph := by
  have first := Graph.grown_entered num idle (idle.operands_eq_nil (.inr kind))
  have rest := Graph.grown_foldl_entered (first.numbered num)
    (fun p hp => ⟨(plain p hp).1.toIdle, (plain p hp).2⟩)
  have all := first.trans rest
  refine ⟨all.old, all.new, all.blocks, fun x hx => ?_, all.next⟩
  simp only [withFunction, graph, Std.ExtTreeMap.mem_insert, Std.LawfulEqCmp.compare_eq_iff_eq] at hx
  rcases hx with rfl | hx
  · exact .inr (Nat.lt_of_lt_of_le (Nat.lt_succ_self _) rest.next)
  · exact all.functions x hx

theorem functions_withFunction (v : Value) (params : List Value) (func : Func) :
    (w.withFunction v params func).graph.functions = w.graph.functions.insert w.graph.next func := by
  simp only [withFunction, graph, Graph.functions_foldl_entered]
  rfl

theorem Built.numbered (h : w.Built) : w.graph.Numbered := by
  refine Built.invariant (P := fun w => w.graph.Numbered) (fun name => ?_) (fun {w w'} _ num step => ?_) h
  · exact ⟨by simp [start, graph], by simp [start, graph], by simp [start, graph]⟩
  · cases step with
    | graph change => exact num.change change
    | function idle kind ty plain => exact (grown_withFunction num idle kind plain _).numbered num
    | global => exact num.entered _
    | restore => exact num.entered _
    | discard => exact num.without _ _

/-- A fact about entries holds of all removed ones once it holds of the one that was added. -/
theorem forall_removed_insert {P : Value → Prop} {v : ValueId} {entry : Value} {removed : Table Value}
    (old : ∀ (x : ValueId) (e : Value), removed[x]? = some e → P e) (new : P entry) (x : ValueId)
    (e : Value) (he : (removed.insert v entry)[x]? = some e) : P e := by
  rw [Std.ExtTreeMap.getElem?_insert] at he
  split at he
  · cases he
    exact new
  · exact old x e he

theorem forall_removed_erase {P : Value → Prop} {v : ValueId} {removed : Table Value}
    (old : ∀ (x : ValueId) (e : Value), removed[x]? = some e → P e) (x : ValueId) (e : Value)
    (he : (removed.erase v)[x]? = some e) : P e := by
  rw [Std.ExtTreeMap.getElem?_erase] at he
  split at he
  · cases he
  · exact old x e he

/-- Values and removed entries have the right arity together, since each may become the other. -/
theorem Built.shaped_and_stored (h : w.Built) :
    w.graph.Shaped ∧ ∀ (v : ValueId) (e : Value), w.removed[v]? = some e → e.Plain := by
  refine Built.invariant
    (P := fun w => w.graph.Shaped ∧ ∀ (v : ValueId) (e : Value), w.removed[v]? = some e → e.Plain)
    (fun name => ⟨fun x e he => ?_, fun v e he => ?_⟩)
    (fun {w w'} built ⟨shaped, stored⟩ step => ?_) h
  · simp [start, graph] at he
  · simp [start] at he
  · cases step with
    | graph change => exact ⟨shaped.change change, stored⟩
    | function idle kind ty plain =>
      exact ⟨shaped.grown (grown_withFunction built.numbered idle kind plain _), stored⟩
    | global plain => exact ⟨shaped.entered plain.toIdle, stored⟩
    | restore found live =>
      exact ⟨shaped.entered (stored _ _ found).toIdle, forall_removed_erase stored⟩
    | @discard v entry found unused detached noBlock noFunction =>
      have plain : entry.Plain := ⟨⟨shaped v entry found, detached, unused⟩, noBlock, noFunction⟩
      exact ⟨shaped.without v _, forall_removed_insert stored plain⟩

theorem Built.shaped (h : w.Built) : w.graph.Shaped := h.shaped_and_stored.1

theorem Built.stored (h : w.Built) (v : ValueId) (e : Value) (removed : w.removed[v]? = some e) :
    e.Plain :=
  h.shaped_and_stored.2 v e removed

end Workspace

end SsaGraph
