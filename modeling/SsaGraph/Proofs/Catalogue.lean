import SsaGraph.Proofs.Attachment
import SsaGraph.Proofs.Origins

/-!
# The tables of blocks and functions

Blocks and functions have an entry in the table of values and one in a table of their own. Nothing in
the tables themselves ties the two: values of any kind are entered and removed, and operands that name a
block or a function are looked up in the second table only.

Result: `Built.catalogued`, in every built workspace a handle is in the table of blocks exactly when its
value is a block, in the table of functions exactly when its value is a function, and the type of a
function is written the same in both places.
-/
namespace SsaGraph

namespace Graph

variable {g g' : Graph} {v : Value} {x : ValueId}

/-- The tables of blocks and functions have the values of these kinds. -/
structure Catalogued (g : Graph) : Prop where
  block : ∀ x, x ∈ g.blocks ↔ g.kindOf x = some .block
  function : ∀ x, x ∈ g.functions ↔ g.kindOf x = some .function
  ty : ∀ (f : FuncId) (func : Func), g.functions[f]? = some func → g.tyOf f = some func.ty

theorem kindOf_eq_some {k : Kind} : g.kindOf x = some k ↔ ∃ e, g.values[x]? = some e ∧ e.kind = k :=
  Option.map_eq_some_iff

theorem tyOf_eq_some {t : Ty} : g.tyOf x = some t ↔ ∃ e, g.values[x]? = some e ∧ e.ty = t :=
  Option.map_eq_some_iff

theorem Catalogued.live_block (h : g.Catalogued) (hx : x ∈ g.blocks) : x ∈ g.values := by
  obtain ⟨e, he, -⟩ := kindOf_eq_some.1 ((h.block x).1 hx)
  exact Table.mem_of_getElem? he

theorem Catalogued.live_function (h : g.Catalogued) (hx : x ∈ g.functions) : x ∈ g.values := by
  obtain ⟨e, he, -⟩ := kindOf_eq_some.1 ((h.function x).1 hx)
  exact Table.mem_of_getElem? he

/-! ## What is seen of a value apart from its uses -/

section View

variable {α : Type} (view : Value → α) (ignores : ∀ e uses, view { e with uses } = view e)

include ignores

theorem view_entered (v : Value) (x : ValueId) :
    (g.entered v).values[x]?.map view = if x = g.next then some (view v) else g.values[x]?.map view := by
  split
  · rename_i hx
    rw [hx, getElem?_entered_self]
    rfl
  · rename_i hx
    rw [getElem?_entered_of_ne hx]
    cases g.values[x]? <;> simp [ignores]

theorem view_without (v : ValueId) (operands : List ValueId) (x : ValueId) :
    (g.without v operands).values[x]?.map view = if x = v then none else g.values[x]?.map view := by
  split
  · rename_i hx
    rw [hx, getElem?_without_self]
    rfl
  · rename_i hx
    rw [getElem?_without_of_ne hx]
    cases g.values[x]? <;> simp [ignores]

end View

theorem kindOf_entered (v : Value) (x : ValueId) :
    (g.entered v).kindOf x = if x = g.next then some v.kind else g.kindOf x :=
  view_entered Value.kind (fun _ _ => rfl) v x

theorem tyOf_entered (v : Value) (x : ValueId) :
    (g.entered v).tyOf x = if x = g.next then some v.ty else g.tyOf x :=
  view_entered Value.ty (fun _ _ => rfl) v x

theorem kindOf_without (v : ValueId) (operands : List ValueId) (x : ValueId) :
    (g.without v operands).kindOf x = if x = v then none else g.kindOf x :=
  view_without Value.kind (fun _ _ => rfl) v operands x

theorem tyOf_without (v : ValueId) (operands : List ValueId) (x : ValueId) :
    (g.without v operands).tyOf x = if x = v then none else g.tyOf x :=
  view_without Value.ty (fun _ _ => rfl) v operands x

/-! ## One change -/

/-- A change of values that keeps their kinds and types. -/
theorem Catalogued.mapValues (h : g.Catalogued) {f : ValueId → Value → Value}
    (kind : ∀ x e, (f x e).kind = e.kind) (ty : ∀ x e, (f x e).ty = e.ty) :
    (g.mapValues f).Catalogued where
  block x := by
    rw [kindOf_mapValues kind]
    exact h.block x
  function x := by
    rw [kindOf_mapValues kind]
    exact h.function x
  ty x func hx := by
    obtain ⟨e, he, same⟩ := tyOf_eq_some.1 (h.ty x func hx)
    exact tyOf_eq_some.2 ⟨f x e, by rw [getElem?_mapValues, he]; rfl, (ty x e).trans same⟩

theorem Catalogued.rewired (h : g.Catalogued) {u : Use} {old new : ValueId} :
    (g.rewired u old new).Catalogued :=
  h.mapValues (fun _ _ => rfl) (fun _ _ => rfl)

theorem Catalogued.extended (h : g.Catalogued) {user operand : ValueId} {len : Nat} :
    (g.extended user len operand).Catalogued :=
  h.mapValues (fun _ _ => rfl) (fun _ _ => rfl)

theorem Catalogued.moved (h : g.Catalogued) {inst : ValueId} {place : Option BlockId} :
    (g.mapValues (Value.moved inst place)).Catalogued :=
  h.mapValues (fun _ _ => rfl) (fun _ _ => rfl)

theorem Catalogued.mapBlocks (h : g.Catalogued) (f : BlockId → Block → Block) :
    (g.mapBlocks f).Catalogued :=
  ⟨fun x => (mem_mapBlocks f x).trans (h.block x), h.function, h.ty⟩

theorem Catalogued.entered (h : g.Catalogued) (num : g.Numbered) (plain : v.Plain) :
    (g.entered v).Catalogued where
  block x := by
    rw [kindOf_entered]
    split
    · rename_i hx
      refine iff_of_false (fun (hb : x ∈ g.blocks) => ?_) (by simp [plain.noBlock])
      exact Nat.ne_of_lt (num.blocks x hb) hx
    · exact h.block x
  function x := by
    rw [kindOf_entered]
    split
    · rename_i hx
      refine iff_of_false (fun (hf : x ∈ g.functions) => ?_) (by simp [plain.noFunction])
      exact Nat.ne_of_lt (num.functions x hf) hx
    · exact h.function x
  ty f func hf := by
    rw [tyOf_entered, if_neg (Nat.ne_of_lt (num.functions f (Table.mem_of_getElem? hf)))]
    exact h.ty f func hf

theorem Catalogued.without (h : g.Catalogued) {v : ValueId} {entry : Value}
    (found : g.values[v]? = some entry) (noBlock : entry.kind ≠ .block)
    (noFunction : entry.kind ≠ .function) (operands : List ValueId) :
    (g.without v operands).Catalogued := by
  have kind : g.kindOf v = some entry.kind := kindOf_eq_some.2 ⟨entry, found, rfl⟩
  have apart : v ∉ g.functions := by
    intro hv
    rw [h.function, kind] at hv
    exact noFunction (Option.some.inj hv)
  refine ⟨fun x => ?_, fun x => ?_, fun f func hf => ?_⟩
  · rw [kindOf_without, show x ∈ (g.without v operands).blocks ↔ _ from h.block x]
    split
    · rename_i hx
      rw [hx, kind]
      simp [noBlock]
    · rfl
  · rw [kindOf_without, show x ∈ (g.without v operands).functions ↔ _ from h.function x]
    split
    · rename_i hx
      rw [hx, kind]
      simp [noFunction]
    · rfl
  · have hne : f ≠ v := fun heq => apart (heq ▸ Table.mem_of_getElem? hf)
    rw [tyOf_without, if_neg hne]
    exact h.ty f func hf

theorem Catalogued.withBlock (h : g.Catalogued) (num : g.Numbered) {f : FuncId} {func : Func}
    (kind : v.kind = .block) (found : g.functions[f]? = some func) :
    (g.withBlock v f func).Catalogued := by
  have kinds : ∀ x, (g.withBlock v f func).kindOf x = if x = g.next then some .block else g.kindOf x :=
    fun x => (kindOf_entered v x).trans (by rw [kind])
  have mem := Table.mem_of_getElem? found
  refine ⟨fun x => ?_, fun x => ?_, fun x func' hx => ?_⟩
  · rw [kinds]
    simp only [Graph.withBlock, Std.ExtTreeMap.mem_insert, Std.LawfulEqCmp.compare_eq_iff_eq]
    split
    · rename_i hx
      simp [hx]
    · rename_i hx
      rw [h.block, or_iff_right (Ne.symm hx)]
  · rw [kinds]
    simp only [Graph.withBlock, Std.ExtTreeMap.mem_insert, Std.LawfulEqCmp.compare_eq_iff_eq]
    split
    · rename_i hx
      refine iff_of_false (fun hm => ?_) (by simp)
      rcases hm with rfl | hm
      · exact Nat.ne_of_lt (num.functions f mem) hx
      · exact Nat.ne_of_lt (num.functions x hm) hx
    · rw [← h.function]
      refine or_iff_right_of_imp fun hf => ?_
      rw [← hf]
      exact mem
  · have old : ∃ func₀, g.functions[x]? = some func₀ ∧ func'.ty = func₀.ty := by
      simp only [Graph.withBlock, Std.ExtTreeMap.getElem?_insert, Std.LawfulEqCmp.compare_eq_iff_eq] at hx
      split at hx
      · rename_i hf
        cases hx
        exact ⟨func, hf ▸ found, rfl⟩
      · exact ⟨func', hx, rfl⟩
    obtain ⟨func₀, h₀, same⟩ := old
    have hne := Nat.ne_of_lt (num.functions x (Table.mem_of_getElem? h₀))
    refine (tyOf_entered v x).trans ?_
    rw [if_neg hne, same]
    exact h.ty x func₀ h₀

theorem Catalogued.change (h : g.Catalogued) (num : g.Numbered) (change : g.Change g') :
    g'.Catalogued := by
  cases change with
  | enter drafted => exact h.entered num (Draft.value_plain drafted)
  | rename =>
    refine h.mapValues (fun x e => ?_) (fun x e => ?_)
    · split <;> rfl
    · split <;> rfl
  | rewire => exact h.rewired
  | retarget => exact h.rewired.mapBlocks _
  | incoming => exact h.extended.extended
  | place => exact h.moved.mapBlocks _
  | displace => exact h.moved.mapBlocks _
  | block idle kind found => exact h.withBlock num kind found

end Graph

/-! ## Built workspaces -/

namespace Workspace

variable {w : Workspace} {v : Value} {params : List Value} {func : Func}

section Function

variable (num : w.graph.Numbered) (idle : v.Idle) (kind : v.kind = .function)
  (plain : ∀ p ∈ params, p.Plain ∧ p.operands = [])

include num plain

theorem getElem?_withFunction_next :
    (w.withFunction v params func).graph.values[w.graph.next]? = some v := by
  have rest := Graph.grown_foldl_entered (num.entered v)
    fun p hp => ⟨(plain p hp).1.toIdle, (plain p hp).2⟩
  have own : w.graph.next ∈ (w.graph.entered v).values := Graph.mem_entered.2 (.inl rfl)
  exact (rest.old _ own).trans (Graph.getElem?_entered_self v)

include idle kind

/-- Besides the function only parameters are new. -/
theorem kindOf_withFunction (kinds : ∀ p ∈ params, ∃ index, p.kind = .param index) {k : Kind}
    (other : ∀ index, k ≠ .param index) (x : ValueId) :
    (w.withFunction v params func).graph.kindOf x = some k ↔
      x = w.graph.next ∧ k = .function ∨ w.graph.kindOf x = some k := by
  have grown := grown_withFunction num idle kind plain func
  by_cases hx : x = w.graph.next
  · subst hx
    have none : w.graph.kindOf w.graph.next = none := by simp [Graph.kindOf, num.values_next]
    rw [none, Graph.kindOf, getElem?_withFunction_next num plain]
    simp [kind, eq_comm]
  · simp only [hx, false_and, false_or]
    by_cases live : x ∈ w.graph.values
    · rw [Graph.kindOf, grown.old x live, Graph.kindOf]
    · have none : w.graph.kindOf x = none := by simp [Graph.kindOf, live]
      rw [none]
      refine iff_of_false (fun h => ?_) (by simp)
      obtain ⟨e, he, rfl⟩ := Graph.kindOf_eq_some.1 h
      have absent : x ∉ (w.graph.entered v).values := fun hm => (Graph.mem_entered.1 hm).elim hx live
      have param : e ∈ params := Graph.mem_of_foldl_entered (num.entered v)
        (fun p hp => ⟨(plain p hp).1.toIdle, (plain p hp).2⟩) absent he
      obtain ⟨index, isParam⟩ := kinds e param
      exact other index isParam

theorem catalogued_withFunction (h : w.graph.Catalogued) (ty : v.ty = func.ty)
    (kinds : ∀ p ∈ params, ∃ index, p.kind = .param index) :
    (w.withFunction v params func).graph.Catalogued := by
  have grown := grown_withFunction num idle kind plain func
  refine ⟨fun x => ?_, fun x => ?_, fun f func' hf => ?_⟩
  · rw [kindOf_withFunction num idle kind plain kinds (by simp), grown.blocks, h.block]
    simp
  · rw [kindOf_withFunction num idle kind plain kinds (by simp), functions_withFunction, ← h.function,
      Std.ExtTreeMap.mem_insert, Std.LawfulEqCmp.compare_eq_iff_eq]
    simp [eq_comm]
  · rw [functions_withFunction, Std.ExtTreeMap.getElem?_insert] at hf
    split at hf
    · rename_i same
      cases hf
      rw [← Std.LawfulEqCmp.compare_eq_iff_eq.1 same]
      exact Graph.tyOf_eq_some.2 ⟨v, getElem?_withFunction_next num plain, ty⟩
    · have live := h.live_function (Table.mem_of_getElem? hf)
      rw [Graph.tyOf, grown.old f live]
      exact h.ty f func' hf

end Function

theorem Built.catalogued (h : w.Built) : w.graph.Catalogued := by
  refine Built.invariant (P := fun w => w.graph.Catalogued) (fun name => ?_)
    (fun {w w'} built cat step => ?_) h
  · exact ⟨by simp [start, graph, Graph.kindOf], by simp [start, graph, Graph.kindOf],
      by simp [start, graph]⟩
  · have num := built.numbered
    cases step with
    | graph change => exact cat.change num change
    | function idle kind ty plain blocks ids kinds =>
      exact catalogued_withFunction num idle kind plain cat ty kinds
    | global plain => exact cat.entered num plain
    | restore found => exact cat.entered num (built.stored _ _ found)
    | discard found unused detached noBlock noFunction => exact cat.without found noBlock noFunction _

end Workspace

end SsaGraph
