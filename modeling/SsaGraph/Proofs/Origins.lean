import SsaGraph.Proofs.Numbering

/-!
# Where entries come from

After a change, an entry of the graph is one from before, up to its name, its place and its uses; or it
is one from before with one slot written or one pair more; or it is new. `Origin` lists the cases with
what is known in each. A fact about the type, the kind and the operands of every entry is then proved
by going through them, and not through the changes.

Results:
* `Workspace.ChangeBy.origin`: every entry has an origin;
* `Workspace.ChangeBy.removed_origin`: a removed entry was removed before or was in the graph;
* `Workspace.ChangeBy.extends`, `Workspace.ChangeBy.entry_old`, `Workspace.ChangeBy.function_origin`:
  blocks and functions stay, a handle never gets another type or kind, nor a function another type;
* `Workspace.Built.globals`, `Workspace.Built.params`: so a global or parameter that is listed and still
  there is one.
-/
namespace SsaGraph

/-- The value without its name, its place and its uses. -/
def Value.bare (v : Value) : Value := { ty := v.ty, kind := v.kind, operands := v.operands }

theorem Value.bare_inj {v e : Value} :
    e.bare = v.bare ↔ e.ty = v.ty ∧ e.kind = v.kind ∧ e.operands = v.operands := by
  simp [bare]

/-- How entry `e` under handle `x` follows from a graph and the entries removed from it. -/
inductive Origin (writes : Prop) (g : Graph) (removed : Table Value) (x : ValueId) (e : Value) : Prop
  | kept {old : Value} (entry : g.values[x]? = some old) (bare : e.bare = old.bare)
  | written {old : Value} {index : Nat} {former new : ValueId} (allowed : writes)
      (slot : g.Writable x old index former new) (bare : e.bare = (old.setOperand index new).bare)
  | extended {old : Value} {value : ValueId} {block : BlockId} (entry : g.values[x]? = some old)
      (kind : old.kind = .phi) (blockLive : block ∈ g.blocks) (ty : g.tyOf value = some old.ty)
      (bare : e.bare = ((old.pushOperand value).pushOperand block).bare)
  | drafted {draft : Draft} {v : Value} (new : g.next ≤ x) (drafted : draft.value g = .ok v)
      (live : ∀ op ∈ v.operands, op ∈ g.values) (bare : e.bare = v.bare)
  | block (new : g.next ≤ x) (kind : e.kind = .block) (ty : e.ty = .label) (none : e.operands = [])
  | function (new : g.next ≤ x) (kind : e.kind = .function) (none : e.operands = [])
  | param {index : Nat} (new : g.next ≤ x) (kind : e.kind = .param index) (none : e.operands = [])
  | global {isConst : Bool} {ty : Ty} (new : g.next ≤ x) (kind : e.kind = .global isConst)
      (init : e.operands.map g.tyOf = [some ty]) (pointer : e.ty = .pointer ty)
  | restored {v : ValueId} {entry : Value} (new : g.next ≤ x) (found : removed[v]? = some entry)
      (live : ∀ op ∈ entry.operands, op ∈ g.values) (bare : e.bare = entry.bare)

namespace Graph

variable {g g' : Graph} {writes : Prop} {removed : Table Value} {x : ValueId} {e : Value}

/-- A change of names, places and uses keeps every entry. -/
theorem origin_mapValues {f : ValueId → Value → Value} (same : ∀ x e, (f x e).bare = e.bare)
    (he : (g.mapValues f).values[x]? = some e) : Origin writes g removed x e := by
  rw [getElem?_mapValues, Option.map_eq_some_iff] at he
  obtain ⟨old, entry, rfl⟩ := he
  exact .kept entry (same x old)

/-- Entries of a graph with a new value are the new value and those from before. -/
theorem origin_entered {v : Value} (own : g.next ≤ x → e = v → Origin writes g removed x e)
    (he : (g.entered v).values[x]? = some e) : Origin writes g removed x e := by
  by_cases hx : x = g.next
  · refine own (Nat.le_of_eq hx.symm) ?_
    rw [hx, getElem?_entered_self] at he
    exact (Option.some.inj he).symm
  · rw [getElem?_entered_of_ne hx, Option.map_eq_some_iff] at he
    obtain ⟨old, entry, rfl⟩ := he
    exact .kept entry rfl

theorem origin_without {v : ValueId} {operands : List ValueId}
    (he : (g.without v operands).values[x]? = some e) : Origin writes g removed x e := by
  by_cases hx : x = v
  · rw [hx, getElem?_without_self] at he
    cases he
  · rw [getElem?_without_of_ne hx, Option.map_eq_some_iff] at he
    obtain ⟨old, entry, rfl⟩ := he
    exact .kept entry rfl

theorem origin_rewired {user old new : ValueId} {index : Nat} {v : Value} (allowed : writes)
    (slot : g.Writable user v index old new)
    (he : (g.rewired ⟨user, index⟩ old new).values[x]? = some e) : Origin writes g removed x e := by
  rw [rewired, getElem?_mapValues, Option.map_eq_some_iff] at he
  obtain ⟨former, entry, rfl⟩ := he
  by_cases hx : x = user
  · subst hx
    have same := slot.entry
    rw [entry] at same
    cases same
    exact .written allowed slot (by simp [Value.bare, Value.rewired, Value.setOperand])
  · exact .kept entry (by simp [Value.bare, Value.rewired, hx])

theorem ChangeBy.origin (change : g.ChangeBy writes g') (he : g'.values[x]? = some e) :
    Origin writes g removed x e := by
  cases change with
  | enter drafted live =>
    exact origin_entered (fun new heq => .drafted new (heq ▸ drafted) (heq ▸ live) rfl) he
  | rename =>
    refine origin_mapValues (fun x e => ?_) he
    split <;> rfl
  | rewire slot apart allowed => exact origin_rewired allowed slot he
  | retarget slot along live unused allowed => exact origin_rewired allowed slot he
  | @incoming phi value block p entry kind live blockLive ty =>
    rw [extended, extended, mapValues_mapValues, getElem?_mapValues, Option.map_eq_some_iff] at he
    obtain ⟨old, found, rfl⟩ := he
    by_cases hx : x = phi
    · subst hx
      rw [entry] at found
      cases found
      exact .extended entry kind blockLive.1 ty (by simp [Value.bare, Value.extended, Value.pushOperand])
    · exact .kept found (by simp [Value.bare, Value.extended, hx])
  | place => exact origin_mapValues (f := Value.moved _ _) (fun _ _ => rfl) he
  | displace => exact origin_mapValues (f := Value.moved _ _) (fun _ _ => rfl) he
  | block idle kind found defined ty =>
    have none := idle.operands_eq_nil (.inl kind)
    exact origin_entered (fun new heq => .block new (heq ▸ kind) (heq ▸ ty) (heq ▸ none)) he

/-- What a series of new values without operands adds is one of them. -/
theorem mem_of_foldl_entered (num : g.Numbered) {vs : List Value}
    (idle : ∀ v ∈ vs, v.Idle ∧ v.operands = []) (new : x ∉ g.values)
    (he : (vs.foldl entered g).values[x]? = some e) : e ∈ vs := by
  induction vs generalizing g with
  | nil => exact absurd (Table.mem_of_getElem? he) new
  | cons v vs ih =>
    obtain ⟨hv, none⟩ := idle v (List.mem_cons_self ..)
    have rest := fun u hu => idle u (List.mem_cons_of_mem v hu)
    by_cases hx : x = g.next
    · have own : x ∈ (g.entered v).values := mem_entered.2 (.inl hx)
      rw [List.foldl_cons, (grown_foldl_entered (num.entered v) rest).old x own, hx,
        getElem?_entered_self] at he
      cases he
      exact List.mem_cons_self ..
    · have absent : x ∉ (g.entered v).values := fun h => (mem_entered.1 h).elim hx new
      exact List.mem_cons_of_mem v (ih (num.entered v) rest absent he)

/-- Blocks and functions of the first graph are in the second, and so are the handles given out. -/
structure Extends (g g' : Graph) : Prop where
  blocks : ∀ b ∈ g.blocks, b ∈ g'.blocks
  functions : ∀ f ∈ g.functions, f ∈ g'.functions
  next : g.next ≤ g'.next

theorem ChangeBy.extends (change : g.ChangeBy writes g') : g.Extends g' := by
  cases change with
  | enter => exact ⟨fun _ hb => hb, fun _ hf => hf, Nat.le_succ _⟩
  | rename | rewire | incoming => exact ⟨fun _ hb => hb, fun _ hf => hf, Nat.le_refl _⟩
  | retarget | place | displace =>
    exact ⟨fun b hb => (mem_mapBlocks _ b).2 hb, fun _ hf => hf, Nat.le_refl _⟩
  | block =>
    exact ⟨fun b hb => Std.ExtTreeMap.mem_insert.2 (.inr hb),
      fun f hf => Std.ExtTreeMap.mem_insert.2 (.inr hf), Nat.le_succ _⟩

end Graph

namespace Workspace

variable {w w' : Workspace} {writes : Prop} {x : ValueId} {e : Value}

/-- A fact about every value and every removed entry. -/
def All (w : Workspace) (P : Value → Prop) : Prop :=
  (∀ (x : ValueId) (e : Value), w.graph.values[x]? = some e → P e) ∧
    ∀ (v : ValueId) (e : Value), w.removed[v]? = some e → P e

theorem All.start (name : String) (P : Value → Prop) : (start name).All P :=
  ⟨by simp [Workspace.start, graph], by simp [Workspace.start]⟩

theorem ChangeBy.origin (num : w.graph.Numbered) (change : w.ChangeBy writes w')
    (he : w'.graph.values[x]? = some e) : Origin writes w.graph w.removed x e := by
  cases change with
  | graph change => exact change.origin he
  | @function v params func idle kind ty plain blocks ids kinds =>
    have grown := grown_withFunction num idle kind plain func
    by_cases hx : x ∈ w.graph.values
    · rw [grown.old x hx] at he
      exact .kept he rfl
    · obtain ⟨-, -, new, -⟩ := grown.new x e hx he
      have none := idle.operands_eq_nil (.inr kind)
      have all : ∀ u ∈ v :: params, u.Idle ∧ u.operands = [] :=
        List.forall_mem_cons.2 ⟨⟨idle, none⟩, fun p hp => ⟨(plain p hp).1.toIdle, (plain p hp).2⟩⟩
      rcases List.mem_cons.1 (Graph.mem_of_foldl_entered num all hx he) with rfl | hp
      · exact .function new kind none
      · obtain ⟨index, isParam⟩ := kinds e hp
        exact .param new isParam (plain e hp).2
  | global plain kind live init pointer =>
    exact Graph.origin_entered (fun new heq => .global new (heq ▸ kind) (heq ▸ init) (heq ▸ pointer)) he
  | restore found live =>
    exact Graph.origin_entered (fun new heq => .restored new found live (heq ▸ rfl)) he
  | discard => exact Graph.origin_without he

theorem ChangeBy.removed_origin {v : ValueId} (change : w.ChangeBy writes w')
    (he : w'.removed[v]? = some e) : w.removed[v]? = some e ∨ w.graph.values[v]? = some e := by
  cases change with
  | graph | function | global => exact .inl he
  | restore =>
    rw [Std.ExtTreeMap.getElem?_erase] at he
    split at he
    · cases he
    · exact .inl he
  | discard found =>
    rw [Std.ExtTreeMap.getElem?_insert] at he
    split at he
    · rename_i hv
      cases he
      rw [← Std.LawfulEqCmp.compare_eq_iff_eq.1 hv]
      exact .inr found
    · exact .inl he

theorem ChangeBy.extends (num : w.graph.Numbered) (change : w.ChangeBy writes w') :
    w.graph.Extends w'.graph := by
  cases change with
  | graph change => exact change.extends
  | @function v params func idle kind ty plain =>
    have grown := grown_withFunction num idle kind plain func
    refine ⟨fun b hb => grown.blocks ▸ hb, fun f hf => ?_, grown.next⟩
    rw [functions_withFunction]
    exact Std.ExtTreeMap.mem_insert.2 (.inr hf)
  | global | restore => exact ⟨fun _ hb => hb, fun _ hf => hf, Nat.le_succ _⟩
  | discard => exact ⟨fun _ hb => hb, fun _ hf => hf, Nat.le_refl _⟩

/-- A handle that was given out before has the value it had then up to operands, or none. -/
theorem ChangeBy.entry_old (num : w.graph.Numbered) (change : w.ChangeBy writes w')
    (old : x < w.graph.next) (he : w'.graph.values[x]? = some e) :
    ∃ former, w.graph.values[x]? = some former ∧ e.ty = former.ty ∧ e.kind = former.kind := by
  cases change.origin num he with
  | kept entry bare | extended entry kind blockLive ty bare =>
    obtain ⟨ty, kind, -⟩ := Value.bare_inj.1 bare
    exact ⟨_, entry, ty, kind⟩
  | written allowed slot bare =>
    obtain ⟨ty, kind, -⟩ := Value.bare_inj.1 bare
    exact ⟨_, slot.entry, ty, kind⟩
  | drafted new | block new | function new | param new | global new | restored new =>
    exact absurd old (Nat.not_lt.2 new)

/-- A handle that was given out before has the type it had then, or no value. -/
theorem ChangeBy.tyOf_old (num : w.graph.Numbered) (change : w.ChangeBy writes w') {t : Ty}
    (old : x < w.graph.next) (h : w'.graph.tyOf x = some t) : w.graph.tyOf x = some t := by
  obtain ⟨e, he, rfl⟩ := Option.map_eq_some_iff.1 h
  obtain ⟨former, entry, ty, -⟩ := change.entry_old num old he
  rw [Graph.tyOf, entry, ty]
  rfl

/-- A function has the type that it was created with. -/
theorem ChangeBy.function_origin (change : w.ChangeBy writes w') {f : FuncId} {func : Func}
    (found : w'.graph.functions[f]? = some func) :
    (∃ former, w.graph.functions[f]? = some former ∧ func.ty = former.ty) ∨
      ∃ tys ret, func.ty = .function tys ret := by
  cases change with
  | graph change =>
    cases change with
    | enter | rename | rewire | retarget | incoming | place | displace => exact .inl ⟨func, found, rfl⟩
    | @block v owner owned idle kind entry =>
      have found : (w.graph.functions.insert owner
        { owned with blocks := owned.blocks ++ [w.graph.next] })[f]? = some func := found
      rw [Std.ExtTreeMap.getElem?_insert] at found
      split at found
      · rename_i same
        cases found
        rw [Std.LawfulEqCmp.compare_eq_iff_eq] at same
        exact .inl ⟨owned, same ▸ entry, rfl⟩
      · exact .inl ⟨func, found, rfl⟩
  | function idle kind ty plain blocks ids kinds formed =>
    rw [functions_withFunction, Std.ExtTreeMap.getElem?_insert] at found
    split at found
    · cases found
      exact .inr formed
    · exact .inl ⟨func, found, rfl⟩
  | global | restore | discard => exact .inl ⟨func, found, rfl⟩

/-! ## Listed globals and parameters -/

/-- A handle that was given out, and whose value is of some kind if it has one, stays like that. -/
theorem ChangeBy.kind_kept (num : w.graph.Numbered) (change : w.ChangeBy writes w') {P : Kind → Prop}
    (h : x < w.graph.next ∧ ∀ e, w.graph.values[x]? = some e → P e.kind) :
    x < w'.graph.next ∧ ∀ e, w'.graph.values[x]? = some e → P e.kind := by
  obtain ⟨old, kinds⟩ := h
  refine ⟨Nat.lt_of_lt_of_le old (change.extends num).next, fun e he => ?_⟩
  obtain ⟨former, entry, -, same⟩ := change.entry_old num old he
  rw [same]
  exact kinds former entry

/-- The globals of the layout have been given out, and those still there are globals. -/
theorem Built.globals (h : w.Built) : ∀ x ∈ w.program.globals, x < w.graph.next ∧
    ∀ e, w.graph.values[x]? = some e → ∃ isConst, e.kind = .global isConst := by
  refine Built.invariant (P := fun w => ∀ x ∈ w.program.globals, x < w.graph.next ∧
    ∀ e, w.graph.values[x]? = some e → ∃ isConst, e.kind = .global isConst) (fun name => ?_)
    (fun {w w'} built listed step => ?_) h
  · simp [start]
  · have num := built.numbered
    have older : ∀ x ∈ w.program.globals, x < w'.graph.next ∧
        ∀ e, w'.graph.values[x]? = some e → ∃ isConst, e.kind = .global isConst :=
      fun x hx => step.kind_kept num (P := fun k => ∃ isConst, k = .global isConst) (listed x hx)
    cases step with
    | graph | function | restore | discard => exact older
    | @global v isConst ty plain kind =>
      intro x hx
      rcases List.mem_append.1 hx with before | new
      · exact older x before
      · rw [List.mem_singleton.1 new]
        refine ⟨Nat.lt_succ_self _, fun e he => ?_⟩
        have own : (w.graph.entered v).values[w.graph.next]? = some e := he
        rw [Graph.getElem?_entered_self] at own
        cases own
        exact ⟨isConst, kind⟩

/-- The parameters of a function have been given out with it, and those still there are parameters. -/
theorem Built.params (h : w.Built) : ∀ (f : FuncId) (func : Func), w.graph.functions[f]? = some func →
    ∀ x ∈ func.params, x < w.graph.next ∧
      ∀ e, w.graph.values[x]? = some e → ∃ index, e.kind = .param index := by
  refine Built.invariant (P := fun w => ∀ (f : FuncId) (func : Func),
    w.graph.functions[f]? = some func → ∀ x ∈ func.params, x < w.graph.next ∧
      ∀ e, w.graph.values[x]? = some e → ∃ index, e.kind = .param index) (fun name => ?_)
    (fun {w w'} built listed step => ?_) h
  · simp [start, graph]
  · have num := built.numbered
    have older : ∀ (f : FuncId) (func : Func), w.graph.functions[f]? = some func →
        ∀ x ∈ func.params, x < w'.graph.next ∧
          ∀ e, w'.graph.values[x]? = some e → ∃ index, e.kind = .param index :=
      fun f func found x hx =>
        step.kind_kept num (P := fun k => ∃ index, k = .param index) (listed f func found x hx)
    cases step with
    | graph change =>
      cases change with
      | enter | rename | rewire | retarget | incoming | place | displace => exact older
      | @block v owner owned idle kind entry =>
        intro f func found
        have found : (w.graph.functions.insert owner
          { owned with blocks := owned.blocks ++ [w.graph.next] })[f]? = some func := found
        rw [Std.ExtTreeMap.getElem?_insert] at found
        split at found
        · cases found
          exact older owner owned entry
        · exact older f func found
    | @function v params func idle kind ty plain blocks ids kinds =>
      intro f F found x hx
      rw [functions_withFunction, Std.ExtTreeMap.getElem?_insert] at found
      split at found
      · cases found
        rw [ids, List.mem_range'_1] at hx
        refine ⟨?_, fun e he => kinds e ?_⟩
        · show x < (params.foldl Graph.entered (w.graph.entered v)).next
          rw [Graph.next_foldl_entered]
          exact hx.2
        · -- the handle is above that of the function, so the value was entered after it
          have new : x ∉ (w.graph.entered v).values := fun live =>
            Nat.not_lt.2 hx.1 ((num.entered v).values x live)
          exact Graph.mem_of_foldl_entered (num.entered v)
            (fun p hp => ⟨(plain p hp).1.toIdle, (plain p hp).2⟩) new he
      · exact older f F found x hx
    | global | restore | discard => exact older

end Workspace

end SsaGraph
