import SsaGraph.Proofs.Tables

/-!
# Creating, naming and removing values

When these operations go through, and the graph they leave: `Graph.entered` for a new value,
`Graph.renamed` for a new name, `Graph.without` for a removed value. A value that is entered is added
to the use sets of its operands, `slotsOf` at a time, and taken out of them when it is removed.
-/
namespace SsaGraph

/-! ## Uses -/

/-- The slots of `user`, with these operands, that hold `x`. -/
def slotsOf (user : ValueId) (operands : List ValueId) (x : ValueId) : UseSet :=
  .ofList ((operands.zipIdx.filter (·.1 = x)).map fun s => ⟨user, s.2⟩) Use.cmp

@[simp] theorem mem_slotsOf {user x : ValueId} {operands : List ValueId} {u : Use} :
    u ∈ slotsOf user operands x ↔ u.user = user ∧ operands[u.index]? = some x := by
  simp only [slotsOf, Std.ExtTreeSet.mem_ofList, List.contains_iff_mem, List.mem_map, List.mem_filter,
    decide_eq_true_eq]
  refine ⟨fun h => ?_, fun h => ?_⟩
  · obtain ⟨⟨v, i⟩, ⟨h, rfl⟩, rfl⟩ := h
    exact ⟨rfl, List.mk_mem_zipIdx_iff_getElem?.1 h⟩
  · obtain ⟨rfl, h⟩ := h
    exact ⟨(x, u.index), ⟨List.mk_mem_zipIdx_iff_getElem?.2 h, rfl⟩, rfl⟩

theorem mem_foldl_insert {user x : ValueId} {slots : List (ValueId × Nat)} {uses : UseSet} {u : Use} :
    u ∈ slots.foldl (fun uses s => if x = s.1 then uses.insert ⟨user, s.2⟩ else uses) uses ↔
      u ∈ uses ∨ u.user = user ∧ (x, u.index) ∈ slots := by
  obtain ⟨v, i⟩ := u
  induction slots generalizing uses with
  | nil => simp
  | cons s slots ih =>
    rw [List.foldl_cons, ih]
    split <;> simp <;> grind

theorem mem_foldl_erase {user x : ValueId} {slots : List (ValueId × Nat)} {uses : UseSet} {u : Use} :
    u ∈ slots.foldl (fun uses s => if x = s.1 then uses.erase ⟨user, s.2⟩ else uses) uses ↔
      u ∈ uses ∧ ¬(u.user = user ∧ (x, u.index) ∈ slots) := by
  obtain ⟨v, i⟩ := u
  induction slots generalizing uses with
  | nil => simp
  | cons s slots ih =>
    rw [List.foldl_cons, ih]
    split <;> simp <;> grind

theorem foldl_uses (change : Use → UseSet → UseSet) (user x : ValueId) (slots : List (ValueId × Nat))
    (e : Value) :
    slots.foldl (fun e s => if x = s.1 then { e with uses := change ⟨user, s.2⟩ e.uses } else e) e =
      { e with uses :=
          slots.foldl (fun uses s => if x = s.1 then change ⟨user, s.2⟩ uses else uses) e.uses } := by
  induction slots generalizing e with
  | nil => rfl
  | cons s slots ih =>
    rw [List.foldl_cons, List.foldl_cons, ih]
    split <;> rfl

namespace Graph

variable {g g' : Graph}

/-- A change to the use sets of all operands of `user`, slot by slot, in closed form. -/
theorem foldlM_updateUses (change : Use → UseSet → UseSet) (after : ValueId → UseSet → UseSet)
    {user : ValueId} {operands : List ValueId}
    (closed : ∀ x uses, operands.zipIdx.foldl
      (fun uses s => if x = s.1 then change ⟨user, s.2⟩ uses else uses) uses = after x uses) :
    operands.zipIdx.foldlM
        (fun g s => g.updateValue s.1 fun e => { e with uses := change ⟨user, s.2⟩ e.uses }) g = .ok g' ↔
      (∀ op ∈ operands, op ∈ g.values) ∧
        g' = g.mapValues fun x e => { e with uses := after x e.uses } := by
  have keys : (∀ s ∈ operands.zipIdx, s.1 ∈ g.values) ↔ ∀ op ∈ operands, op ∈ g.values := by
    rw [← List.forall_mem_map, List.zipIdx_map_fst]
  rw [foldlM_eq_ok (fun _ _ _ => updateValue_eq_ok) (by simp), keys,
    foldl_mapValues fun (s : ValueId × Nat) x e =>
      if x = s.1 then { e with uses := change ⟨user, s.2⟩ e.uses } else e]
  simp only [foldl_uses, closed]

theorem addUses_eq_ok {user : ValueId} {operands : List ValueId} :
    g.addUses user operands = .ok g' ↔ (∀ op ∈ operands, op ∈ g.values) ∧
      g' = g.mapValues fun x e => { e with uses := e.uses ∪ slotsOf user operands x } := by
  refine foldlM_updateUses (fun u uses => uses.insert u) (fun x uses => uses ∪ slotsOf user operands x)
    fun x uses => Std.ExtTreeSet.ext_mem fun u => ?_
  rw [mem_foldl_insert, Std.ExtTreeSet.mem_union_iff, mem_slotsOf, List.mk_mem_zipIdx_iff_getElem?]

theorem dropUses_eq_ok {user : ValueId} {operands : List ValueId} :
    g.dropUses user operands = .ok g' ↔ (∀ op ∈ operands, op ∈ g.values) ∧
      g' = g.mapValues fun x e => { e with uses := e.uses \ slotsOf user operands x } := by
  refine foldlM_updateUses (fun u uses => uses.erase u) (fun x uses => uses \ slotsOf user operands x)
    fun x uses => Std.ExtTreeSet.ext_mem fun u => ?_
  rw [mem_foldl_erase, Std.ExtTreeSet.mem_diff_iff, mem_slotsOf, List.mk_mem_zipIdx_iff_getElem?]

/-! ## Creation and removal -/

/-- The graph with a new value under the next handle. -/
def entered (g : Graph) (v : Value) : Graph :=
  { g with
    values := (g.values.map fun x e => { e with uses := e.uses ∪ slotsOf g.next v.operands x }).insert
      g.next v
    next := g.next + 1 }

theorem create_eq_ok {v : Value} {id : ValueId} :
    g.create v = .ok (id, g') ↔ g.next + 1 < handleLimit ∧ (∀ op ∈ v.operands, op ∈ g.values) ∧
      id = g.next ∧ g' = g.entered v := by
  simp only [create, bind_eq_ok, pure_eq_ok, require_eq_ok, addUses_eq_ok, Prod.mk.injEq]
  refine ⟨fun h => ?_, fun h => ?_⟩
  · obtain ⟨-, hn, _, ⟨hv, rfl⟩, rfl, rfl⟩ := h
    exact ⟨hn, hv, rfl, rfl⟩
  · obtain ⟨hn, hv, rfl, rfl⟩ := h
    exact ⟨(), hn, _, ⟨hv, rfl⟩, rfl, rfl⟩

/-- The graph with a value renamed. -/
def renamed (g : Graph) (v : ValueId) (name : Option String) : Graph :=
  g.mapValues fun x e => if x = v then { e with name } else e

theorem forM_checkName {name : Option String} {u : Unit} :
    name.forM checkName = .ok u ↔ ∀ n ∈ name, validName n = true := by
  cases name with
  | none => simp [Option.forM, pure_eq_ok]
  | some n => simp [Option.forM, checkName, require_eq_ok]

theorem rename_eq_ok {v : ValueId} {name : Option String} :
    g.rename v name = .ok g' ↔
      v ∈ g.values ∧ (∀ n ∈ name, validName n = true) ∧ g' = g.renamed v name := by
  simp only [rename, bind_eq_ok, forM_checkName, updateValue_eq_ok, value_eq_ok]
  refine ⟨fun h => ?_, fun h => ?_⟩
  · obtain ⟨_, -, -, hn, hv, rfl⟩ := h
    exact ⟨hv, hn, rfl⟩
  · obtain ⟨hv, hn, rfl⟩ := h
    obtain ⟨e, he⟩ := Table.getElem?_of_mem hv
    exact ⟨e, he, (), hn, hv, rfl⟩

theorem renamed_entered (v : Value) (name : Option String) :
    (g.entered v).renamed g.next name = g.entered { v with name } := by
  simp only [renamed, entered, mapValues, mk.injEq, and_true]
  ext x
  grind

theorem createNamed_eq_ok {v : Value} {name : Option String} {id : ValueId} :
    g.createNamed v name = .ok (id, g') ↔ g.next + 1 < handleLimit ∧
      (∀ op ∈ v.operands, op ∈ g.values) ∧ (∀ n ∈ name, validName n = true) ∧ id = g.next ∧
      g' = g.entered { v with name } := by
  simp only [createNamed, bind_eq_ok, pure_eq_ok, Prod.exists, create_eq_ok, rename_eq_ok, Prod.mk.injEq]
  refine ⟨fun h => ?_, fun h => ?_⟩
  · obtain ⟨_, _, ⟨hl, hv, rfl, rfl⟩, _, ⟨-, hn, rfl⟩, rfl, rfl⟩ := h
    exact ⟨hl, hv, hn, rfl, renamed_entered v name⟩
  · obtain ⟨hl, hv, hn, rfl, rfl⟩ := h
    exact ⟨_, _, ⟨hl, hv, rfl, rfl⟩, _, ⟨by simp [entered], hn, rfl⟩, rfl, (renamed_entered v name).symm⟩

/-- The graph without a value that had these operands. -/
def without (g : Graph) (v : ValueId) (operands : List ValueId) : Graph :=
  { g with
    values := (g.values.erase v).map fun x e => { e with uses := e.uses \ slotsOf v operands x } }

theorem discard_eq_ok {v : ValueId} {entry : Value} :
    g.discard v = .ok (entry, g') ↔ g.values[v]? = some entry ∧ v ∉ entry.operands ∧
      (∀ op ∈ entry.operands, op ∈ g.values) ∧ g' = g.without v entry.operands := by
  simp only [discard, bind_eq_ok, pure_eq_ok, value_eq_ok, dropUses_eq_ok, Prod.mk.injEq]
  refine ⟨fun h => ?_, fun h => ?_⟩
  · obtain ⟨_, he, _, ⟨hv, rfl⟩, rfl, rfl⟩ := h
    exact ⟨he, by grind, by grind, rfl⟩
  · obtain ⟨he, hn, hv, rfl⟩ := h
    exact ⟨entry, he, _, ⟨by grind, rfl⟩, rfl, rfl⟩

end Graph

end SsaGraph
