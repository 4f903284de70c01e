import SsaGraph.Workspace

/-!
# Table changes in closed form

A graph operation looks entries up and faults when there is none, so its result is a chain of binds
over single updates. Here a chain that goes through is turned into one function over all entries:
`Graph.mapValues` changes every value and `Graph.mapBlocks` every block by a function of its handle.

Results:
* `bind_eq_ok`, `foldlM_eq_ok`: a chain of steps goes through exactly when every step does;
* `Graph.updateValue_eq_ok`, `Graph.updateBlock_eq_ok`, `Graph.updateFunc_eq_ok`: an update goes
  through exactly when the entry is there, and changes that entry only;
* `Table.map_congr`: two changes that agree on the entries of a table are the same change.
-/
namespace SsaGraph

/-! ## Outcomes -/

theorem bind_eq_ok {α β : Type} {x : Except Fault α} {f : α → Except Fault β} {r : β} :
    x >>= f = .ok r ↔ ∃ a, x = .ok a ∧ f a = .ok r := by
  cases x <;> simp [bind, Except.bind]

/-- A step that goes through leaves the rest to go through. -/
theorem ok_bind {α β : Type} {x : Except Fault α} {f : α → Except Fault β} {a : α} (h : x = .ok a)
    (rest : ∃ r, f a = .ok r) : ∃ r, x >>= f = .ok r := by
  rw [h]
  exact rest

theorem pure_eq_ok {α : Type} {a b : α} : (pure a : Except Fault α) = .ok b ↔ b = a := by
  simp [pure, Except.pure, eq_comm]

/-- A loop whose steps all have a precondition that no step changes. -/
theorem foldlM_eq_ok {σ α : Type} {step : σ → α → Except Fault σ} {pre : σ → α → Prop}
    {next : σ → α → σ} (one : ∀ s a s', step s a = .ok s' ↔ pre s a ∧ s' = next s a)
    (stable : ∀ s a b, pre (next s a) b ↔ pre s b) {l : List α} {s s' : σ} :
    l.foldlM step s = .ok s' ↔ (∀ a ∈ l, pre s a) ∧ s' = l.foldl next s := by
  induction l generalizing s with
  | nil => simp [pure_eq_ok]
  | cons a l ih =>
    simp only [List.foldlM_cons, bind_eq_ok, one, ih, List.foldl_cons, List.forall_mem_cons]
    refine ⟨fun h => ?_, fun h => ?_⟩
    · obtain ⟨t, ⟨ha, rfl⟩, hl, rfl⟩ := h
      exact ⟨⟨ha, fun b hb => (stable s a b).1 (hl b hb)⟩, rfl⟩
    · obtain ⟨⟨ha, hl⟩, rfl⟩ := h
      exact ⟨_, ⟨ha, rfl⟩, fun b hb => (stable s a b).2 (hl b hb), rfl⟩

/-! ## Tables -/

namespace Table

variable {α : Type} {table : Table α} {id : ValueId} {entry : α}

theorem mem_of_getElem? (h : table[id]? = some entry) : id ∈ table :=
  Std.ExtTreeMap.mem_iff_isSome_getElem?.2 (by simp [h])

theorem getElem?_of_mem (h : id ∈ table) : ∃ entry, table[id]? = some entry :=
  Option.isSome_iff_exists.1 (Std.ExtTreeMap.mem_iff_isSome_getElem?.1 h)

theorem insert_eq_map {change : α → α} (h : table[id]? = some entry) :
    table.insert id (change entry) = table.map fun x e => if x = id then change e else e := by
  ext x
  grind

theorem map_map (f f' : ValueId → α → α) :
    (table.map f).map f' = table.map fun x e => f' x (f x e) := by
  ext x
  simp

theorem map_congr {f f' : ValueId → α → α} (h : ∀ x e, table[x]? = some e → f x e = f' x e) :
    table.map f = table.map f' := by
  ext x e
  simp only [Std.ExtTreeMap.getElem?_map, Option.map_eq_some_iff]
  grind

theorem map_id (f : ValueId → α → α) (h : ∀ x e, table[x]? = some e → f x e = e) :
    table.map f = table := by
  ext x e
  simp only [Std.ExtTreeMap.getElem?_map, Option.map_eq_some_iff]
  grind

end Table

/-! ## Values and blocks -/

namespace Graph

/-- Every value changed by a function of its handle. -/
def mapValues (g : Graph) (f : ValueId → Value → Value) : Graph :=
  { g with values := g.values.map f }

/-- Every block changed by a function of its handle. -/
def mapBlocks (g : Graph) (f : BlockId → Block → Block) : Graph :=
  { g with blocks := g.blocks.map f }

variable {g g' : Graph}

@[simp] theorem values_mapBlocks (f : BlockId → Block → Block) :
    (g.mapBlocks f).values = g.values := rfl

@[simp] theorem blocks_mapValues (f : ValueId → Value → Value) :
    (g.mapValues f).blocks = g.blocks := rfl

@[simp, grind =] theorem getElem?_mapValues (f : ValueId → Value → Value) (x : ValueId) :
    (g.mapValues f).values[x]? = g.values[x]?.map (f x) :=
  Std.ExtTreeMap.getElem?_map

@[simp, grind =] theorem getElem?_mapBlocks (f : BlockId → Block → Block) (x : BlockId) :
    (g.mapBlocks f).blocks[x]? = g.blocks[x]?.map (f x) :=
  Std.ExtTreeMap.getElem?_map

@[simp] theorem mem_mapValues (f : ValueId → Value → Value) (x : ValueId) :
    x ∈ (g.mapValues f).values ↔ x ∈ g.values :=
  Std.ExtTreeMap.mem_map

@[simp] theorem mem_mapBlocks (f : BlockId → Block → Block) (x : BlockId) :
    x ∈ (g.mapBlocks f).blocks ↔ x ∈ g.blocks :=
  Std.ExtTreeMap.mem_map

theorem mapValues_mapValues (f f' : ValueId → Value → Value) :
    (g.mapValues f).mapValues f' = g.mapValues fun x e => f' x (f x e) :=
  congrArg (fun values => { g with values }) (Table.map_map f f')

theorem mapBlocks_mapBlocks (f f' : BlockId → Block → Block) :
    (g.mapBlocks f).mapBlocks f' = g.mapBlocks fun x e => f' x (f x e) :=
  congrArg (fun blocks => { g with blocks }) (Table.map_map f f')

theorem mapValues_congr {f f' : ValueId → Value → Value}
    (h : ∀ x e, g.values[x]? = some e → f x e = f' x e) : g.mapValues f = g.mapValues f' :=
  congrArg (fun values => { g with values }) (Table.map_congr h)

theorem mapBlocks_id {f : BlockId → Block → Block}
    (h : ∀ x e, g.blocks[x]? = some e → f x e = e) : g.mapBlocks f = g :=
  congrArg (fun blocks => { g with blocks }) (Table.map_id f h)

theorem foldl_mapValues {α : Type} (f : α → ValueId → Value → Value) (l : List α) :
    l.foldl (fun g a => g.mapValues (f a)) g =
      g.mapValues fun x e => l.foldl (fun e a => f a x e) e := by
  induction l generalizing g with
  | nil => exact congrArg (fun values => { g with values }) (Table.map_id _ fun _ _ _ => rfl).symm
  | cons a l ih => simp only [List.foldl_cons, ih, mapValues_mapValues]

theorem foldl_mapBlocks {α : Type} (f : α → BlockId → Block → Block) (l : List α) :
    l.foldl (fun g a => g.mapBlocks (f a)) g =
      g.mapBlocks fun x e => l.foldl (fun e a => f a x e) e := by
  induction l generalizing g with
  | nil => exact (mapBlocks_id fun _ _ _ => rfl).symm
  | cons a l ih => simp only [List.foldl_cons, ih, mapBlocks_mapBlocks]

/-! ## Single updates -/

theorem updateValue_eq_ok {v : ValueId} {change : Value → Value} :
    g.updateValue v change = .ok g' ↔
      v ∈ g.values ∧ g' = g.mapValues fun x e => if x = v then change e else e := by
  simp only [updateValue, bind_eq_ok, pure_eq_ok, value_eq_ok]
  refine ⟨fun h => ?_, fun h => ?_⟩
  · obtain ⟨entry, h, rfl⟩ := h
    exact ⟨Table.mem_of_getElem? h, by rw [Table.insert_eq_map h]; rfl⟩
  · obtain ⟨h, rfl⟩ := h
    obtain ⟨entry, he⟩ := Table.getElem?_of_mem h
    exact ⟨entry, he, by rw [Table.insert_eq_map he]; rfl⟩

theorem updateBlock_eq_ok {b : BlockId} {change : Block → Block} :
    g.updateBlock b change = .ok g' ↔
      b ∈ g.blocks ∧ g' = g.mapBlocks fun x e => if x = b then change e else e := by
  simp only [updateBlock, bind_eq_ok, pure_eq_ok, block_eq_ok]
  refine ⟨fun h => ?_, fun h => ?_⟩
  · obtain ⟨entry, h, rfl⟩ := h
    exact ⟨Table.mem_of_getElem? h, by rw [Table.insert_eq_map h]; rfl⟩
  · obtain ⟨h, rfl⟩ := h
    obtain ⟨entry, he⟩ := Table.getElem?_of_mem h
    exact ⟨entry, he, by rw [Table.insert_eq_map he]; rfl⟩

theorem updateFunc_eq_ok {f : FuncId} {change : Func → Func} :
    g.updateFunc f change = .ok g' ↔
      ∃ entry, g.functions[f]? = some entry ∧
        g' = { g with functions := g.functions.insert f (change entry) } := by
  simp only [updateFunc, bind_eq_ok, pure_eq_ok, func_eq_ok]

end Graph

end SsaGraph
