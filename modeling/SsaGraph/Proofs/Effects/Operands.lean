import SsaGraph.Proofs.Effects.Edges

/-!
# Writing and adding operand slots

`Graph.rewired` is the graph after one slot was written, before any edge moves, and `Graph.extended`
the graph after one slot was added.
-/
namespace SsaGraph

/-- Value `x` once slot `u` holds `new` and no longer `old`. -/
def Value.rewired (u : Use) (old new x : ValueId) (v : Value) : Value :=
  { v with
    operands := if x = u.user then v.operands.set u.index new else v.operands
    uses := if x = new then v.uses.insert u else if x = old then v.uses.erase u else v.uses }

/-- Value `x` once `user`, which had `len` slots, has one more for `operand`. -/
def Value.extended (user : ValueId) (len : Nat) (operand x : ValueId) (v : Value) : Value :=
  { v with
    operands := if x = user then v.operands ++ [operand] else v.operands
    uses := if x = operand then v.uses.insert ⟨user, len⟩ else v.uses }

theorem Value.length_extended_self (user : ValueId) (len : Nat) (operand : ValueId) (v : Value) :
    (v.extended user len operand user).operands.length = v.operands.length + 1 := by
  simp [extended]

namespace Graph

variable {g g' : Graph}

/-- The graph with slot `u` changed from `old` to `new`, edges aside. -/
def rewired (g : Graph) (u : Use) (old new : ValueId) : Graph := g.mapValues (Value.rewired u old new)

/-- The graph with one more slot for `operand`. -/
def extended (g : Graph) (user : ValueId) (len : Nat) (operand : ValueId) : Graph :=
  g.mapValues (Value.extended user len operand)

theorem getElem?_extended_self {user : ValueId} {e : Value} (he : g.values[user]? = some e) (len : Nat)
    (operand : ValueId) :
    (g.extended user len operand).values[user]? = some (e.extended user len operand user) := by
  simp [extended, he]

theorem mapValues_rewired {u : Use} {old new : ValueId} (hne : old ≠ new) :
    ((g.mapValues fun x e => if x = u.user then e.setOperand u.index new else e).mapValues
      fun x e => if x = old then e.dropUse u else e).mapValues
        (fun x e => if x = new then e.addUse u else e) = g.rewired u old new := by
  simp only [mapValues_mapValues, rewired]
  refine mapValues_congr fun x e _ => ?_
  have atUser : (if x = u.user then e.setOperand u.index new else e) =
      { e with operands := if x = u.user then e.operands.set u.index new else e.operands } := by
    split <;> rfl
  rw [atUser]
  by_cases hn : x = new
  · have ho : x ≠ old := fun h => hne (h ▸ hn)
    simp [hn, Value.addUse, Value.rewired, hne.symm]
  · by_cases ho : x = old <;> simp [hn, ho, hne, Value.dropUse, Value.rewired]

/-- A write that changes the slot rewires it and then, for a target of an attached branch, moves the
edge. -/
theorem writeOperand_eq_ok {user new old : ValueId} {index : Nat} :
    g.writeOperand user index new = .ok (old, g') ↔
      ∃ v, g.values[user]? = some v ∧ v.operands[index]? = some old ∧
        (old = new ∧ g' = g ∨ old ≠ new ∧ old ∈ g.values ∧ new ∈ g.values ∧
          match edgeSource? v index with
          | none => g' = g.rewired ⟨user, index⟩ old new
          | some src => ∃ g₁, (g.rewired ⟨user, index⟩ old new).unlinkUnused src old none = .ok g₁ ∧
              g₁.link src new = .ok g') := by
  simp only [writeOperand, bind_eq_ok, value_eq_ok, Value.operand_eq_ok]
  refine exists_congr fun v => and_congr_right fun hv => ?_
  refine ⟨fun h => ?_, fun h => ?_⟩
  · obtain ⟨o, ho, h⟩ := h
    split at h
    · rename_i heq
      simp only [pure_eq_ok, Prod.mk.injEq] at h
      obtain ⟨rfl, rfl⟩ := h
      exact ⟨ho, .inl ⟨heq, rfl⟩⟩
    · rename_i hne
      simp only [bind_eq_ok, updateValue_eq_ok] at h
      obtain ⟨_, ⟨-, rfl⟩, _, ⟨hold, rfl⟩, _, ⟨hnew, rfl⟩, h⟩ := h
      rw [mapValues_rewired (u := ⟨user, index⟩) hne] at h
      cases hsrc : edgeSource? v index with
      | none =>
        simp only [hsrc, pure_eq_ok, Prod.mk.injEq] at h
        obtain ⟨rfl, rfl⟩ := h
        exact ⟨ho, .inr ⟨hne, by simpa using hold, by simpa using hnew, rfl⟩⟩
      | some src =>
        simp only [hsrc, bind_eq_ok, pure_eq_ok, Prod.mk.injEq] at h
        obtain ⟨g₁, h₁, _, h₂, rfl, rfl⟩ := h
        exact ⟨ho, .inr ⟨hne, by simpa using hold, by simpa using hnew, g₁, h₁, h₂⟩⟩
  · obtain ⟨ho, h⟩ := h
    refine ⟨old, ho, ?_⟩
    rcases h with ⟨rfl, rfl⟩ | ⟨hne, hold, hnew, h⟩
    · rw [if_pos rfl, pure_eq_ok]
    · rw [if_neg hne]
      simp only [bind_eq_ok, updateValue_eq_ok]
      refine ⟨_, ⟨Table.mem_of_getElem? hv, rfl⟩, _, ⟨by simpa using hold, rfl⟩, _,
        ⟨by simpa using hnew, rfl⟩, ?_⟩
      rw [mapValues_rewired (u := ⟨user, index⟩) hne]
      cases hsrc : edgeSource? v index with
      | none =>
        simp only [hsrc] at h
        exact pure_eq_ok.2 (by rw [h])
      | some src =>
        simp only [hsrc] at h
        obtain ⟨g₁, h₁, h₂⟩ := h
        simp only [bind_eq_ok, pure_eq_ok]
        exact ⟨g₁, h₁, g', h₂, rfl⟩

/-- The slot can hold the value. -/
structure Accepts (g : Graph) (v : Value) (index : Nat) (value : ValueId) : Prop where
  block : v.isBlockSlot index = true → value ∈ g.blocks
  function : v.isCalleeSlot index = true → value ∈ g.functions

theorem slotRefusal_eq_none {user value : ValueId} {index : Nat} :
    g.slotRefusal? user index value = .ok none ↔
      ∃ v, g.values[user]? = some v ∧ index < v.operands.length ∧ g.Accepts v index value := by
  simp only [slotRefusal?, bind_eq_ok, value_eq_ok]
  refine exists_congr fun v => and_congr_right fun _ => ?_
  by_cases range : v.operands.length ≤ index
  · simp only [if_pos range, pure_eq_ok, reduceCtorEq, false_iff, not_and]
    intro h
    omega
  · rw [if_neg range]
    by_cases hb : v.isBlockSlot index = true ∧ value ∉ g.blocks
    · simp only [if_pos hb, pure_eq_ok, reduceCtorEq, false_iff, not_and]
      intro _ ok
      exact hb.2 (ok.block hb.1)
    · rw [if_neg hb]
      by_cases hf : v.isCalleeSlot index = true ∧ value ∉ g.functions
      · simp only [if_pos hf, pure_eq_ok, reduceCtorEq, false_iff, not_and]
        intro _ ok
        exact hf.2 (ok.function hf.1)
      · simp only [if_neg hf, pure_eq_ok, true_iff]
        exact ⟨by omega, fun h => Decidable.not_not.1 fun n => hb ⟨h, n⟩,
          fun h => Decidable.not_not.1 fun n => hf ⟨h, n⟩⟩

theorem pushOperand_eq_ok {user operand : ValueId} :
    g.pushOperand user operand = .ok g' ↔ ∃ v, g.values[user]? = some v ∧ operand ∈ g.values ∧
      g' = g.extended user v.operands.length operand := by
  have closed : ∀ len x (e : Value),
      (if x = user then (if x = operand then e.addUse ⟨user, len⟩ else e).pushOperand operand
      else if x = operand then e.addUse ⟨user, len⟩ else e) = e.extended user len operand x := by
    intro len x e
    have atOperand : (if x = operand then e.addUse ⟨user, len⟩ else e) =
        { e with uses := if x = operand then e.uses.insert ⟨user, len⟩ else e.uses } := by
      split <;> rfl
    rw [atOperand]
    split <;> simp_all [Value.extended, Value.pushOperand]
  simp only [pushOperand, bind_eq_ok, value_eq_ok, updateValue_eq_ok]
  refine ⟨fun h => ?_, fun h => ?_⟩
  · obtain ⟨v, hv, _, ⟨ho, rfl⟩, -, rfl⟩ := h
    refine ⟨v, hv, ho, ?_⟩
    simp only [mapValues_mapValues, closed, extended]
  · obtain ⟨v, hv, ho, rfl⟩ := h
    refine ⟨v, hv, _, ⟨ho, rfl⟩, by simpa using Table.mem_of_getElem? hv, ?_⟩
    simp only [mapValues_mapValues, closed, extended]

end Graph

/-! ## What a write leaves alone -/

/-- The two entries differ at most in what their slots hold and in their uses. -/
structure Value.SameFrame (v v' : Value) : Prop where
  ty : v'.ty = v.ty
  kind : v'.kind = v.kind
  name : v'.name = v.name
  parent : v'.parent = v.parent
  arity : v'.operands.length = v.operands.length

theorem Value.SameFrame.isBlockSlot {v v' : Value} (h : v.SameFrame v') (i : Nat) :
    v'.isBlockSlot i = v.isBlockSlot i := by
  simp only [Value.isBlockSlot, h.kind, h.arity]

theorem Value.SameFrame.isCalleeSlot {v v' : Value} (h : v.SameFrame v') (i : Nat) :
    v'.isCalleeSlot i = v.isCalleeSlot i := by
  simp only [Value.isCalleeSlot, h.kind]

theorem Value.sameFrame_rewired (u : Use) (old new x : ValueId) (v : Value) :
    v.SameFrame (v.rewired u old new x) := by
  refine ⟨rfl, rfl, rfl, rfl, ?_⟩
  simp only [rewired]
  split <;> simp

namespace Graph

variable {g g' : Graph}

/-- The two graphs differ at most in what slots hold, in uses and in edges. -/
def Framed (g g' : Graph) : Prop :=
  ∃ (f : ValueId → Value → Value) (h : BlockId → Block → Block),
    (∀ (x : ValueId) (e : Value), e.SameFrame (f x e)) ∧
    (∀ x b, (h x b).function = b.function ∧ (h x b).insts = b.insts) ∧
    g' = (g.mapValues f).mapBlocks h

theorem Framed.refl (g : Graph) : g.Framed g := by
  refine ⟨fun _ e => e, fun _ b => b, fun _ _ => ⟨rfl, rfl, rfl, rfl, rfl⟩, fun _ _ => ⟨rfl, rfl⟩, ?_⟩
  rw [mapBlocks_id fun _ _ _ => rfl]
  exact (congrArg (fun values => { g with values }) (Table.map_id _ fun _ _ _ => rfl)).symm

theorem Framed.trans {g'' : Graph} (h : g.Framed g') (h' : g'.Framed g'') : g.Framed g'' := by
  obtain ⟨f, b, hf, hb, rfl⟩ := h
  obtain ⟨f', b', hf', hb', rfl⟩ := h'
  refine ⟨fun x e => f' x (f x e), fun x e => b' x (b x e), fun x e => ?_, fun x e => ?_, ?_⟩
  · have h1 := hf x e
    have h2 := hf' x (f x e)
    exact ⟨h2.ty.trans h1.ty, h2.kind.trans h1.kind, h2.name.trans h1.name, h2.parent.trans h1.parent,
      h2.arity.trans h1.arity⟩
  · exact ⟨(hb' x _).1.trans (hb x e).1, (hb' x _).2.trans (hb x e).2⟩
  · rw [← mapValues_mapValues f f']
    exact mapBlocks_mapBlocks (g := (g.mapValues f).mapValues f') b b'

theorem Framed.value (h : g.Framed g') {x : ValueId} {e : Value} (he : g.values[x]? = some e) :
    ∃ e', g'.values[x]? = some e' ∧ e.SameFrame e' := by
  obtain ⟨f, b, hf, -, rfl⟩ := h
  exact ⟨f x e, by simp [he], hf x e⟩

theorem Framed.mem_blocks (h : g.Framed g') (x : BlockId) : x ∈ g'.blocks ↔ x ∈ g.blocks := by
  obtain ⟨f, b, -, -, rfl⟩ := h
  exact mem_mapBlocks b x

theorem Framed.functions (h : g.Framed g') : g'.functions = g.functions := by
  obtain ⟨f, b, -, -, rfl⟩ := h
  rfl

theorem framed_rewired (u : Use) (old new : ValueId) : g.Framed (g.rewired u old new) :=
  ⟨Value.rewired u old new, fun _ b => b, fun x e => Value.sameFrame_rewired u old new x e,
    fun _ _ => ⟨rfl, rfl⟩, (mapBlocks_id fun _ _ _ => rfl).symm⟩

theorem framed_mapBlocks {h : BlockId → Block → Block}
    (same : ∀ x b, (h x b).function = b.function ∧ (h x b).insts = b.insts) :
    g.Framed (g.mapBlocks h) := by
  refine ⟨fun _ e => e, h, fun _ _ => ⟨rfl, rfl, rfl, rfl, rfl⟩, same, ?_⟩
  exact congrArg (fun values => { g.mapBlocks h with values }) (Table.map_id _ fun _ _ _ => rfl).symm

theorem writeOperand_framed {user new old : ValueId} {index : Nat}
    (h : g.writeOperand user index new = .ok (old, g')) : g.Framed g' := by
  obtain ⟨v, -, -, ⟨-, rfl⟩ | ⟨-, -, -, h⟩⟩ := writeOperand_eq_ok.1 h
  · exact .refl _
  · split at h
    · rw [h]
      exact framed_rewired _ _ _
    · obtain ⟨g₁, hu, hl⟩ := h
      obtain ⟨gone, -, rfl⟩ := unlinkUnused_ok hu
      obtain ⟨-, -, rfl⟩ := link_eq_ok.1 hl
      refine (framed_rewired ⟨user, index⟩ old new).trans ?_
      rw [mapBlocks_mapBlocks]
      exact framed_mapBlocks fun _ _ => ⟨rfl, rfl⟩

theorem Framed.accepts (h : g.Framed g') {v v' : Value} (same : v.SameFrame v') (index : Nat)
    (value : ValueId) : g'.Accepts v' index value ↔ g.Accepts v index value := by
  refine ⟨fun ok => ⟨fun hb => ?_, fun hf => ?_⟩, fun ok => ⟨fun hb => ?_, fun hf => ?_⟩⟩
  · exact (h.mem_blocks value).1 (ok.block ((same.isBlockSlot index).trans hb))
  · exact h.functions ▸ ok.function ((same.isCalleeSlot index).trans hf)
  · exact (h.mem_blocks value).2 (ok.block ((same.isBlockSlot index).symm.trans hb))
  · exact h.functions.symm ▸ ok.function ((same.isCalleeSlot index).symm.trans hf)

theorem Framed.slotRefusal_eq_none (h : g.Framed g') {user value : ValueId} {index : Nat}
    (ok : g.slotRefusal? user index value = .ok none) : g'.slotRefusal? user index value = .ok none := by
  obtain ⟨v, hv, range, accepts⟩ := Graph.slotRefusal_eq_none.1 ok
  obtain ⟨v', hv', same⟩ := h.value hv
  refine Graph.slotRefusal_eq_none.2 ⟨v', hv', ?_, (h.accepts same index value).2 accepts⟩
  rw [same.arity]
  exact range

theorem firstRefusal_eq_none {value : ValueId} {uses : List Use} :
    g.firstRefusal? value uses = .ok none ↔
      ∀ u ∈ uses, g.slotRefusal? u.user u.index value = .ok none := by
  induction uses with
  | nil => simp [firstRefusal?]
  | cons u uses ih =>
    simp only [firstRefusal?, bind_eq_ok, List.forall_mem_cons, ← ih]
    refine ⟨fun h => ?_, fun h => ⟨none, h.1, h.2⟩⟩
    obtain ⟨refusal, hr, h⟩ := h
    cases refusal with
    | none => exact ⟨hr, h⟩
    | some reason => cases h

end Graph

end SsaGraph
