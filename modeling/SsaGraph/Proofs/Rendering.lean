import SsaGraph.Proofs.Naming
import SsaGraph.Proofs.Shapes
import SsaGraph.Text.Dump

/-!
# What rendering does

Rendering gives out names on the way, and what it has named keeps its name until the scope ends. So the
text of a piece can be said in terms of any names that come later: `Writes` states text and notes in this
way, and pieces are put together without following the names through. Where the text does not matter,
`Quiet` says that rendering goes through and notes nothing, and `Breaks` that it faults.

Results:
* `Writes.bind`, `Writes.mapM`, `Writes.forM`, `Breaks.bind`, `Breaks.after`: rules for renderings made of
  others;
* `writes_phiEntries`: the entries of an attached phi and what is noted about them;
* `writes_instruction`, `breaks_instruction`: in a well-formed graph an attached instruction is rendered,
  unless it reads through something that is not a pointer.
-/
namespace SsaGraph.Text

variable {α β : Type}

/-! ## Renderings that go through and renderings that fault -/

/-- The rendering goes through, whatever was rendered before. It results in `text n` and notes
`notes n`, where `n` are the names given by then or any that keep these. -/
def Writes (x : Render α) (text : Names → α) (notes : Names → List Diagnostic) : Prop :=
  ∀ pen : Pen, ∃ names : Names, pen.names.Keeps names ∧ ∀ n, names.Keeps n →
    x.run pen = (.ok (text n), { names, notes := pen.notes ++ notes n })

/-- The rendering goes through and notes nothing. -/
def Quiet (x : Render α) : Prop := ∃ text, Writes x text fun _ => []

/-- The rendering faults, whatever was rendered before. -/
def Breaks (x : Render α) : Prop := ∀ pen : Pen, ∃ fault pen', x.run pen = (.error fault, pen')

theorem run_bind (x : Render α) (f : α → Render β) (pen : Pen) :
    (x >>= f).run pen = ExceptT.bindCont f (x.run pen).1 (x.run pen).2 := rfl

theorem run_bind_ok {x : Render α} {f : α → Render β} {pen pen' : Pen} {a : α}
    (h : x.run pen = (.ok a, pen')) : (x >>= f).run pen = (f a).run pen' := by
  rw [run_bind, h]
  rfl

theorem run_bind_error {x : Render α} {f : α → Render β} {pen pen' : Pen} {fault : Fault}
    (h : x.run pen = (.error fault, pen')) : (x >>= f).run pen = (.error fault, pen') := by
  rw [run_bind, h]
  rfl

theorem run_bind_eq_ok {x : Render α} {f : α → Render β} {pen pen' : Pen} {b : β}
    (h : (x >>= f).run pen = (.ok b, pen')) :
    ∃ a mid, x.run pen = (.ok a, mid) ∧ (f a).run mid = (.ok b, pen') := by
  cases run : x.run pen with
  | mk result mid =>
    cases result with
    | error fault =>
      rw [run_bind_error run] at h
      cases h
    | ok a => exact ⟨a, mid, rfl, (run_bind_ok run).symm.trans h⟩

theorem lift_bind {x : Except Fault α} {a : α} (h : x = .ok a) (f : α → Render β) :
    ((liftM x : Render α) >>= f) = f a := by
  subst h
  rfl

theorem Writes.pure (a : α) : Writes (Pure.pure a) (fun _ => a) fun _ => [] := fun pen =>
  ⟨pen.names, .refl _, fun _ _ => by rw [List.append_nil]; rfl⟩

theorem Writes.bind {x : Render α} {f : α → Render β} {text : Names → α}
    {notes : Names → List Diagnostic} {text' : α → Names → β} {notes' : α → Names → List Diagnostic}
    (hx : Writes x text notes) (hf : ∀ a, Writes (f a) (text' a) (notes' a)) :
    Writes (x >>= f) (fun n => text' (text n) n) fun n => notes n ++ notes' (text n) n := by
  intro pen
  obtain ⟨names, keeps, run⟩ := hx pen
  obtain ⟨names', keeps', run'⟩ := hf (text names) { names, notes := pen.notes ++ notes names }
  refine ⟨names', keeps.trans keeps', fun n later => ?_⟩
  have first := run names (.refl _)
  have same := run n (keeps'.trans later)
  rw [first] at same
  obtain ⟨texts, pens⟩ := Prod.mk.inj same
  rw [run_bind_ok first, run' n later, Except.ok.inj texts, ← List.append_assoc]
  rw [congrArg Pen.notes pens]

theorem Writes.congr {x : Render α} {text text' : Names → α} {notes notes' : Names → List Diagnostic}
    (h : Writes x text notes) (texts : ∀ n, text n = text' n) (same : ∀ n, notes n = notes' n) :
    Writes x text' notes' := by
  rw [← funext texts, ← funext same]
  exact h

theorem Quiet.pure (a : α) : Quiet (Pure.pure a) := ⟨_, .pure a⟩

/-- What goes on without a note keeps the notes as they are. -/
theorem Writes.bind_quiet {x : Render α} {f : α → Render β} {text : Names → α}
    {notes : Names → List Diagnostic} (hx : Writes x text notes) (hf : ∀ a, Quiet (f a)) :
    ∃ text', Writes (x >>= f) text' notes := by
  choose text' rest using hf
  exact ⟨_, (hx.bind rest).congr (fun _ => rfl) fun _ => List.append_nil _⟩

theorem Quiet.bind {x : Render α} {f : α → Render β} (hx : Quiet x) (hf : ∀ a, Quiet (f a)) :
    Quiet (x >>= f) := by
  obtain ⟨text, writes⟩ := hx
  exact writes.bind_quiet hf

theorem Writes.mapM {f : α → Render β} {text : α → Names → β} {l : List α}
    (each : ∀ a ∈ l, Writes (f a) (text a) fun _ => []) :
    Writes (l.mapM f) (fun n => l.map (text · n)) fun _ => [] := by
  induction l with
  | nil => exact .pure []
  | cons a l ih =>
    rw [List.mapM_cons]
    exact (each a (List.mem_cons_self ..)).bind fun b =>
      (ih fun a ha => each a (List.mem_cons_of_mem _ ha)).bind fun bs => .pure (b :: bs)

theorem Quiet.mapM {f : α → Render β} {l : List α} (each : ∀ a ∈ l, Quiet (f a)) :
    Quiet (l.mapM f) := by
  induction l with
  | nil => exact .pure []
  | cons a l ih =>
    rw [List.mapM_cons]
    exact (each a (List.mem_cons_self ..)).bind fun b =>
      (ih fun a ha => each a (List.mem_cons_of_mem _ ha)).bind fun bs => .pure (b :: bs)

theorem Writes.forM {f : α → Render Unit} {notes : α → Names → List Diagnostic} {l : List α}
    (each : ∀ a ∈ l, Writes (f a) (fun _ => ()) (notes a)) :
    Writes (l.forM f) (fun _ => ()) fun n => l.flatMap (notes · n) := by
  induction l with
  | nil => exact .pure ()
  | cons a l ih =>
    exact (each a (List.mem_cons_self ..)).bind fun _ =>
      ih fun a ha => each a (List.mem_cons_of_mem _ ha)

theorem writes_note (d : Diagnostic) : Writes (note d) (fun _ => ()) fun _ => [d] := fun pen =>
  ⟨pen.names, .refl _, fun _ _ => rfl⟩

theorem writes_nameOf (v : ValueId) (e : Value) :
    Writes (nameOf v e) (fun n => (n.name v e).1) fun _ => [] := by
  intro pen
  refine ⟨(pen.names.name v e).2, pen.names.keeps_name v e, fun n later => ?_⟩
  simp only [Names.name_of_keeps later, List.append_nil]
  rfl

theorem quiet_bareNameOf (v : ValueId) (e : Value) : Quiet (bareNameOf v e) := by
  refine ⟨fun n => (n.bareName v e).1, fun pen => ?_⟩
  refine ⟨(pen.names.bareName v e).2, pen.names.keeps_name v e, fun n later => ?_⟩
  simp only [Names.bareName_of_keeps later, List.append_nil]
  rfl

theorem breaks_throw (fault : Fault) : Breaks (throw fault : Render α) := fun pen =>
  ⟨fault, pen, rfl⟩

theorem breaks_lift {x : Except Fault α} (h : ∀ a, x ≠ .ok a) : Breaks (liftM x : Render α) := by
  intro pen
  cases x with
  | error fault => exact ⟨fault, pen, rfl⟩
  | ok a => exact absurd rfl (h a)

theorem Breaks.bind {x : Render α} (hx : Breaks x) (f : α → Render β) : Breaks (x >>= f) := by
  intro pen
  obtain ⟨fault, pen', run⟩ := hx pen
  exact ⟨fault, pen', run_bind_error run⟩

/-- Whatever comes before a fault, there is a fault. -/
theorem Breaks.after {f : α → Render β} (hf : ∀ a, Breaks (f a)) (x : Render α) : Breaks (x >>= f) := by
  intro pen
  cases run : x.run pen with
  | mk result pen' =>
    cases result with
    | error fault => exact ⟨fault, pen', run_bind_error run⟩
    | ok a =>
      rw [run_bind_ok run]
      exact hf a pen'

theorem breaks_mapM {f : α → Render β} {l : List α} {a : α} (member : a ∈ l) (broken : Breaks (f a)) :
    Breaks (l.mapM f) := by
  induction l with
  | nil => cases member
  | cons b l ih =>
    rw [List.mapM_cons]
    rcases List.mem_cons.1 member with rfl | later
    · exact broken.bind _
    · exact .after (fun _ => (ih later).bind _) _

end SsaGraph.Text

namespace SsaGraph

/-! ## Operands -/

/-- How an operand reads under these names. -/
def Graph.shown (g : Graph) (n : Names) (v : ValueId) : String :=
  match g.values[v]? with
  | none => ""
  | some e =>
    match e.kind with
    | .integer k => toString k.toInt
    | .undef => "undef"
    | _ => (n.name v e).1

namespace Text

variable {g : Graph} {v : ValueId} {e : Value}

theorem writes_operand (live : v ∈ g.values) : Writes (operand g v) (g.shown · v) fun _ => [] := by
  obtain ⟨e, he⟩ := Table.getElem?_of_mem live
  rw [operand, lift_bind (Graph.value_eq_ok.2 he)]
  unfold Graph.shown
  rw [he]
  dsimp only
  cases e.kind with
  | integer | undef => exact .pure _
  | param | global | function | block | binary | compare | call | branch | ret | elemPtr | store | load
  | alloca | zext | phi => exact writes_nameOf v e

theorem breaks_value (dead : v ∉ g.values) : Breaks (liftM (g.value v) : Render Value) :=
  breaks_lift fun _ h => dead (Table.mem_of_getElem? (Graph.value_eq_ok.1 h))

theorem quiet_typedOperand (live : v ∈ g.values) : Quiet (typedOperand g v) := by
  obtain ⟨e, he⟩ := Table.getElem?_of_mem live
  rw [typedOperand, lift_bind (Graph.value_eq_ok.2 he)]
  exact Quiet.bind ⟨_, writes_operand live⟩ fun _ => .pure _

theorem breaks_typedOperand (dead : v ∉ g.values) : Breaks (typedOperand g v) :=
  (breaks_value dead).bind _

theorem quiet_typedOperands {vs : List ValueId} (live : ∀ v ∈ vs, v ∈ g.values) :
    Quiet (typedOperands g vs) :=
  (Quiet.mapM fun v hv => quiet_typedOperand (live v hv)).bind fun _ => .pure _

theorem breaks_typedOperands {vs : List ValueId} (member : v ∈ vs) (dead : v ∉ g.values) :
    Breaks (typedOperands g vs) :=
  (breaks_mapM member (breaks_typedOperand dead)).bind _

theorem quiet_operandPair {lhs rhs : ValueId} (operands : e.operands = [lhs, rhs])
    (left : lhs ∈ g.values) (right : rhs ∈ g.values) : Quiet (operandPair g e) := by
  obtain ⟨l, hl⟩ := Table.getElem?_of_mem left
  obtain ⟨r, hr⟩ := Table.getElem?_of_mem right
  have first : e.operand 0 = .ok lhs := Value.operand_eq_ok.2 (by simp [operands])
  have second : e.operand 1 = .ok rhs := Value.operand_eq_ok.2 (by simp [operands])
  rw [operandPair, lift_bind first, lift_bind second, lift_bind (Graph.value_eq_ok.2 hl),
    lift_bind (Graph.value_eq_ok.2 hr)]
  refine (quiet_typedOperand left).bind fun _ => ?_
  dsimp only
  split
  · exact Quiet.bind ⟨_, writes_operand right⟩ fun _ => .pure _
  · exact (quiet_typedOperand right).bind fun _ => .pure _

end Text

/-! ## Phis -/

theorem Value.mem_of_mem_pairUp {l : List ValueId} {p : ValueId × BlockId} (h : p ∈ pairUp l) :
    p.1 ∈ l ∧ p.2 ∈ l := by
  fun_induction pairUp l with
  | case1 value block rest ih =>
    rcases List.mem_cons.1 h with rfl | later
    · simp
    · have := ih later
      simp [this]
  | case2 => cases h

namespace Graph

/-- The incoming pairs of an attached phi whose block is no predecessor of the block of the phi; none
for any other value. -/
def strays (g : Graph) (v : Value) : List (ValueId × BlockId) :=
  match v.kind, v.parent with
  | .phi, some block => (Value.pairUp v.operands).filter (·.2 ∉ g.predsOf block)
  | _, _ => []

/-- Whether the value is an attached phi that has fewer pairs than its block has predecessors. -/
def isShort (g : Graph) (v : Value) : Bool :=
  match v.kind, v.parent with
  | .phi, some block => (Value.pairUp v.operands).length < (g.predsOf block).length
  | _, _ => false

/-- What is noted about an attached instruction under these names: an error for each stray pair and a
warning for a phi that is short of pairs. -/
def diagnostics (g : Graph) (n : Names) (inst : ValueId) (v : Value) : List Diagnostic :=
  (g.strays v).map (fun pair => .strayIncoming (g.shown n pair.2) (n.name inst v).1) ++
    if g.isShort v then [.incompletePhi (n.name inst v).1] else []

/-- The entries of an attached phi under these names: its pairs and, if it is short of pairs, the
predecessors that no pair names. -/
def entries (g : Graph) (n : Names) (v : Value) (preds : List BlockId) : List String :=
  ((Value.pairUp v.operands).map fun pair =>
      "[ " ++ g.shown n pair.1 ++ ", " ++ g.shown n pair.2 ++ " ]") ++
    if g.isShort v then
      (Text.missingPreds preds (Value.pairUp v.operands)).map fun pred =>
        "[ undef, " ++ g.shown n pred ++ " ]"
    else []

theorem predsOf_eq {g : Graph} {block : BlockId} {b : Block} (found : g.blocks[block]? = some b) :
    g.predsOf block = b.preds := by
  simp [predsOf, found]

end Graph

namespace Text

variable {g : Graph} {inst : ValueId} {v : Value}

theorem writes_recordedEntries {pairs : List (ValueId × BlockId)}
    (live : ∀ pair ∈ pairs, pair.1 ∈ g.values ∧ pair.2 ∈ g.values) :
    Writes (recordedEntries g pairs)
      (fun n => pairs.map fun pair => "[ " ++ g.shown n pair.1 ++ ", " ++ g.shown n pair.2 ++ " ]")
      fun _ => [] :=
  Writes.mapM fun pair member =>
    (writes_operand (live pair member).1).bind fun _ =>
      (writes_operand (live pair member).2).bind fun _ => .pure _

theorem writes_undefEntries {blocks : List BlockId} (live : ∀ b ∈ blocks, b ∈ g.values) :
    Writes (undefEntries g blocks)
      (fun n => blocks.map fun b => "[ undef, " ++ g.shown n b ++ " ]") fun _ => [] :=
  Writes.mapM fun b member => (writes_operand (live b member)).bind fun _ => .pure _

theorem flatMap_ite {α β : Type} (p : α → Prop) [DecidablePred p] (f : α → β) (l : List α) :
    (l.flatMap fun a => if p a then [f a] else []) = (l.filter p).map f := by
  induction l with
  | nil => rfl
  | cons a l ih =>
    rw [List.flatMap_cons, ih, List.filter_cons]
    by_cases h : p a <;> simp [h]

theorem writes_noteStray {pairs : List (ValueId × BlockId)} (preds : List BlockId)
    (live : ∀ pair ∈ pairs, pair.2 ∈ g.values) :
    Writes (noteStray g inst v preds pairs) (fun _ => ()) fun n =>
      (pairs.filter (·.2 ∉ preds)).map fun pair =>
        .strayIncoming (g.shown n pair.2) (n.name inst v).1 := by
  have each : ∀ pair ∈ pairs, Writes
      (if pair.2 ∉ preds then do note (.strayIncoming (← operand g pair.2) (← nameOf inst v))
        else Pure.pure () : Render Unit)
      (fun _ => ()) fun n =>
        if pair.2 ∉ preds then [.strayIncoming (g.shown n pair.2) (n.name inst v).1] else [] := by
    intro pair member
    split
    · exact (writes_operand (live pair member)).bind fun _ =>
        (writes_nameOf inst v).bind fun _ => writes_note _
    · exact .pure ()
  exact (Writes.forM each).congr (fun _ => rfl) fun n => flatMap_ite ..

theorem writes_phiEntries {block : BlockId} {b : Block} (phi : v.kind = .phi)
    (attached : v.parent = some block) (found : g.blocks[block]? = some b)
    (operands : ∀ op ∈ v.operands, op ∈ g.values) (preds : ∀ p ∈ b.preds, p ∈ g.values) :
    Writes (phiEntries g inst v) (g.entries · v b.preds) (g.diagnostics · inst v) := by
  have live : ∀ pair ∈ Value.pairUp v.operands, pair.1 ∈ g.values ∧ pair.2 ∈ g.values := by
    intro pair member
    have := Value.mem_of_mem_pairUp member
    exact ⟨operands _ this.1, operands _ this.2⟩
  have strays : g.strays v = (Value.pairUp v.operands).filter (·.2 ∉ b.preds) := by
    simp only [Graph.strays, phi, attached, Graph.predsOf_eq found]
  have short : g.isShort v = decide ((Value.pairUp v.operands).length < b.preds.length) := by
    simp only [Graph.isShort, phi, attached, Graph.predsOf_eq found]
  -- what follows the stray pairs
  have completion : ∀ recorded : List String, Writes
      (if (Value.pairUp v.operands).length < b.preds.length then do
          let added ← undefEntries g (missingPreds b.preds (Value.pairUp v.operands))
          note (.incompletePhi (← nameOf inst v))
          Pure.pure (recorded ++ added)
        else Pure.pure recorded : Render (List String))
      (fun n => recorded ++ if (Value.pairUp v.operands).length < b.preds.length then
          (missingPreds b.preds (Value.pairUp v.operands)).map fun pred =>
            "[ undef, " ++ g.shown n pred ++ " ]"
        else [])
      fun n => if (Value.pairUp v.operands).length < b.preds.length then
        [.incompletePhi (n.name inst v).1] else [] := by
    intro recorded
    split
    · refine (writes_undefEntries fun p hp => ?_).bind fun _ => (writes_nameOf inst v).bind fun _ =>
        (writes_note _).bind fun _ => .pure _
      exact preds p (List.mem_filter.1 hp).1
    · exact (Writes.pure recorded).congr (fun _ => (List.append_nil _).symm) fun _ => rfl
  rw [phiEntries, lift_bind (Value.incomings_eq phi)]
  simp only [attached, lift_bind (Graph.block_eq_ok.2 found), Graph.entries, Graph.diagnostics, strays,
    short, decide_eq_true_eq]
  exact ((writes_recordedEntries live).bind fun recorded =>
    (writes_noteStray b.preds fun pair member => (live pair member).2).bind fun _ =>
      completion recorded).congr (fun _ => rfl) fun _ => rfl

end Text

/-! ## Instructions -/

namespace Graph

/-- A load or an element pointer whose base is no pointer. -/
def LostBase (g : Graph) (v : Value) : Prop :=
  (v.kind = .load ∨ ∃ elem, v.kind = .elemPtr elem) ∧
    ∃ base ty, v.operands[0]? = some base ∧ g.tyOf base = some ty ∧ ty.isPointer = false

variable {g : Graph} {inst : ValueId} {v : Value}

/-- Loads and element pointers have a base. -/
theorem WellFormed.base (wf : g.WellFormed) (entry : g.values[inst]? = some v)
    (kind : v.kind = .load ∨ ∃ elem, v.kind = .elemPtr elem) :
    ∃ base o, v.operands[0]? = some base ∧ g.values[base]? = some o := by
  have arity : 0 < v.operands.length := by
    have arity := wf.shaped inst v entry
    rcases kind with load | ⟨elem, elemPtr⟩
    · rw [load] at arity
      simp only [Kind.Arity] at arity
      omega
    · rw [elemPtr] at arity
      exact arity
  obtain ⟨base, rest, operands⟩ := List.exists_cons_of_length_pos arity
  obtain ⟨o, held⟩ := Table.getElem?_of_mem (wf.useDef.operands_live entry base (by simp [operands]))
  exact ⟨base, o, by simp [operands], held⟩

/-- A base that is not lost is a pointer. -/
theorem pointee_of_not_lostBase {base : ValueId} {o : Value} (sound : ¬g.LostBase v)
    (kind : v.kind = .load ∨ ∃ elem, v.kind = .elemPtr elem) (first : v.operands[0]? = some base)
    (held : g.values[base]? = some o) : ∃ ty, o.ty.pointee? = some ty := by
  have pointer : o.ty.isPointer = true := by
    by_contra lost
    exact sound ⟨kind, base, o.ty, first, tyOf_eq_some.2 ⟨o, held, rfl⟩, by simpa using lost⟩
  cases ty : o.ty with
  | pointer pointee => exact ⟨pointee, rfl⟩
  | int | float | void | label | array | function =>
    rw [ty] at pointer
    cases pointer

theorem loadTy_eq_ok {base : ValueId} {o : Value} (entry : g.values[inst]? = some v)
    (kind : v.kind = .load) (first : v.operands[0]? = some base) (held : g.values[base]? = some o)
    {ty : Ty} : g.loadTy inst = .ok ty ↔ o.ty.pointee? = some ty := by
  simp only [loadTy, bind_eq_ok, value_eq_ok, require_eq_ok, Value.operand_eq_ok, entry, Option.some.injEq,
    exists_eq_left', kind, first, held, true_and]
  cases o.ty.pointee? with
  | none => simp
  | some pointee =>
    rw [pure_eq_ok]
    simp [eq_comm]

theorem diagnostics_of_ne_phi (noPhi : v.kind ≠ .phi) (n : Names) : g.diagnostics n inst v = [] := by
  have strays : g.strays v = [] := by
    unfold strays
    split <;> simp_all
  have short : g.isShort v = false := by
    unfold isShort
    split <;> simp_all
  simp [diagnostics, strays, short]

end Graph

namespace Text

variable {g : Graph} {inst : ValueId} {v : Value}

theorem quiet_arguments (wf : g.WellFormed) (entry : g.values[inst]? = some v)
    (isInst : v.kind.isInst = true) (noPhi : v.kind ≠ .phi) (sound : ¬g.LostBase v) :
    Quiet (arguments g inst v) := by
  have arity := wf.shaped inst v entry
  have live := wf.useDef.operands_live entry
  have pair : v.operands.length = 2 → Quiet (operandPair g v) := by
    intro two
    obtain ⟨lhs, rhs, operands⟩ := List.length_eq_two.1 two
    exact quiet_operandPair operands (live lhs (by simp [operands])) (live rhs (by simp [operands]))
  unfold arguments
  cases kind : v.kind with
  | integer | undef | param | global | function | block =>
    rw [kind] at isInst
    cases isInst
  | phi => exact absurd kind noPhi
  | binary op =>
    rw [kind] at arity
    exact pair arity
  | compare op =>
    rw [kind] at arity
    exact (pair arity).bind fun _ => .pure _
  | call =>
    rw [kind] at arity
    obtain ⟨callee, args, operands⟩ := List.exists_cons_of_length_pos arity
    obtain ⟨f, hf⟩ := Table.getElem?_of_mem (live callee (by simp [operands]))
    have target : v.callee = .ok callee := by
      simp only [Value.callee, bind_eq_ok, require_eq_ok, Value.operand_eq_ok]
      exact ⟨(), kind, by simp [operands]⟩
    have given : v.args = .ok args := by
      simp only [Value.args, bind_eq_ok, require_eq_ok]
      exact ⟨(), kind, by simp [operands, pure_eq_ok]⟩
    dsimp only
    rw [lift_bind target, lift_bind (Graph.value_eq_ok.2 hf)]
    refine Quiet.bind ⟨_, writes_nameOf callee f⟩ fun _ => ?_
    rw [lift_bind given]
    exact (quiet_typedOperands fun a ha => live a (by simp [operands, ha])).bind fun _ => .pure _
  | branch => exact quiet_typedOperands live
  | ret =>
    cases operands : v.operands with
    | nil => exact .pure _
    | cons result rest => exact quiet_typedOperand (live result (by simp [operands]))
  | elemPtr elem =>
    obtain ⟨base, o, first, held⟩ := wf.base entry (.inr ⟨elem, kind⟩)
    obtain ⟨ty, pointer⟩ := Graph.pointee_of_not_lostBase sound (.inr ⟨elem, kind⟩) first held
    dsimp only
    rw [lift_bind (Value.operand_eq_ok.2 first), lift_bind (Graph.value_eq_ok.2 held)]
    simp only [pointer]
    exact (quiet_typedOperands live).bind fun _ => .pure _
  | store =>
    rw [kind] at arity
    obtain ⟨value, dest, operands⟩ := List.length_eq_two.1 arity
    have first : v.operand 0 = .ok value := Value.operand_eq_ok.2 (by simp [operands])
    have second : v.operand 1 = .ok dest := Value.operand_eq_ok.2 (by simp [operands])
    dsimp only
    rw [lift_bind first]
    refine (quiet_typedOperand (live value (by simp [operands]))).bind fun _ => ?_
    rw [lift_bind second]
    exact (quiet_typedOperand (live dest (by simp [operands]))).bind fun _ => .pure _
  | load =>
    obtain ⟨base, o, first, held⟩ := wf.base entry (.inl kind)
    obtain ⟨ty, pointer⟩ := Graph.pointee_of_not_lostBase sound (.inl kind) first held
    dsimp only
    rw [lift_bind ((Graph.loadTy_eq_ok entry kind first held).2 pointer),
      lift_bind (Value.operand_eq_ok.2 first)]
    exact (quiet_typedOperand (Table.mem_of_getElem? held)).bind fun _ => .pure _
  | alloca ty => exact .pure _
  | zext ty =>
    rw [kind] at arity
    obtain ⟨value, operands⟩ := List.length_eq_one_iff.1 arity
    have first : v.operand 0 = .ok value := Value.operand_eq_ok.2 (by simp [operands])
    dsimp only
    rw [lift_bind first]
    exact (quiet_typedOperand (live value (by simp [operands]))).bind fun _ => .pure _

theorem breaks_arguments (entry : g.values[inst]? = some v) (lost : g.LostBase v) :
    Breaks (arguments g inst v) := by
  obtain ⟨kind, base, ty, first, known, noPointer⟩ := lost
  obtain ⟨o, held, rfl⟩ := Graph.tyOf_eq_some.1 known
  have none : o.ty.pointee? = none := by
    cases ty : o.ty with
    | pointer => simp [ty, Ty.isPointer] at noPointer
    | int | float | void | label | array | function => rfl
  unfold arguments
  rcases kind with load | ⟨elem, elemPtr⟩
  · rw [load]
    refine (breaks_lift fun ty h => ?_).bind _
    rw [Graph.loadTy_eq_ok entry load first held, none] at h
    cases h
  · rw [elemPtr]
    dsimp only
    rw [lift_bind (Value.operand_eq_ok.2 first), lift_bind (Graph.value_eq_ok.2 held), none]
    exact breaks_throw _

section Attached

variable {block : BlockId} (wf : g.WellFormed) (entry : g.values[inst]? = some v)
  (attached : v.parent = some block)

include wf entry attached

theorem writes_attachedEntries (phi : v.kind = .phi) :
    Writes (phiEntries g inst v) (g.entries · v (g.predsOf block)) (g.diagnostics · inst v) := by
  have parent : g.parentOf inst = some block := Graph.parentOf_eq_some.2 ⟨v, entry, attached⟩
  obtain ⟨b, found, -⟩ := Graph.mem_instsOf.1 ((wf.placed.filed.iff inst block).1 parent)
  have preds : ∀ p ∈ b.preds, p ∈ g.values := by
    intro p hp
    have edge := (wf.records.preds p block).1 (Graph.mem_predsOf.2 ⟨b, found, hp⟩)
    exact wf.catalogued.live_block (wf.records.mem_blocks edge).1
  rw [Graph.predsOf_eq found]
  exact writes_phiEntries phi attached found (wf.useDef.operands_live entry) preds

theorem writes_arguments (sound : ¬g.LostBase v) :
    ∃ text, Writes (arguments g inst v) text (g.diagnostics · inst v) := by
  by_cases phi : v.kind = .phi
  · rw [arguments, phi]
    refine (writes_attachedEntries wf entry attached phi).bind_quiet fun texts => ?_
    cases texts with
    | nil => exact .pure _
    | cons => exact .pure _
  · obtain ⟨kind, known, isInst⟩ := wf.placed.inst inst block
      (Graph.parentOf_eq_some.2 ⟨v, entry, attached⟩)
    obtain ⟨e, he, rfl⟩ := Graph.kindOf_eq_some.1 known
    rw [entry] at he
    cases he
    obtain ⟨text, writes⟩ := quiet_arguments wf entry isInst phi sound
    exact ⟨text, writes.congr (fun _ => rfl) fun n => (Graph.diagnostics_of_ne_phi phi n).symm⟩

/-- An attached instruction is written with its opcode before its arguments and, unless it has no value,
its name before that. -/
theorem instruction_eq : ∃ op, v.kind.opcode? = some op ∧ instruction g inst = do
    let body := op.text ++ " " ++ (← arguments g inst v)
    if v.isVoid then return body else return (← nameOf inst v) ++ " = " ++ body := by
  obtain ⟨kind, known, isInst⟩ := wf.placed.inst inst block
    (Graph.parentOf_eq_some.2 ⟨v, entry, attached⟩)
  obtain ⟨e, he, rfl⟩ := Graph.kindOf_eq_some.1 known
  rw [entry] at he
  cases he
  obtain ⟨op, opcode⟩ := Option.isSome_iff_exists.1 isInst
  refine ⟨op, opcode, ?_⟩
  rw [instruction, lift_bind (Graph.value_eq_ok.2 entry)]
  simp [attached, opcode]

theorem writes_instruction (sound : ¬g.LostBase v) :
    ∃ text, Writes (instruction g inst) text (g.diagnostics · inst v) := by
  obtain ⟨op, -, code⟩ := instruction_eq wf entry attached
  obtain ⟨text, writes⟩ := writes_arguments wf entry attached sound
  rw [code]
  refine writes.bind_quiet fun args => ?_
  dsimp only
  split
  · exact .pure _
  · exact Quiet.bind ⟨_, writes_nameOf inst v⟩ fun _ => .pure _

theorem breaks_instruction (lost : g.LostBase v) : Breaks (instruction g inst) := by
  obtain ⟨op, -, code⟩ := instruction_eq wf entry attached
  rw [code]
  exact (breaks_arguments entry lost).bind _

end Attached

end Text

end SsaGraph
