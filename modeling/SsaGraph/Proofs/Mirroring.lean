import SsaGraph.Proofs.Rendering

/-!
# Rendering under other handles

Rendering looks names up by handle and compares handles, but writes none. So two graphs that differ in
their handles only are rendered to the same text. `Names.Alike` relates what two renderings have named so
far; `Mirrors` says of two renderings that they give the same result, or the same fault, and leave related
names and the same notes, whenever they start so.

Results:
* `Scope.Alike.name`: corresponding values get the same text, since a new text is chosen by the texts that
  are taken and not by the handles that have them;
* `Mirrors.bind`, `Mirrors.lift`, `Mirrors.mapM`, `Mirrors.forM`: rules for renderings made of others;
* `mirrors_phiEntries`: an injective change of handles keeps which incoming blocks are no predecessors and
  which predecessors are missing;
* `mirrors_instruction`, `mirrors_globalLine`, `mirrors_headerLine`: what the graphs have to agree on for
  one line.
-/
namespace SsaGraph

variable {r : ValueId → ValueId}

/-! ## Names -/

/-- The same texts were given, to values that correspond. -/
structure Scope.Alike (r : ValueId → ValueId) (s t : Scope) : Prop where
  given : ∀ v : ValueId, t.given[r v]? = s.given[v]?
  taken : t.taken = s.taken
  nextNumber : t.nextNumber = s.nextNumber

namespace Scope.Alike

variable {s t : Scope}

theorem empty : Scope.Alike r {} {} := ⟨by simp, rfl, rfl⟩

theorem leastFree_eq (alike : s.Alike r t) (text : Nat → String) (start : Nat) :
    t.leastFree text start = s.leastFree text start := by
  rw [leastFree, leastFree, alike.taken]

theorem freeName_eq (alike : s.Alike r t) (stored : String) : t.freeName stored = s.freeName stored := by
  unfold freeName
  rw [alike.taken]
  simp only [alike.leastFree_eq]

theorem give (inj : Function.Injective r) (alike : s.Alike r t) (v : ValueId) (text : String) :
    (s.give v text).Alike r (t.give (r v) text) where
  given u := by
    show (t.given.insert (r v) text)[r u]? = (s.given.insert v text)[u]?
    rw [Std.ExtTreeMap.getElem?_insert, Std.ExtTreeMap.getElem?_insert, alike.given u]
    simp only [Std.LawfulEqCmp.compare_eq_iff_eq, inj.eq_iff]
  taken := congrArg (·.insert text) alike.taken
  nextNumber := alike.nextNumber

theorem name (inj : Function.Injective r) (alike : s.Alike r t) (v : ValueId) (stored : Option String) :
    (t.name (r v) stored).1 = (s.name v stored).1 ∧
      (s.name v stored).2.Alike r (t.name (r v) stored).2 := by
  unfold Scope.name
  rw [alike.given v]
  cases s.given[v]? with
  | some text => exact ⟨rfl, alike⟩
  | none =>
    cases stored with
    | some stored =>
      dsimp only
      rw [alike.freeName_eq]
      exact ⟨rfl, alike.give inj v _⟩
    | none =>
      dsimp only
      -- the search starts at the same number and meets the same texts
      rw [alike.leastFree_eq, alike.nextNumber]
      have given := alike.give inj v (toString (s.leastFree (fun k => toString k) s.nextNumber))
      exact ⟨rfl, given.given, given.taken, rfl⟩

end Scope.Alike

structure Names.Alike (r : ValueId → ValueId) (n m : Names) : Prop where
  global : n.global.Alike r m.global
  current : n.current.Alike r m.current

/-- What a value shows of itself wherever it is mentioned: its kind with the payload, its type and its
stored name. -/
def Value.face (e : Value) : Kind × Ty × Option String := (e.kind, e.ty, e.name)

namespace Names.Alike

variable {n m : Names} {e e' : Value}

theorem empty : Names.Alike r {} {} := ⟨.empty, .empty⟩

theorem newScope (alike : n.Alike r m) : n.newScope.Alike r m.newScope := ⟨alike.global, .empty⟩

theorem bareName (inj : Function.Injective r) (alike : n.Alike r m) (v : ValueId)
    (face : e'.face = e.face) : (m.bareName (r v) e').1 = (n.bareName v e).1 ∧
      (n.bareName v e).2.Alike r (m.bareName (r v) e').2 := by
  obtain ⟨kind, -, name⟩ : e'.kind = e.kind ∧ e'.ty = e.ty ∧ e'.name = e.name := by
    simpa [Value.face] using face
  unfold Names.bareName
  rw [kind, name]
  split
  · obtain ⟨text, scope⟩ := alike.global.name inj v e.name
    exact ⟨text, scope, alike.current⟩
  · obtain ⟨text, scope⟩ := alike.current.name inj v e.name
    exact ⟨text, alike.global, scope⟩

theorem name (inj : Function.Injective r) (alike : n.Alike r m) (v : ValueId)
    (face : e'.face = e.face) : (m.name (r v) e').1 = (n.name v e).1 ∧
      (n.name v e).2.Alike r (m.name (r v) e').2 := by
  obtain ⟨text, after⟩ := alike.bareName inj v face
  have kind : e'.kind = e.kind := congrArg (·.1) face
  refine ⟨?_, after⟩
  show (if e'.kind.isGlobal then "@" else "%") ++ (m.bareName (r v) e').1 = _
  rw [kind, text]
  rfl

end Names.Alike

namespace Text

/-! ## Renderings -/

variable {α β γ : Type}

structure Pen.Alike (r : ValueId → ValueId) (pen pen' : Pen) : Prop where
  names : pen.names.Alike r pen'.names
  notes : pen'.notes = pen.notes

/-- From alike pens the renderings give the same result, or fault in the same way, and leave alike pens. -/
def Mirrors (r : ValueId → ValueId) (x y : Render α) : Prop :=
  ∀ pen pen' : Pen, pen.Alike r pen' →
    (y.run pen').1 = (x.run pen).1 ∧ (x.run pen).2.Alike r (y.run pen').2

/-- Both go through with related results, or both fault in the same way. -/
inductive Agree (R : α → β → Prop) : Except Fault α → Except Fault β → Prop
  | ok {a : α} {b : β} (related : R a b) : Agree R (.ok a) (.ok b)
  | fault (fault : Fault) : Agree R (.error fault) (.error fault)

theorem Agree.bind {R : α → β → Prop} {δ ε : Type} {S : δ → ε → Prop} {x : Except Fault α}
    {y : Except Fault β} {f : α → Except Fault δ} {f' : β → Except Fault ε} (start : Agree R x y)
    (rest : ∀ a b, R a b → Agree S (f a) (f' b)) : Agree S (x >>= f) (y >>= f') := by
  cases start with
  | ok related => exact rest _ _ related
  | fault fault => exact .fault fault

theorem Agree.imp {R S : α → β → Prop} {x : Except Fault α} {y : Except Fault β} (agree : Agree R x y)
    (imp : ∀ a b, R a b → S a b) : Agree S x y := by
  cases agree with
  | ok related => exact .ok (imp _ _ related)
  | fault fault => exact .fault fault

theorem Agree.refl (x : Except Fault α) : Agree Eq x x := by
  cases x with
  | ok a => exact .ok rfl
  | error fault => exact .fault fault

theorem Mirrors.pure (a : α) : Mirrors r (Pure.pure a) (Pure.pure a) :=
  fun _ _ alike => ⟨rfl, alike⟩

theorem mirrors_throw (fault : Fault) : Mirrors r (throw fault : Render α) (throw fault) :=
  fun _ _ alike => ⟨rfl, alike⟩

theorem Mirrors.bind {x y : Render α} {f f' : α → Render β} (start : Mirrors r x y)
    (rest : ∀ a, Mirrors r (f a) (f' a)) : Mirrors r (x >>= f) (y >>= f') := by
  intro pen pen' alike
  obtain ⟨same, after⟩ := start pen pen' alike
  rw [run_bind, run_bind, same]
  cases result : (x.run pen).1 with
  | ok a => exact rest a _ _ after
  | error fault => exact ⟨rfl, after⟩

/-- What does not render is done before the rendering goes on. -/
theorem Mirrors.lift {R : α → β → Prop} {x : Except Fault α} {y : Except Fault β} {f : α → Render γ}
    {f' : β → Render γ} (start : Agree R x y) (rest : ∀ a b, R a b → Mirrors r (f a) (f' b)) :
    Mirrors r ((liftM x : Render α) >>= f) ((liftM y : Render β) >>= f') := by
  cases start with
  | ok related => exact rest _ _ related
  | fault fault => exact fun _ _ alike => ⟨rfl, alike⟩

theorem Mirrors.ite {c c' : Prop} [Decidable c] [Decidable c'] {x x' y y' : Render α} (same : c' ↔ c)
    (yes : Mirrors r x x') (no : Mirrors r y y') :
    Mirrors r (if c then x else y) (if c' then x' else y') := by
  by_cases holds : c
  · rw [if_pos holds, if_pos (same.2 holds)]
    exact yes
  · rw [if_neg holds, if_neg (mt same.1 holds)]
    exact no

theorem Mirrors.mapM {φ : α → β} {f : α → Render γ} {f' : β → Render γ} {l : List α}
    (each : ∀ a ∈ l, Mirrors r (f a) (f' (φ a))) : Mirrors r (l.mapM f) ((l.map φ).mapM f') := by
  induction l with
  | nil => exact .pure []
  | cons a l ih =>
    rw [List.map_cons, List.mapM_cons, List.mapM_cons]
    exact (each a (List.mem_cons_self ..)).bind fun b =>
      (ih fun a ha => each a (List.mem_cons_of_mem _ ha)).bind fun bs => .pure (b :: bs)

theorem Mirrors.forM {φ : α → β} {f : α → Render Unit} {f' : β → Render Unit} {l : List α}
    (each : ∀ a ∈ l, Mirrors r (f a) (f' (φ a))) : Mirrors r (l.forM f) ((l.map φ).forM f') := by
  induction l with
  | nil => exact .pure ()
  | cons a l ih =>
    exact (each a (List.mem_cons_self ..)).bind fun _ =>
      ih fun a ha => each a (List.mem_cons_of_mem _ ha)

theorem mirrors_note (d : Diagnostic) : Mirrors r (note d) (note d) :=
  fun _ _ alike => ⟨rfl, alike.names, congrArg (· ++ [d]) alike.notes⟩

theorem mirrors_nameOf (inj : Function.Injective r) (v : ValueId) {e e' : Value}
    (face : e'.face = e.face) : Mirrors r (nameOf v e) (nameOf (r v) e') := by
  intro pen pen' alike
  obtain ⟨text, names⟩ := alike.names.name inj v face
  exact ⟨congrArg Except.ok text, names, alike.notes⟩

theorem mirrors_bareNameOf (inj : Function.Injective r) (v : ValueId) {e e' : Value}
    (face : e'.face = e.face) : Mirrors r (bareNameOf v e) (bareNameOf (r v) e') := by
  intro pen pen' alike
  obtain ⟨text, names⟩ := alike.names.bareName inj v face
  exact ⟨congrArg Except.ok text, names, alike.notes⟩

theorem mirrors_newScope : Mirrors r
    (modify fun pen : Pen => { pen with names := pen.names.newScope } : Render PUnit)
    (modify fun pen : Pen => { pen with names := pen.names.newScope }) :=
  fun _ _ alike => ⟨rfl, alike.names.newScope, alike.notes⟩

end Text

/-! ## Entries that correspond -/

namespace Graph

/-- The face of a value, if it is live. -/
def faceOf (g : Graph) (x : ValueId) : Option (Kind × Ty × Option String) := g.values[x]?.map Value.face

/-- The operands of a value, none if it is not live. -/
def operandsOf (g : Graph) (x : ValueId) : List ValueId := (g.values[x]?.map Value.operands).getD []

/-- The value and its image are both live and look the same, or are both not live. -/
def SameFace (r : ValueId → ValueId) (g h : Graph) (x : ValueId) : Prop := h.faceOf (r x) = g.faceOf x

/-- The same for a value that gets a line, with all that its line mentions. -/
structure SameOperands (r : ValueId → ValueId) (g h : Graph) (x : ValueId) : Prop where
  face : g.SameFace r h x
  operands : h.operandsOf (r x) = (g.operandsOf x).map r
  mentioned : ∀ y ∈ g.operandsOf x, g.SameFace r h y

/-- Both blocks exist, and their predecessors correspond and look the same. -/
structure SamePreds (r : ValueId → ValueId) (g h : Graph) (b : BlockId) : Prop where
  live : b ∈ g.blocks
  live' : r b ∈ h.blocks
  preds : h.predsOf (r b) = (g.predsOf b).map r
  mentioned : ∀ p ∈ g.predsOf b, g.SameFace r h p

end Graph

/-- The entries are those of values that correspond. -/
structure Value.Carried (r : ValueId → ValueId) (e e' : Value) : Prop where
  face : e'.face = e.face
  operands : e'.operands = e.operands.map r

theorem Value.Carried.kind {e e' : Value} (carried : e.Carried r e') : e'.kind = e.kind :=
  congrArg (·.1) carried.face

theorem Value.Carried.ty {e e' : Value} (carried : e.Carried r e') : e'.ty = e.ty :=
  congrArg (·.2.1) carried.face

namespace Text

variable {g h : Graph} {x : ValueId} {e e' : Value}

theorem agree_value (same : g.SameFace r h x) :
    Agree (fun e e' => g.values[x]? = some e ∧ h.values[r x]? = some e' ∧ e'.face = e.face)
      (g.value x) (h.value (r x)) := by
  unfold Graph.SameFace Graph.faceOf at same
  unfold Graph.value Table.fetch
  cases entry : g.values[x]? with
  | none =>
    rw [entry, Option.map_none, Option.map_eq_none_iff] at same
    rw [same]
    exact .fault _
  | some e =>
    rw [entry, Option.map_some, Option.map_eq_some_iff] at same
    obtain ⟨e', entry', face⟩ := same
    rw [entry']
    exact .ok ⟨rfl, rfl, face⟩

theorem agree_operand (carried : e.Carried r e') (i : Nat) :
    Agree (fun a b => a ∈ e.operands ∧ b = r a) (e.operand i) (e'.operand i) := by
  unfold Value.operand
  rw [carried.operands, List.getElem?_map, List.length_map]
  cases operand : e.operands[i]? with
  | none => exact .fault _
  | some a => exact .ok ⟨List.mem_of_getElem? operand, rfl⟩

theorem agree_callee (carried : e.Carried r e') :
    Agree (fun a b => a ∈ e.operands ∧ b = r a) e.callee e'.callee := by
  unfold Value.callee
  rw [carried.kind]
  exact (Agree.refl _).bind fun _ _ _ => agree_operand carried 0

theorem agree_args (carried : e.Carried r e') :
    Agree (fun as bs => (∀ a ∈ as, a ∈ e.operands) ∧ bs = as.map r) e.args e'.args := by
  unfold Value.args
  rw [carried.kind, carried.operands]
  refine (Agree.refl _).bind fun _ _ _ => ?_
  cases e.operands with
  | nil => exact .fault _
  | cons callee args => exact .ok ⟨fun a ha => List.mem_cons_of_mem _ ha, rfl⟩

theorem pairUp_map (l : List ValueId) :
    Value.pairUp (l.map r) = (Value.pairUp l).map (Prod.map r r) := by
  fun_induction Value.pairUp l with
  | case1 value block rest ih =>
    show (r value, r block) :: Value.pairUp (rest.map r) = _
    rw [ih]
    rfl
  | case2 l short =>
    cases l with
    | nil => rfl
    | cons a l =>
      cases l with
      | nil => rfl
      | cons b rest => exact absurd rfl (short a b rest)

theorem agree_incomings (carried : e.Carried r e') :
    Agree (fun ps qs => (∀ p ∈ ps, p.1 ∈ e.operands ∧ p.2 ∈ e.operands) ∧ qs = ps.map (Prod.map r r))
      e.incomings e'.incomings := by
  unfold Value.incomings
  rw [carried.kind, carried.operands]
  refine (Agree.refl _).bind fun _ _ _ => ?_
  rw [pairUp_map]
  exact .ok ⟨fun p hp => Value.mem_of_mem_pairUp hp, rfl⟩

/-! ## Pieces of a line -/

theorem mirrors_operand (inj : Function.Injective r) (same : g.SameFace r h x) :
    Mirrors r (operand g x) (operand h (r x)) := by
  refine .lift (agree_value same) fun e e' ⟨_, _, face⟩ => ?_
  have kind : e'.kind = e.kind := congrArg (·.1) face
  rw [kind]
  cases e.kind with
  | integer | undef => exact .pure _
  | param | global | function | block | binary | compare | call | branch | ret | elemPtr | store | load
  | alloca | zext | phi => exact mirrors_nameOf inj x face

theorem mirrors_typedOperand (inj : Function.Injective r) (same : g.SameFace r h x) :
    Mirrors r (typedOperand g x) (typedOperand h (r x)) := by
  refine .lift (agree_value same) fun e e' ⟨_, _, face⟩ => ?_
  have ty : e'.ty = e.ty := congrArg (·.2.1) face
  rw [ty]
  exact (mirrors_operand inj same).bind fun _ => .pure _

theorem mirrors_typedOperands (inj : Function.Injective r) {xs : List ValueId}
    (same : ∀ x ∈ xs, g.SameFace r h x) :
    Mirrors r (typedOperands g xs) (typedOperands h (xs.map r)) :=
  (Mirrors.mapM fun x hx => mirrors_typedOperand inj (same x hx)).bind fun _ => .pure _

theorem mirrors_operandPair (inj : Function.Injective r) (carried : e.Carried r e')
    (same : ∀ x ∈ e.operands, g.SameFace r h x) : Mirrors r (operandPair g e) (operandPair h e') := by
  refine .lift (agree_operand carried 0) ?_
  rintro lhs _ ⟨left, rfl⟩
  refine .lift (agree_operand carried 1) ?_
  rintro rhs _ ⟨right, rfl⟩
  refine .lift (agree_value (same lhs left)) fun a a' ⟨_, _, face⟩ => ?_
  refine .lift (agree_value (same rhs right)) fun b b' ⟨_, _, face'⟩ => ?_
  have ty : a'.ty = a.ty := congrArg (·.2.1) face
  have ty' : b'.ty = b.ty := congrArg (·.2.1) face'
  rw [ty, ty']
  refine (mirrors_typedOperand inj (same lhs left)).bind fun _ => ?_
  dsimp only
  split
  · exact (mirrors_operand inj (same rhs right)).bind fun _ => .pure _
  · exact (mirrors_typedOperand inj (same rhs right)).bind fun _ => .pure _

/-! ## Phis -/

variable {b : BlockId}

theorem agree_block (block : g.SamePreds r h b) :
    Agree (fun B B' => B.preds = g.predsOf b ∧ B'.preds = (g.predsOf b).map r) (g.block b)
      (h.block (r b)) := by
  obtain ⟨B, found⟩ := Table.getElem?_of_mem block.live
  obtain ⟨B', found'⟩ := Table.getElem?_of_mem block.live'
  rw [Graph.block_eq_ok.2 found, Graph.block_eq_ok.2 found']
  refine .ok ⟨(Graph.predsOf_eq found).symm, ?_⟩
  rw [← block.preds, Graph.predsOf_eq found']

theorem mirrors_recordedEntries (inj : Function.Injective r) {pairs : List (ValueId × BlockId)}
    (same : ∀ p ∈ pairs, g.SameFace r h p.1 ∧ g.SameFace r h p.2) :
    Mirrors r (recordedEntries g pairs) (recordedEntries h (pairs.map (Prod.map r r))) :=
  .mapM fun p hp => (mirrors_operand inj (same p hp).1).bind fun _ =>
    (mirrors_operand inj (same p hp).2).bind fun _ => .pure _

theorem mirrors_undefEntries (inj : Function.Injective r) {blocks : List BlockId}
    (same : ∀ b ∈ blocks, g.SameFace r h b) :
    Mirrors r (undefEntries g blocks) (undefEntries h (blocks.map r)) :=
  .mapM fun b hb => (mirrors_operand inj (same b hb)).bind fun _ => .pure _

theorem mirrors_noteStray (inj : Function.Injective r) (face : e'.face = e.face) (preds : List BlockId)
    {pairs : List (ValueId × BlockId)} (same : ∀ p ∈ pairs, g.SameFace r h p.2) :
    Mirrors r (noteStray g x e preds pairs)
      (noteStray h (r x) e' (preds.map r) (pairs.map (Prod.map r r))) := by
  refine .forM fun p hp => ?_
  obtain ⟨value, block⟩ := p
  refine .ite (not_congr (List.mem_map_of_injective inj)) ?_ (.pure ())
  exact (mirrors_operand inj (same _ hp)).bind fun _ => (mirrors_nameOf inj x face).bind fun _ =>
    mirrors_note _

theorem missingPreds_map (inj : Function.Injective r) (preds : List BlockId)
    (pairs : List (ValueId × BlockId)) :
    missingPreds (preds.map r) (pairs.map (Prod.map r r)) = (missingPreds preds pairs).map r := by
  have named : (pairs.map (Prod.map r r)).map (·.2) = (pairs.map (·.2)).map r := by
    rw [List.map_map, List.map_map]
    rfl
  unfold missingPreds
  rw [named, List.filter_map]
  congr 1
  refine List.filter_congr fun p _ => ?_
  simp only [Function.comp_apply, List.mem_map_of_injective inj]

theorem mirrors_phiEntries (inj : Function.Injective r) (carried : e.Carried r e')
    (same : ∀ y ∈ e.operands, g.SameFace r h y) (block : g.SamePreds r h b) (parent : e.parent = some b)
    (parent' : e'.parent = some (r b)) : Mirrors r (phiEntries g x e) (phiEntries h (r x) e') := by
  refine .lift (agree_incomings carried) ?_
  rintro pairs _ ⟨members, rfl⟩
  refine (mirrors_recordedEntries inj fun p hp =>
    ⟨same _ (members p hp).1, same _ (members p hp).2⟩).bind fun recorded => ?_
  rw [parent, parent']
  refine .lift (agree_block block) fun B B' ⟨preds, preds'⟩ => ?_
  rw [preds, preds']
  refine (mirrors_noteStray inj carried.face _ fun p hp => same _ (members p hp).2).bind fun _ => ?_
  refine .ite (by rw [List.length_map, List.length_map]) ?_ (.pure _)
  rw [missingPreds_map inj]
  have missing : ∀ p ∈ missingPreds (g.predsOf b) pairs, g.SameFace r h p :=
    fun p hp => block.mentioned p (List.mem_filter.1 hp).1
  exact (mirrors_undefEntries inj missing).bind fun added =>
    (mirrors_nameOf inj x carried.face).bind fun _ => (mirrors_note _).bind fun _ => .pure _

/-! ## Lines -/

theorem agree_line (same : g.SameOperands r h x) :
    Agree (fun e e' => g.values[x]? = some e ∧ h.values[r x]? = some e' ∧ e.Carried r e' ∧
      ∀ y ∈ e.operands, g.SameFace r h y) (g.value x) (h.value (r x)) := by
  refine (agree_value same.face).imp fun e e' ⟨entry, entry', face⟩ => ?_
  have operands : g.operandsOf x = e.operands := by simp [Graph.operandsOf, entry]
  have operands' : h.operandsOf (r x) = e'.operands := by simp [Graph.operandsOf, entry']
  refine ⟨entry, entry', ⟨face, ?_⟩, operands ▸ same.mentioned⟩
  rw [← operands', same.operands, operands]

theorem agree_loadTy (same : g.SameOperands r h x) : Agree Eq (g.loadTy x) (h.loadTy (r x)) := by
  refine (agree_line same).bind fun e e' ⟨_, _, carried, faces⟩ => ?_
  rw [carried.kind]
  refine (Agree.refl _).bind fun _ _ _ => (agree_operand carried 0).bind ?_
  rintro src _ ⟨member, rfl⟩
  refine (agree_value (faces src member)).bind fun s s' ⟨_, _, face⟩ => ?_
  have ty : s'.ty = s.ty := congrArg (·.2.1) face
  rw [ty]
  exact .refl _

/-- One operand after its type, with whatever is written behind it. -/
theorem mirrors_operandAt (inj : Function.Injective r) (carried : e.Carried r e')
    (faces : ∀ y ∈ e.operands, g.SameFace r h y) (i : Nat) {α : Type} {f : String → Render α}
    {f' : String → Render α} (rest : ∀ text, Mirrors r (f text) (f' text)) :
    Mirrors r ((liftM (e.operand i) : Render ValueId) >>= fun y => typedOperand g y >>= f)
      ((liftM (e'.operand i) : Render ValueId) >>= fun y => typedOperand h y >>= f') := by
  refine .lift (agree_operand carried i) ?_
  rintro y _ ⟨member, rfl⟩
  exact (mirrors_typedOperand inj (faces y member)).bind rest

theorem mirrors_arguments (inj : Function.Injective r) (same : g.SameOperands r h x)
    (carried : e.Carried r e') (faces : ∀ y ∈ e.operands, g.SameFace r h y) (block : g.SamePreds r h b)
    (parent : e.parent = some b) (parent' : e'.parent = some (r b)) :
    Mirrors r (arguments g x e) (arguments h (r x) e') := by
  unfold arguments
  rw [carried.kind]
  cases e.kind with
  | binary op => exact mirrors_operandPair inj carried faces
  | compare op => exact (mirrors_operandPair inj carried faces).bind fun _ => .pure _
  | call =>
    refine .lift (agree_callee carried) ?_
    rintro callee _ ⟨member, rfl⟩
    refine .lift (agree_value (faces callee member)) fun c c' ⟨_, _, face⟩ => ?_
    refine (mirrors_nameOf inj callee face).bind fun name => .lift (agree_args carried) ?_
    rintro args _ ⟨members, rfl⟩
    rw [carried.ty]
    exact (mirrors_typedOperands inj fun y hy => faces y (members y hy)).bind fun _ => .pure _
  | branch =>
    dsimp only
    rw [carried.operands]
    exact mirrors_typedOperands inj faces
  | ret =>
    dsimp only
    rw [carried.operands]
    cases operands : e.operands with
    | nil => exact .pure _
    | cons result rest =>
      exact mirrors_typedOperand inj (faces result (operands ▸ List.mem_cons_self ..))
  | elemPtr elem =>
    refine .lift (agree_operand carried 0) ?_
    rintro base _ ⟨member, rfl⟩
    refine .lift (agree_value (faces base member)) fun p p' ⟨_, _, face⟩ => ?_
    have ty : p'.ty = p.ty := congrArg (·.2.1) face
    rw [ty, carried.operands]
    cases p.ty.pointee? with
    | none => exact mirrors_throw _
    | some base => exact (mirrors_typedOperands inj faces).bind fun _ => .pure _
  | store =>
    exact mirrors_operandAt inj carried faces 0 fun _ =>
      mirrors_operandAt inj carried faces 1 fun _ => .pure _
  | load =>
    refine .lift (agree_loadTy same) ?_
    rintro ty _ rfl
    exact mirrors_operandAt inj carried faces 0 fun _ => .pure _
  | alloca ty => exact .pure _
  | zext ty => exact mirrors_operandAt inj carried faces 0 fun _ => .pure _
  | phi =>
    refine (mirrors_phiEntries inj carried faces block parent parent').bind fun entries => ?_
    rw [carried.ty]
    cases entries <;> exact .pure _
  | integer | undef | param | global | function | block => exact mirrors_throw _

theorem mirrors_instruction (inj : Function.Injective r) (same : g.SameOperands r h x)
    (block : g.SamePreds r h b) (parent : g.parentOf x = some b) (parent' : h.parentOf (r x) = some (r b)) :
    Mirrors r (instruction g x) (instruction h (r x)) := by
  refine .lift (agree_line same) fun e e' ⟨entry, entry', carried, faces⟩ => ?_
  have attached : e.parent = some b := by simpa [Graph.parentOf, entry] using parent
  have attached' : e'.parent = some (r b) := by simpa [Graph.parentOf, entry'] using parent'
  have void : e'.isVoid = e.isVoid := by rw [Value.isVoid, Value.isVoid, carried.ty]
  rw [if_neg (by simp [attached]), if_neg (by simp [attached']), carried.kind, void]
  cases e.kind.opcode? with
  | none => exact mirrors_throw _
  | some op =>
    refine (mirrors_arguments inj same carried faces block attached attached').bind fun args => ?_
    exact .ite .rfl (.pure _) ((mirrors_nameOf inj x carried.face).bind fun _ => .pure _)

theorem mirrors_globalLine (inj : Function.Injective r) (same : g.SameOperands r h x) :
    Mirrors r (globalLine g x) (globalLine h (r x)) := by
  refine .lift (agree_line same) fun e e' ⟨_, _, carried, faces⟩ => .lift (agree_operand carried 0) ?_
  rintro init _ ⟨member, rfl⟩
  rw [carried.kind]
  cases e.kind with
  | global isConst =>
    exact (mirrors_nameOf inj x carried.face).bind fun _ =>
      (mirrors_typedOperand inj (faces init member)).bind fun _ => .pure _
  | integer | undef | param | function | block | binary | compare | call | branch | ret | elemPtr | store
  | load | alloca | zext | phi => exact mirrors_throw _

theorem mirrors_headerLine (inj : Function.Injective r) (same : g.SameFace r h x) {func func' : Func}
    (ty : func'.ty = func.ty) (isDecl : func'.isDecl = func.isDecl)
    (params : func'.params = func.params.map r) (faces : ∀ y ∈ func.params, g.SameFace r h y) :
    Mirrors r (headerLine g x func) (headerLine h (r x) func') := by
  have ret : func'.ret = func.ret := by rw [Func.ret, Func.ret, ty]
  refine mirrors_newScope.bind fun _ => .lift (agree_value same) fun e e' ⟨_, _, face⟩ => ?_
  refine (mirrors_nameOf inj x face).bind fun name => ?_
  rw [ret, isDecl, ty, params]
  refine .lift (.refl _) ?_
  rintro ret _ rfl
  exact .ite .rfl (.pure _) ((mirrors_typedOperands inj faces).bind fun _ => .pure _)

end Text

end SsaGraph
