import SsaGraph.Proofs.Reattachment

/-!
# The order of lists

Blocks list their instructions, predecessors and successors, and edits move single elements in and out.
An edit does not reorder what it leaves in a list, and what it adds has a fixed place: an edge comes last,
a phi after the phis and any other instruction last.

Lists of edges are compared by `Revised`, which is told what is kept: elements that are kept are never
dropped, and no others are added. For one such condition it is transitive. This is what replacing a value
needs, which may drop and add edges many times; the edges that are kept are those to other blocks than the
replaced one.

Results:
* `Revised.trans`, `Revised.appended`: revisions add up, and keep the order;
* `Graph.writeOperand_revised`, `Graph.writeOperands_revised`: one write and a series of them;
* `Graph.Moved.instsKept`: the instruction lists after one change;
* `order_stable`: all lists after every edit.
-/
namespace SsaGraph

/-! ## Lists -/

section Lists

variable {α : Type} {P : α → Prop} {l l' l'' : List α}

/-- The second list has what is left of the first, in the same order, and then what is new. -/
def Appended [DecidableEq α] (l l' : List α) : Prop := l' = l.filter (· ∈ l') ++ l'.filter (· ∉ l)

/-- The second list is the first one with some elements dropped and others added at the end. Elements with
`P` are not dropped, and only such are added. -/
def Revised (P : α → Prop) (l l' : List α) : Prop :=
  ∃ (keep : α → Bool) (fresh : List α), l' = l.filter keep ++ fresh ∧ (∀ x, P x → keep x = true) ∧
    ∀ x ∈ fresh, P x ∧ x ∉ l

theorem Revised.refl (P : α → Prop) (l : List α) : Revised P l l := by
  refine ⟨fun _ => true, [], ?_, fun _ _ => rfl, by simp⟩
  rw [List.append_nil, List.filter_true]

theorem Revised.trans (h : Revised P l l') (h' : Revised P l' l'') : Revised P l l'' := by
  obtain ⟨keep, fresh, rfl, kept, new⟩ := h
  obtain ⟨keep', fresh', rfl, kept', new'⟩ := h'
  -- what the first revision added has `P`, so the second one leaves it in
  have stays : fresh.filter keep' = fresh := List.filter_eq_self.2 fun x hx => kept' x (new x hx).1
  refine ⟨fun x => keep' x && keep x, fresh ++ fresh', ?_, fun x hx => ?_, fun x hx => ?_⟩
  · rw [List.filter_append, stays, List.filter_filter, List.append_assoc]
  · exact Bool.and_eq_true_iff.2 ⟨kept' x hx, kept x hx⟩
  · rcases List.mem_append.1 hx with first | second
    · exact new x first
    · obtain ⟨hP, absent⟩ := new' x second
      refine ⟨hP, fun member => absent (List.mem_append_left _ ?_)⟩
      exact List.mem_filter.2 ⟨member, kept x hP⟩

theorem revised_filter {keep : α → Bool} (h : ∀ x, P x → keep x = true) (l : List α) :
    Revised P l (l.filter keep) :=
  ⟨keep, [], (List.append_nil _).symm, h, by simp⟩

theorem revised_concat {x : α} (hP : P x) (absent : x ∉ l) : Revised P l (l ++ [x]) := by
  refine ⟨fun _ => true, [x], ?_, fun _ _ => rfl, fun y hy => ?_⟩
  · rw [List.filter_true]
  · rw [List.mem_singleton.1 hy]
    exact ⟨hP, absent⟩

/-- A revision keeps the order. -/
theorem Revised.appended [DecidableEq α] (h : Revised P l l') : Appended l l' := by
  obtain ⟨keep, fresh, rfl, -, new⟩ := h
  have left : l.filter (· ∈ l.filter keep ++ fresh) = l.filter keep := by
    refine List.filter_congr fun x member => ?_
    by_cases kept : keep x = true
    · simp [member, kept]
    · have notNew : x ∉ fresh := fun hx => (new x hx).2 member
      simp [kept, notNew]
  have dropped : (l.filter keep).filter (· ∉ l) = [] := by
    refine List.filter_eq_nil_iff.2 fun x hx => ?_
    simp [(List.mem_filter.1 hx).1]
  have added : fresh.filter (· ∉ l) = fresh := by
    refine List.filter_eq_self.2 fun x hx => ?_
    simp [(new x hx).2]
  unfold Appended
  rw [left, List.filter_append, dropped, added, List.nil_append]

end Lists

theorem revised_pushNew {P : BlockId → Prop} {x : BlockId} (hP : P x) (l : List BlockId) :
    Revised P l (pushNew l x) := by
  unfold pushNew
  split
  · exact .refl P l
  · exact revised_concat hP ‹_›

theorem revised_foldl_pushNew {P : BlockId → Prop} {new : List BlockId} (all : ∀ x ∈ new, P x)
    (l : List BlockId) : Revised P l (new.foldl pushNew l) := by
  induction new generalizing l with
  | nil => exact .refl P l
  | cons x new ih =>
    obtain ⟨first, rest⟩ := List.forall_mem_cons.1 all
    exact (revised_pushNew first l).trans (ih rest _)

/-! ## Edges -/

namespace Graph

variable {g g' g'' : Graph} {P : BlockId → BlockId → Prop} {src : BlockId}

/-- Edges were forgotten and others recorded at the ends of the lists. Edges with `P` are not forgotten,
and only such are recorded. -/
structure EdgesRevised (P : BlockId → BlockId → Prop) (g g' : Graph) : Prop where
  succs : ∀ a, Revised (P a) (g.succsOf a) (g'.succsOf a)
  preds : ∀ b, Revised (P · b) (g.predsOf b) (g'.predsOf b)

theorem EdgesRevised.of_lists (succs : ∀ a, g'.succsOf a = g.succsOf a)
    (preds : ∀ b, g'.predsOf b = g.predsOf b) : g.EdgesRevised P g' := by
  refine ⟨fun a => ?_, fun b => ?_⟩
  · rw [succs]
    exact .refl _ _
  · rw [preds]
    exact .refl _ _

theorem EdgesRevised.of_blocks (same : g'.blocks = g.blocks) : g.EdgesRevised P g' := by
  refine .of_lists (fun a => ?_) fun b => ?_
  · rw [succsOf, same, succsOf]
  · rw [predsOf, same, predsOf]

theorem EdgesRevised.trans (h : g.EdgesRevised P g') (h' : g'.EdgesRevised P g'') :
    g.EdgesRevised P g'' :=
  ⟨fun a => (h.succs a).trans (h'.succs a), fun b => (h.preds b).trans (h'.preds b)⟩

/-- A list that blocks have is revised if every block revises it. -/
theorem revised_mapBlocks (list : Block → List BlockId) {Q : BlockId → Prop}
    {f : BlockId → Block → Block} {x : BlockId} (one : ∀ b, Revised Q (list b) (list (f x b))) :
    Revised Q ((g.blocks[x]?.map list).getD []) (((g.mapBlocks f).blocks[x]?.map list).getD []) := by
  rw [getElem?_mapBlocks]
  cases g.blocks[x]? with
  | none => exact .refl Q []
  | some b => exact one b

theorem edgesRevised_linked {targets : List BlockId} (allowed : ∀ t ∈ targets, P src t) :
    g.EdgesRevised P (g.mapBlocks (Block.linked src targets)) := by
  refine ⟨fun a => revised_mapBlocks Block.succs fun b => ?_,
    fun a => revised_mapBlocks Block.preds fun b => ?_⟩
  · unfold Block.linked
    dsimp only
    split
    · rename_i own
      rw [own]
      exact revised_foldl_pushNew allowed _
    · exact .refl _ _
  · unfold Block.linked
    dsimp only
    split
    · rename_i target
      exact revised_pushNew (P := (P · a)) (allowed a target) _
    · exact .refl _ _

theorem edgesRevised_unlinked {gone : List BlockId} (allowed : ∀ t ∈ gone, ¬P src t) :
    g.EdgesRevised P (g.mapBlocks (Block.unlinked src gone)) := by
  refine ⟨fun a => revised_mapBlocks Block.succs fun b => ?_,
    fun a => revised_mapBlocks Block.preds fun b => ?_⟩
  · unfold Block.unlinked
    dsimp only
    split
    · rename_i own
      refine revised_filter (fun t kept => ?_) _
      rw [own] at kept
      exact decide_eq_true fun forgotten => allowed t forgotten kept
    · exact .refl _ _
  · unfold Block.unlinked
    dsimp only
    split
    · rename_i target
      refine revised_filter (fun s kept => ?_) _
      have other : s ≠ src := fun heq => allowed a target (heq ▸ kept)
      simpa using other
    · exact .refl _ _

theorem edgesRevised_relisted {f : BlockId → Block → Block} (succs : ∀ x b, (f x b).succs = b.succs)
    (preds : ∀ x b, (f x b).preds = b.preds) : g.EdgesRevised P (g.mapBlocks f) := by
  refine ⟨fun a => revised_mapBlocks Block.succs fun b => ?_,
    fun a => revised_mapBlocks Block.preds fun b => ?_⟩
  · rw [succs]
    exact .refl _ _
  · rw [preds]
    exact .refl _ _

/-- Attaching records edges and forgets none. -/
theorem edgesRevised_placed (inst : ValueId) (block : BlockId) (insts targets : List ValueId) :
    g.EdgesRevised (fun _ _ => True) (g.placed inst block insts targets) := by
  have moved : g.EdgesRevised (fun _ _ => True) (g.mapValues (Value.moved inst (some block))) :=
    .of_blocks rfl
  have relisted := moved.trans
    (edgesRevised_relisted (f := Block.relisted block insts) (fun _ _ => rfl) fun _ _ => rfl)
  unfold placed
  rw [← mapBlocks_mapBlocks (Block.relisted block insts) (Block.linked block targets.reverse)]
  exact relisted.trans (edgesRevised_linked fun _ _ => trivial)

/-- Detaching forgets edges and records none. -/
theorem edgesRevised_displaced (inst : ValueId) (block : BlockId) (gone : List BlockId) :
    g.EdgesRevised (fun _ _ => False) (g.displaced inst block gone) := by
  have moved : g.EdgesRevised (fun _ _ => False) (g.mapValues (Value.moved inst none)) := .of_blocks rfl
  unfold displaced
  rw [← mapBlocks_mapBlocks (Block.unlinked block gone) fun x b =>
    b.relisted block (b.insts.filter (· ≠ inst)) x]
  exact (moved.trans (edgesRevised_unlinked fun _ _ => not_false)).trans
    (edgesRevised_relisted (fun _ _ => rfl) fun _ _ => rfl)

/-- A change that writes no slot attaches, detaches or leaves the edges as they are. -/
theorem ChangeBy.edgesRevised (num : g.Numbered) (change : g.ChangeBy False g') :
    ∃ P, g.EdgesRevised P g' := by
  cases change with
  | enter | rename | incoming => exact ⟨fun _ _ => True, .of_blocks rfl⟩
  | rewire slot apart allowed | retarget slot along live unused allowed => exact allowed.elim
  | place => exact ⟨_, edgesRevised_placed ..⟩
  | displace => exact ⟨_, edgesRevised_displaced ..⟩
  | block =>
    exact ⟨fun _ _ => True, .of_lists (list_withBlock num Block.succs rfl)
      (list_withBlock num Block.preds rfl)⟩

/-- A write moves at most the edge of its slot: one to the former operand is forgotten. -/
theorem writeOperand_revised {user new old : ValueId} {index : Nat}
    (h : g.writeOperand user index new = .ok (old, g')) : g.EdgesRevised (fun _ b => b ≠ old) g' := by
  obtain ⟨v, -, -, ⟨-, rfl⟩ | ⟨ne, -, -, h⟩⟩ := writeOperand_eq_ok.1 h
  · exact .of_blocks rfl
  · split at h
    · rw [h]
      exact .of_blocks rfl
    · obtain ⟨g₁, hu, hl⟩ := h
      obtain ⟨gone, unused, rfl⟩ := unlinkUnused_ok hu
      obtain ⟨-, -, rfl⟩ := link_eq_ok.1 hl
      have rewired : g.EdgesRevised (fun _ b => b ≠ old) (g.rewired ⟨user, index⟩ old new) :=
        .of_blocks rfl
      refine (rewired.trans (edgesRevised_unlinked fun t forgotten => ?_)).trans
        (edgesRevised_linked fun t target => ?_)
      · exact not_not_intro ((unused t).1 forgotten).1
      · rw [List.mem_singleton.1 target]
        exact ne.symm

/-- The slots that are still to be written hold `old`, so only edges to `old` are forgotten and none is
recorded. -/
theorem writeOperands_revised {order : List Use} {old new : ValueId} (nodup : order.Nodup)
    (held : ∀ u ∈ order, g.slot u = some old)
    (h : order.foldlM (fun g u => do return (← g.writeOperand u.user u.index new).2) g = .ok g') :
    g.Framed g' ∧ g.EdgesRevised (fun _ b => b ≠ old) g' := by
  induction order generalizing g with
  | nil =>
    rw [List.foldlM_nil, pure_eq_ok] at h
    rw [h]
    exact ⟨.refl g, .of_blocks rfl⟩
  | cons u order ih =>
    obtain ⟨fresh, nodup⟩ := List.nodup_cons.1 nodup
    simp only [List.foldlM_cons, bind_eq_ok, pure_eq_ok, Prod.exists] at h
    obtain ⟨g₁, ⟨former, _, hw, rfl⟩, h⟩ := h
    obtain rfl : former = old := by
      obtain ⟨v, hv, operand, -⟩ := writeOperand_eq_ok.1 hw
      have now := held u (List.mem_cons_self ..)
      rw [slot_eq_some.2 ⟨v, hv, operand⟩] at now
      exact Option.some.inj now
    have rest : ∀ s ∈ order, g₁.slot s = some former := by
      intro s hs
      have other : s ≠ u := fun heq => fresh (heq ▸ hs)
      rw [slot_writeOperand hw, if_neg other]
      exact held s (List.mem_cons_of_mem u hs)
    obtain ⟨framed, revised⟩ := ih nodup rest h
    exact ⟨(writeOperand_framed hw).trans framed, (writeOperand_revised hw).trans revised⟩

/-! ## Instructions -/

/-- Instructions that stay in a list keep their order. A new phi comes after the phis of the list and any
other instruction at its end. -/
structure InstsKept (g g' : Graph) : Prop where
  order : ∀ b, (g'.instsOf b).filter (· ∈ g.instsOf b) = (g.instsOf b).filter (· ∈ g'.instsOf b)
  phi : ∀ b, ∀ v ∈ g'.instsOf b, v ∉ g.instsOf b → g'.kindOf v = some .phi →
    (g'.instsOf b)[(g.instsOf b).countP (g.kindOf · = some .phi)]? = some v
  other : ∀ b, ∀ v ∈ g'.instsOf b, v ∉ g.instsOf b → g'.kindOf v ≠ some .phi →
    (g'.instsOf b).getLast? = some v

theorem SamePlaces.instsKept (same : g.SamePlaces g') : g.InstsKept g' := by
  refine ⟨fun b => ?_, fun b v member absent => ?_, fun b v member absent => ?_⟩
  · rw [same.insts]
  · rw [same.insts] at member
    exact absurd member absent
  · rw [same.insts] at member
    exact absurd member absent

theorem InstsKept.after (placed : g.Placed) (same : g.SamePlaces g') (kept : g'.InstsKept g'') :
    g.InstsKept g'' := by
  refine ⟨fun b => ?_, fun b v member absent phi => ?_, fun b v member absent => ?_⟩
  · rw [← same.insts]
    exact kept.order b
  · rw [← same.insts] at absent
    have count : (g.instsOf b).countP (g.kindOf · = some .phi) =
        (g'.instsOf b).countP (g'.kindOf · = some .phi) := by
      rw [same.insts]
      exact List.countP_congr fun u hu => by rw [same.kinds_listed placed hu]
    rw [count]
    exact kept.phi b v member absent phi
  · rw [← same.insts] at absent
    exact kept.other b v member absent

theorem InstsKept.before (placed : g'.Placed) (kept : g.InstsKept g') (same : g'.SamePlaces g'') :
    g.InstsKept g'' := by
  refine ⟨fun b => ?_, fun b v member absent => ?_, fun b v member absent => ?_⟩
  · rw [same.insts]
    exact kept.order b
  · rw [same.insts] at member ⊢
    rw [same.kinds_listed placed member]
    exact kept.phi b v member absent
  · rw [same.insts] at member ⊢
    rw [same.kinds_listed placed member]
    exact kept.other b v member absent

/-- What an instruction is put between keeps its order. -/
theorem filter_mem_insert {inst : ValueId} {before after : List ValueId}
    (absent : inst ∉ before ++ after) :
    (before ++ inst :: after).filter (· ∈ before ++ after) =
      (before ++ after).filter (· ∈ before ++ inst :: after) := by
  have old : (before ++ after).filter (· ∈ before ++ after) = before ++ after :=
    List.filter_eq_self.2 fun v hv => decide_eq_true hv
  have all : (before ++ after).filter (· ∈ before ++ inst :: after) = before ++ after := by
    refine List.filter_eq_self.2 fun v hv => ?_
    simp only [List.mem_append, List.mem_cons, decide_eq_true_eq] at hv ⊢
    tauto
  rw [all, List.filter_append, List.filter_cons_of_neg (by simpa using absent), ← List.filter_append, old]

theorem instsKept_placed (placed : g.Placed) {inst : ValueId} {block : BlockId} {v : Value} {b : Block}
    {targets before after : List ValueId} (entry : g.values[inst]? = some v) (detached : v.parent = none)
    (spotBlock : g.blocks[block]? = some b) (insts : b.insts = before ++ after)
    (spot : g.Spot (v.kind = .phi) before after) :
    g.InstsKept (g.placed inst block (before ++ inst :: after) targets) := by
  have list : g.instsOf block = before ++ after := (instsOf_eq spotBlock).trans insts
  have free : g.parentOf inst = none := by
    rw [parentOf, entry]
    exact detached
  have own : g.kindOf inst = some v.kind := by
    rw [kindOf, entry]
    rfl
  have kinds : ∀ x, (g.placed inst block (before ++ inst :: after) targets).kindOf x = g.kindOf x :=
    kindOf_mapValues fun _ _ => rfl
  have lists : (g.placed inst block (before ++ inst :: after) targets).instsOf = _ :=
    instsOf_placed (Table.mem_of_getElem? spotBlock)
  have absent : inst ∉ before ++ after := list ▸ placed.filed.not_mem free
  have listed : (g.placed inst block (before ++ inst :: after) targets).instsOf block =
      g.listedWith inst (g.instsOf block) := by
    rw [← Option.some_inj, ← own] at spot
    rw [lists, list, ← spot.eq_listedWith (list ▸ placed.phisFirst block)]
    exact if_pos rfl
  -- only the list of the block has something new
  have new : ∀ x, ∀ u ∈ (g.placed inst block (before ++ inst :: after) targets).instsOf x,
      u ∉ g.instsOf x → x = block ∧ u = inst := by
    intro x u member isNew
    simp only [lists] at member
    split at member
    · rename_i here
      rw [here, list] at isNew
      simp only [List.mem_append, List.mem_cons] at member isNew
      exact ⟨here, by tauto⟩
    · exact absurd member isNew
  refine ⟨fun x => ?_, fun x u member isNew phi => ?_, fun x u member isNew other => ?_⟩
  · simp only [lists]
    split
    · rename_i here
      rw [here, list]
      exact filter_mem_insert absent
    · rfl
  · obtain ⟨rfl, rfl⟩ := new x u member isNew
    rw [kinds] at phi
    rw [listed, listedWith, if_pos phi, List.countP_eq_length_filter,
      List.getElem?_append_right (Nat.le_refl _), Nat.sub_self]
    rfl
  · obtain ⟨rfl, rfl⟩ := new x u member isNew
    rw [kinds] at other
    rw [listed, listedWith, if_neg other]
    exact List.getLast?_concat

theorem instsKept_displaced {inst : ValueId} {block : BlockId} {gone : List BlockId} :
    g.InstsKept (g.displaced inst block gone) := by
  have lists : (g.displaced inst block gone).instsOf = _ := instsOf_displaced
  have subset : ∀ x, ∀ u ∈ (g.displaced inst block gone).instsOf x, u ∈ g.instsOf x := by
    intro x u member
    simp only [lists] at member
    split at member
    · exact (List.mem_filter.1 member).1
    · exact member
  refine ⟨fun x => ?_, fun x u member isNew => absurd (subset x u member) isNew,
    fun x u member isNew => absurd (subset x u member) isNew⟩
  have all : ((g.displaced inst block gone).instsOf x).filter (· ∈ g.instsOf x) =
      (g.displaced inst block gone).instsOf x :=
    List.filter_eq_self.2 fun u hu => decide_eq_true (subset x u hu)
  rw [all]
  simp only [lists]
  split
  · refine List.filter_congr fun u hu => ?_
    simp [hu]
  · exact (List.filter_eq_self.2 fun u hu => decide_eq_true hu).symm

theorem Moved.instsKept (placed : g.Placed) (moved : g.Moved g') : g.InstsKept g' := by
  cases moved with
  | stayed same => exact same.instsKept
  | placed entry kind detached spotBlock insts spot =>
    exact instsKept_placed placed entry detached spotBlock insts spot
  | displaced => exact instsKept_displaced

/-! ## All lists -/

/-- What stays in a list keeps its order, and what is new has its place. -/
structure OrderKept (g g' : Graph) : Prop extends g.InstsKept g' where
  succs : ∀ a, Appended (g.succsOf a) (g'.succsOf a)
  preds : ∀ b, Appended (g.predsOf b) (g'.predsOf b)

theorem InstsKept.orderKept (insts : g.InstsKept g') (edges : g.EdgesRevised P g') : g.OrderKept g' :=
  ⟨insts, fun a => (edges.succs a).appended, fun b => (edges.preds b).appended⟩

theorem OrderKept.refl (g : Graph) : g.OrderKept g :=
  (SamePlaces.instsKept ⟨fun _ => rfl, fun _ => rfl, fun _ _ => rfl⟩).orderKept
    (P := fun _ _ => True) (.of_blocks rfl)

theorem Framed.samePlaces (h : g.Framed g') : g.SamePlaces g' := by
  obtain ⟨f, b, same, lists, rfl⟩ := h
  have values : g.SamePlaces (g.mapValues f) :=
    samePlaces_mapValues (fun x e => (same x e).parent) fun x e => (same x e).kind
  exact values.trans (samePlaces_mapBlocks fun x e => (lists x e).2)

theorem place_revised (placed : g.Placed) {inst : ValueId} {block : BlockId} {v : Value}
    {answer : Except Refusal Unit} (entry : g.values[inst]? = some v) (detached : v.parent = none)
    (h : g.place inst block = .ok (answer, g')) :
    g.InstsKept g' ∧ g.EdgesRevised (fun _ _ => True) g' := by
  rw [placed.place_answer entry detached h] at h
  obtain ⟨v', b, targets, before, after, entry', found, -, -, -, insts, spot, rfl⟩ := place_ok h
  rw [entry] at entry'
  cases entry'
  exact ⟨instsKept_placed placed entry detached found insts spot, edgesRevised_placed ..⟩

/-- Entering a value changes no list, so what counts is where it is placed. -/
theorem insert_orderKept (num : g.Numbered) (placed : g.Placed) {v : Value} {spot : Option BlockId}
    {id : ValueId} (plain : v.Plain) (h : g.insert v spot = .ok (id, g')) : g.OrderKept g' := by
  have entered := samePlaces_entered num plain.toIdle
  obtain ⟨-, -, -, rfl | ⟨block, -, hp⟩⟩ := insert_cases h
  · exact entered.instsKept.orderKept (P := fun _ _ => True) (.of_blocks rfl)
  · obtain ⟨insts, edges⟩ := place_revised (placed.of_samePlaces entered) (getElem?_entered_self v)
      plain.parent hp
    have first : g.EdgesRevised (fun _ _ => True) (g.entered v) := .of_blocks rfl
    exact (insts.after placed entered).orderKept (first.trans edges)

theorem attach_orderKept (placed : g.Placed) {inst : ValueId} {block : BlockId}
    {answer : Except Refusal Unit} (h : g.attach inst block = .ok (answer, g')) : g.OrderKept g' := by
  rcases attach_cases h with ⟨-, rfl⟩ | ⟨v, entry, -, detached, h⟩
  · exact .refl g'
  · obtain ⟨insts, edges⟩ := place_revised placed entry detached h
    exact insts.orderKept edges

theorem detach_orderKept {inst : ValueId} {answer : Except Refusal BlockId}
    (h : g.detach inst = .ok (answer, g')) : g.OrderKept g' := by
  cases answer with
  | error =>
    rw [detach_refused h]
    exact .refl g
  | ok block =>
    obtain ⟨v, targets, gone, -, -, -, -, -, -, rfl⟩ := detach_ok h
    exact instsKept_displaced.orderKept (edgesRevised_displaced ..)

theorem removeValue_orderKept (placed : g.Placed) {v : ValueId} {answer : Except Refusal Value}
    (h : g.removeValue v = .ok (answer, g')) : g.OrderKept g' := by
  cases answer with
  | error =>
    rw [removeValue_refused h]
    exact .refl g
  | ok entry =>
    obtain ⟨e, found, -, -, -, -, ⟨detached, rfl⟩ | ⟨block, g₁, attached, left, rfl⟩⟩ :=
      removeValue_split h
    · exact (samePlaces_without found detached).instsKept.orderKept (P := fun _ _ => True) (.of_blocks rfl)
    · obtain ⟨e', targets, gone, found', -, attached', -, -, -, rfl⟩ := detach_ok left
      have detached : (g.displaced v block gone).values[v]? = some { e with parent := none } := by
        simp [displaced, found, Value.moved]
      have same := samePlaces_without detached rfl
      have last : (g.displaced v block gone).EdgesRevised (fun _ _ => False)
        ((g.displaced v block gone).without v e.operands) := .of_blocks rfl
      exact (instsKept_displaced.before (placed.displaced found attached) same).orderKept
        ((edgesRevised_displaced v block gone).trans last)

theorem setOperand_orderKept {user value : ValueId} {index : Nat} {answer : Except Refusal ValueId}
    (h : g.setOperand user index value = .ok (answer, g')) : g.OrderKept g' := by
  simp only [setOperand, bind_eq_ok] at h
  obtain ⟨-, -, refusal, -, h⟩ := h
  split at h
  · simp only [pure_eq_ok, Prod.mk.injEq] at h
    rw [h.2]
    exact .refl g
  · simp only [bind_eq_ok, pure_eq_ok, Prod.exists, Prod.mk.injEq] at h
    obtain ⟨old, _, hw, -, rfl⟩ := h
    exact (writeOperand_framed hw).samePlaces.instsKept.orderKept (writeOperand_revised hw)

theorem replaceUses_orderKept {order : List Use} {old new : ValueId} {answer : Except Refusal Unit}
    (nodup : order.Nodup) (held : ∀ u ∈ order, g.slot u = some old)
    (h : g.replaceUses order new = .ok (answer, g')) : g.OrderKept g' := by
  simp only [replaceUses, bind_eq_ok] at h
  obtain ⟨refusal, -, h⟩ := h
  cases refusal with
  | some reason =>
    simp only [pure_eq_ok, Prod.mk.injEq] at h
    rw [h.2]
    exact .refl g
  | none =>
    simp only [bind_eq_ok, pure_eq_ok, Prod.mk.injEq] at h
    obtain ⟨_, hw, -, rfl⟩ := h
    obtain ⟨framed, revised⟩ := writeOperands_revised nodup held (by simpa only [bind_eq_ok] using hw)
    exact framed.samePlaces.instsKept.orderKept revised

end Graph

/-! ## Every edit -/

namespace Workspace

variable {w w' : Workspace}

theorem ChangeBy.orderKept (built : w.Built) (change : w.ChangeBy False w') :
    w.graph.OrderKept w'.graph := by
  have insts := (change.moved built).instsKept built.placed
  have num := built.numbered
  cases change with
  | graph change =>
    obtain ⟨P, edges⟩ := change.edgesRevised num
    exact insts.orderKept edges
  | function idle kind ty plain =>
    exact insts.orderKept (P := fun _ _ => True) (.of_blocks (grown_withFunction num idle kind plain _).blocks)
  | global | restore | discard => exact insts.orderKept (P := fun _ _ => True) (.of_blocks rfl)

theorem keepRemoved_orderKept (built : w.Built) {v : ValueId} {answer : Except Refusal Value} {g : Graph}
    (h : w.graph.removeValue v = .ok (answer, g)) :
    w.graph.OrderKept (w.keepRemoved v (answer, g)).2.graph := by
  have kept := Graph.removeValue_orderKept built.placed h
  cases answer with
  | error => exact kept
  | ok => exact kept

theorem Built.replace_revised (built : w.Built) {old new : ValueId} {answer : Except Refusal Reply}
    (edit : w.Step (.replaceAllUses old new) answer w') : w.graph.OrderKept w'.graph := by
  rcases edit.replace_cases with ⟨-, -, rfl⟩ | ⟨v, order, done, g, -, -, entry, perm, run, -, rfl⟩
  · exact .refl _
  · have members := built.useDef.mem_order entry perm
    exact Graph.replaceUses_orderKept (perm.nodup_iff.2 (nodup_toList _)) (fun u hu => (members u).1 hu) run

theorem apply_orderKept (built : w.Built) {e : Edit} {answer : Except Refusal Reply}
    (run : w.apply e = .ok (answer, w')) : w.graph.OrderKept w'.graph := by
  have placed := built.placed
  have num := built.numbered
  cases e with
  | define | declare =>
    simp only [apply, bind_eq_ok, pure_eq_ok, Prod.exists, Prod.mk.injEq] at run
    obtain ⟨_, _, run, -, rfl⟩ := run
    exact (addFunc_change run).orderKept built
  | addGlobal =>
    simp only [apply, bind_eq_ok, pure_eq_ok, Prod.exists, Prod.mk.injEq] at run
    obtain ⟨_, _, run, -, rfl⟩ := run
    exact (addGlobal_change run).orderKept built
  | addBlock =>
    simp only [apply, bind_eq_ok, pure_eq_ok, Prod.exists, Prod.mk.injEq] at run
    obtain ⟨_, _, run, -, rfl⟩ := run
    exact (ChangeBy.graph (Graph.createBlock_change run)).orderKept built
  | build =>
    simp only [apply, Graph.build, bind_eq_ok, pure_eq_ok, Prod.exists, Prod.mk.injEq] at run
    obtain ⟨_, _, ⟨-, -, v, drafted, run⟩, -, rfl⟩ := run
    exact Graph.insert_orderKept num placed (Draft.value_plain drafted) run
  | reinsert =>
    simp only [apply, removedEntry, Graph.reinsert, bind_eq_ok, pure_eq_ok, Table.fetch_eq_ok, Prod.exists,
      Prod.mk.injEq] at run
    obtain ⟨entry, found, _, _, ⟨-, -, run⟩, -, rfl⟩ := run
    exact Graph.insert_orderKept num placed (built.stored _ entry found) run
  | rename =>
    simp only [apply, bind_eq_ok, pure_eq_ok, Graph.rename_eq_ok, Prod.mk.injEq] at run
    obtain ⟨_, ⟨live, -, rfl⟩, -, rfl⟩ := run
    exact (ChangeBy.graph (.rename live)).orderKept built
  | setOperand =>
    simp only [apply, bind_eq_ok, pure_eq_ok, Prod.exists, Prod.mk.injEq] at run
    obtain ⟨_, _, run, -, rfl⟩ := run
    exact Graph.setOperand_orderKept run
  | replaceAllUses => exact built.replace_revised (.apply run)
  | addIncoming =>
    simp only [apply, bind_eq_ok, pure_eq_ok, Prod.mk.injEq] at run
    obtain ⟨_, run, -, rfl⟩ := run
    exact (ChangeBy.graph (Graph.addIncoming_change run)).orderKept built
  | removeValue v =>
    simp only [apply, bind_eq_ok, pure_eq_ok, Prod.exists] at run
    obtain ⟨removed, g, run, same⟩ := run
    rw [show w' = (w.keepRemoved v (removed, g)).2 from congrArg Prod.snd same]
    exact keepRemoved_orderKept built run
  | removeInst v =>
    simp only [apply, bind_eq_ok, pure_eq_ok, Prod.exists] at run
    obtain ⟨removed, g, run, same⟩ := run
    rw [show w' = (w.keepRemoved v (removed, g)).2 from congrArg Prod.snd same]
    rcases Graph.removeInst_cases run with ⟨rfl, rfl⟩ | run
    · exact .refl _
    · exact keepRemoved_orderKept built run
  | attach =>
    simp only [apply, bind_eq_ok, pure_eq_ok, Prod.exists, Prod.mk.injEq] at run
    obtain ⟨_, _, run, -, rfl⟩ := run
    exact Graph.attach_orderKept placed run
  | detach =>
    simp only [apply, bind_eq_ok, pure_eq_ok, Prod.exists, Prod.mk.injEq] at run
    obtain ⟨_, _, run, -, rfl⟩ := run
    exact Graph.detach_orderKept run

/-- After every run and whatever the edit, elements that stay in a list of instructions, predecessors or
successors keep their order. New predecessors and successors stand after those that stayed, a new phi has as
many instructions before it as the list had phis, and any other new instruction is the last. -/
theorem order_stable (h : w.Reachable) {e : Edit} {answer : Except Refusal Reply}
    (edit : w.Step e answer w') : w.graph.OrderKept w'.graph := by
  cases edit with
  | apply run => exact apply_orderKept h.built run
  | replace live ne entry perm run => exact h.built.replace_revised (.replace live ne entry perm run)

/-- A second phi comes after the phi of the loop and before what follows it. When one of the two targets of
the first branch moves, the successor that is left stays in front of the new one. -/
theorem order_stable_loop : loop.Reachable ∧
    ((loop.perform [.build (.phi .i32) (some 3)]).graph.instsOf 3)[1]? = some 11 ∧
    loop.graph.succsOf 2 = [3] ∧ (loop.perform [.setOperand 6 1 2]).graph.succsOf 2 = [3, 2] ∧
    Appended (loop.graph.succsOf 2) ((loop.perform [.setOperand 6 1 2]).graph.succsOf 2) := by
  have build : loop.Step (.build (.phi .i32) (some 3)) (.ok (.handle 11)) _ :=
    .perform (by decide +kernel)
  have move : loop.Step (.setOperand 6 1 2) (.ok (.handle 3)) _ := .perform (by decide +kernel)
  have phis : (loop.graph.instsOf 3).countP (loop.graph.kindOf · = some .phi) = 1 := by decide +kernel
  have index := (order_stable reachable_loop build).phi 3 11 (by decide +kernel) (by decide +kernel)
    (by decide +kernel)
  rw [phis] at index
  exact ⟨reachable_loop, index, by decide +kernel, by decide +kernel,
    (order_stable reachable_loop move).succs 2⟩

end Workspace

end SsaGraph
