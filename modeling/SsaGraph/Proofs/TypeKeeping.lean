import SsaGraph.Proofs.Refusals
import SsaGraph.Proofs.Typing

/-!
# Rewriting by values of the same type

The types of operands are looked at when a value is built and never again. A write that puts a value of
the same type into a slot keeps all that was checked; so does everything that is not a write, with one
thing to see to: a removed entry that is put back names operands by handles, and these must not have
other types by then. `Graph.Lasting` is what is kept of values and removed entries alike, namely that the
rules hold as long as all operands are there.

Results:
* `TypeKeeping.lasting`: it is kept along every run whose writes keep types;
* `rewriting_keeps_types`: so every value obeys the typing rules, and every load has a type to read.
-/
namespace SsaGraph

namespace Graph

variable {g g' : Graph} {v e : Value} {x : ValueId}

/-! ## Checked values -/

theorem Checked.of_bare (h : g.Checked v) (bare : e.bare = v.bare) : g.Checked e := by
  obtain ⟨ty, kind, operands⟩ := Value.bare_inj.1 bare
  obtain ⟨tys, types, typed⟩ := h
  exact ⟨tys, by rw [operands, types], by rw [ty, kind]; exact typed⟩

theorem Checked.congr (h : g.Checked v) (same : ∀ op ∈ v.operands, g'.tyOf op = g.tyOf op) :
    g'.Checked v := by
  obtain ⟨tys, types, typed⟩ := h
  exact ⟨tys, (List.map_congr_left same).trans types, typed⟩

theorem Checked.live (h : g.Checked v) : ∀ op ∈ v.operands, op ∈ g.values := by
  intro op hop
  obtain ⟨tys, types, -⟩ := h
  have listed : g.tyOf op ∈ tys.map some := types ▸ List.mem_map_of_mem hop
  obtain ⟨t, -, ht⟩ := List.mem_map.1 listed
  obtain ⟨e, he, -⟩ := tyOf_eq_some.1 ht.symm
  exact Table.mem_of_getElem? he

/-- A new pair puts its value into an even slot, where the rule looks. -/
theorem Checked.extend {value : ValueId} {block : BlockId} (h : g.Checked v) (kind : v.kind = .phi)
    (arity : v.kind.Arity v.operands.length) (ty : g.tyOf value = some v.ty) (live : block ∈ g.values) :
    g.Checked ((v.pushOperand value).pushOperand block) := by
  obtain ⟨tys, types, typed⟩ := h
  obtain ⟨t, ht⟩ := exists_ty live
  have count : v.operands.length = tys.length := by simpa using congrArg List.length types
  rw [kind] at typed arity
  rw [count] at arity
  refine ⟨tys ++ [v.ty, t], by simp [Value.pushOperand, types, ty, ht], ?_⟩
  simp only [Value.pushOperand, kind]
  cases typed with
  | phi storable incoming =>
    refine .phi storable fun i u even held => ?_
    rcases getElem?_append_pair arity held with old | ⟨-, first⟩ | ⟨odd, -⟩
    · exact incoming i u even old
    · exact first
    · omega

theorem checked_of_no_operands (none : v.operands = []) (typed : Typed v.kind v.ty []) : g.Checked v :=
  ⟨[], by rw [none]; rfl, typed⟩

/-! ## Entries that may come back -/

/-- The handles of the operands were given out, and the rules hold as long as all of them have a
value. -/
structure Lasting (g : Graph) (v : Value) : Prop where
  issued : ∀ op ∈ v.operands, op < g.next
  checked : (∀ op ∈ v.operands, op ∈ g.values) → g.Checked v

theorem Lasting.of_bare (h : g.Lasting v) (bare : e.bare = v.bare) : g.Lasting e := by
  have operands := (Value.bare_inj.1 bare).2.2
  refine ⟨?_, ?_⟩
  · rw [operands]
    exact h.issued
  · rw [operands]
    exact fun live => (h.checked live).of_bare bare

theorem Checked.lasting (h : g.Checked v) (num : g.Numbered) : g.Lasting v :=
  ⟨fun op hop => num.values op (h.live op hop), fun _ => h⟩

/-- Handles that were given out never get another type, so the rules go on to hold. -/
theorem Lasting.mono (h : g.Lasting v) (next : g.next ≤ g'.next)
    (ty : ∀ x t, x < g.next → g'.tyOf x = some t → g.tyOf x = some t) : g'.Lasting v where
  issued op hop := Nat.lt_of_lt_of_le (h.issued op hop) next
  checked live := by
    have same : ∀ op ∈ v.operands, g'.tyOf op = g.tyOf op := by
      intro op hop
      obtain ⟨t, ht⟩ := exists_ty (live op hop)
      rw [ht, ty op t (h.issued op hop) ht]
    refine (h.checked fun op hop => ?_).congr same
    obtain ⟨t, ht⟩ := exists_ty (live op hop)
    rw [same op hop] at ht
    obtain ⟨e, he, -⟩ := tyOf_eq_some.1 ht
    exact Table.mem_of_getElem? he

/-! ## Writes -/

/-- Every slot holds a value of the type that it held before. -/
structure Retyped (g g' : Graph) : Prop where
  values : ∀ x : ValueId, g'.values[x]?.map Value.frame = g.values[x]?.map Value.frame
  slots : ∀ u, (g'.slot u).map g.tyOf = (g.slot u).map g.tyOf
  next : g'.next = g.next

theorem Retyped.tyOf (h : g.Retyped g') (x : ValueId) : g'.tyOf x = g.tyOf x := by
  have ty := congrArg (Option.map Prod.fst) (h.values x)
  simp only [Option.map_map] at ty
  exact ty

/-- A value whose slots hold values of the same types is checked as it was. -/
theorem Retyped.checked (h : g.Retyped g') (all : ∀ (x : ValueId) (e : Value), g.values[x]? = some e →
    g.Checked e) (he : g'.values[x]? = some e) : g'.Checked e := by
  have frame := h.values x
  rw [he, Option.map_some] at frame
  obtain ⟨old, entry, same⟩ := Option.map_eq_some_iff.1 frame.symm
  simp only [Value.frame, Prod.mk.injEq] at same
  obtain ⟨ty, kind, -, -⟩ := same
  have types : e.operands.map g.tyOf = old.operands.map g.tyOf := by
    refine List.ext_getElem? fun i => ?_
    have held := h.slots ⟨x, i⟩
    simp only [slot, he, entry, Option.bind_some] at held
    rw [List.getElem?_map, List.getElem?_map]
    exact held
  obtain ⟨tys, known, typed⟩ := all x old entry
  refine ⟨tys, ?_, by rw [← ty, ← kind]; exact typed⟩
  rw [show g'.tyOf = g.tyOf from funext h.tyOf, types, known]

theorem retyped_writeOperand {user old new : ValueId} {index : Nat}
    (h : g.writeOperand user index new = .ok (old, g')) (ty : g.tyOf new = g.tyOf old) :
    g.Retyped g' := by
  have framed := writeOperand_framed h
  obtain ⟨v, hv, held, -⟩ := writeOperand_eq_ok.1 h
  refine ⟨framed.frame, fun u => ?_, framed.next⟩
  rw [slot_writeOperand (u := ⟨user, index⟩) h]
  split
  · rename_i here
    rw [here, slot_eq_some.2 ⟨v, hv, held⟩, Option.map_some, Option.map_some, ty]
  · rfl

theorem Substituted.retyped {old new : ValueId} (h : g.Substituted old new g')
    (ty : (∃ u, g.slot u = some old) → g.tyOf new = g.tyOf old) : g.Retyped g' := by
  refine ⟨h.values, fun u => ?_, h.next⟩
  rw [h.slots]
  cases held : g.slot u with
  | none => rfl
  | some y =>
    simp only [Option.map_some, subst]
    split
    · rename_i here
      rw [here, ty ⟨u, here ▸ held⟩]
    · rfl

end Graph

/-! ## Runs that keep types -/

namespace Workspace

open Relation

variable {w w' : Workspace}

/-- If the edit writes slots and goes through, it puts a value of the same type there. -/
def KeepsTypes (w : Workspace) : Edit → Except Refusal Reply → Prop
  | .setOperand user index value, .ok _ =>
    ∀ old, w.graph.slot ⟨user, index⟩ = some old → w.graph.tyOf value = w.graph.tyOf old
  | .replaceAllUses old new, .ok _ =>
    (∃ u, w.graph.slot u = some old) → w.graph.tyOf new = w.graph.tyOf old
  | _, _ => True

/-- A run of edits that keep types leads from an empty program to the workspace. -/
inductive TypeKeeping : Workspace → Prop
  | start (name : String) : TypeKeeping (start name)
  | step {w w' : Workspace} {e : Edit} {answer : Except Refusal Reply} (run : TypeKeeping w)
      (edit : w.Step e answer w') (keeps : w.KeepsTypes e answer) : TypeKeeping w'

theorem TypeKeeping.reachable (h : w.TypeKeeping) : w.Reachable := by
  induction h with
  | start name => exact .start name
  | step run edit keeps ih => exact ih.step edit

/-- The operands of a value in the graph are there, so the rules hold of it. -/
theorem Built.checked (built : w.Built) (all : w.All w.graph.Lasting) (x : ValueId) (e : Value)
    (he : w.graph.values[x]? = some e) : w.graph.Checked e :=
  (all.1 x e he).checked (built.useDef.operands_live he)

/-- One change that is not a write. -/
theorem Built.lasting_change (built : w.Built) (all : w.All w.graph.Lasting)
    (change : w.ChangeBy False w') : w'.All w'.graph.Lasting := by
  have num := built.numbered
  have next := (change.extends num).next
  have ty := fun x t => change.tyOf_old (x := x) (t := t) num
  -- all of them hold before the change already, and last
  refine ⟨fun x e he => Graph.Lasting.mono ?_ next ty, fun v e he => Graph.Lasting.mono ?_ next ty⟩
  · cases change.origin num he with
    | kept entry bare => exact (all.1 x _ entry).of_bare bare
    | written allowed => exact allowed.elim
    | extended entry kind blockLive ty bare =>
      have checked := (built.checked all x _ entry).extend kind (built.shaped x _ entry) ty
        (built.catalogued.live_block blockLive)
      exact (checked.of_bare bare).lasting num
    | drafted new drafted live bare =>
      have made := Draft.value_made built.catalogued drafted live
      exact (made.checked.of_bare bare).lasting num
    | block new kind ty none =>
      exact (Graph.checked_of_no_operands none (by rw [kind, ty]; exact .block)).lasting num
    | function new kind none =>
      exact (Graph.checked_of_no_operands none (by rw [kind]; exact .function)).lasting num
    | param new kind none =>
      exact (Graph.checked_of_no_operands none (by rw [kind]; exact .param)).lasting num
    | global new kind init pointer =>
      have checked : w.graph.Checked e := ⟨[_], init, by rw [kind, pointer]; exact .global⟩
      exact checked.lasting num
    | restored new found live bare => exact (all.2 _ _ found).of_bare bare
  · rcases change.removed_origin he with he | he
    · exact all.2 v e he
    · exact all.1 v e he

theorem Built.lasting_changes (built : w.Built) (all : w.All w.graph.Lasting)
    (path : ReflTransGen (ChangeBy False) w w') : w'.All w'.graph.Lasting := by
  induction path with
  | refl => exact all
  | tail before last ih =>
    have between := built.changes (before.lift id fun _ _ change => change.change)
    exact between.lasting_change ih last

/-- Writes that keep the types of all slots. -/
theorem Built.lasting_retyped (built : w.Built) (all : w.All w.graph.Lasting) {g : Graph}
    (after : (w.withGraph g).Built) (retyped : w.graph.Retyped g) :
    (w.withGraph g).All (w.withGraph g).graph.Lasting := by
  refine ⟨fun x e he => ?_, fun v e he => ?_⟩
  · have checked : g.Checked e := retyped.checked (built.checked all) he
    exact checked.lasting after.numbered
  · refine (all.2 v e he).mono (Nat.le_of_eq retyped.next.symm) fun x t _ h => ?_
    rw [← retyped.tyOf]
    exact h

theorem Step.setOperand_retyped {user value : ValueId} {index : Nat} {reply : Reply}
    (edit : w.Step (.setOperand user index value) (.ok reply) w')
    (keeps : ∀ old, w.graph.slot ⟨user, index⟩ = some old → w.graph.tyOf value = w.graph.tyOf old) :
    ∃ g, w' = w.withGraph g ∧ w.graph.Retyped g := by
  cases edit with
  | apply run =>
    simp only [Workspace.apply, Graph.setOperand, bind_eq_ok, pure_eq_ok, Prod.exists, Prod.mk.injEq] at run
    obtain ⟨_, g, ⟨-, -, refusal, -, h⟩, done, rfl⟩ := run
    refine ⟨g, rfl, ?_⟩
    cases refusal with
    | some reason =>
      simp only [pure_eq_ok, Prod.mk.injEq] at h
      rw [h.1] at done
      cases done
    | none =>
      simp only [bind_eq_ok, pure_eq_ok, Prod.exists, Prod.mk.injEq] at h
      obtain ⟨old, _, hw, -, rfl⟩ := h
      obtain ⟨v, hv, held, -⟩ := Graph.writeOperand_eq_ok.1 hw
      exact Graph.retyped_writeOperand hw (keeps old (Graph.slot_eq_some.2 ⟨v, hv, held⟩))

theorem Built.replace_retyped (built : w.Built) {old new : ValueId} {reply : Reply}
    (edit : w.Step (.replaceAllUses old new) (.ok reply) w')
    (keeps : (∃ u, w.graph.slot u = some old) → w.graph.tyOf new = w.graph.tyOf old) :
    ∃ g, w' = w.withGraph g ∧ w.graph.Retyped g := by
  rcases edit.replace_cases with ⟨-, -, rfl⟩ | ⟨v, order, done, g, live, ne, entry, perm, run, ok, rfl⟩
  · exact ⟨w'.graph, rfl, fun _ => rfl, fun _ => rfl, rfl⟩
  · refine ⟨g, rfl, ?_⟩
    rcases built.replaceUses_cases entry live ne perm with ⟨-, g', run', written⟩ | ⟨-, reason, run'⟩
    · rw [run] at run'
      cases run'
      exact written.retyped keeps
    · rw [run] at run'
      cases run'
      cases ok

/-- One edit that keeps types. -/
theorem Built.lasting_step (built : w.Built) (all : w.All w.graph.Lasting) {e : Edit}
    {answer : Except Refusal Reply} (edit : w.Step e answer w') (keeps : w.KeepsTypes e answer) :
    w'.All w'.graph.Lasting := by
  have after := edit.built built
  cases answer with
  | error reason =>
    rw [(built.refusedExactly edit).same reason rfl]
    exact all
  | ok reply =>
    cases e with
    | setOperand =>
      obtain ⟨g, rfl, retyped⟩ := edit.setOperand_retyped keeps
      exact built.lasting_retyped all after retyped
    | replaceAllUses =>
      obtain ⟨g, rfl, retyped⟩ := built.replace_retyped edit keeps
      exact built.lasting_retyped all after retyped
    | define | declare | addGlobal | addBlock | build | reinsert | rename | addIncoming | removeValue |
      removeInst | attach | detach => exact built.lasting_changes all (edit.changes built)

theorem TypeKeeping.lasting (h : w.TypeKeeping) : w.All w.graph.Lasting := by
  induction h with
  | start name => exact .start name _
  | step run edit keeps ih => exact run.reachable.built.lasting_step ih edit keeps

/-- The pointer that a load reads from says what it reads. -/
theorem loadTy_total {x : ValueId} {e : Value} (he : w.graph.values[x]? = some e)
    (checked : w.graph.Checked e) (kind : e.kind = .load) :
    ∃ src ty, e.operands = [src] ∧ w.graph.tyOf src = some (.pointer ty) ∧ w.graph.loadTy x = .ok ty := by
  obtain ⟨tys, types, typed⟩ := checked
  rw [kind] at typed
  cases typed with
  | @load _ pointee =>
    obtain ⟨src, operands⟩ : ∃ src, e.operands = [src] :=
      List.length_eq_one_iff.1 (by simpa using congrArg List.length types)
    rw [operands] at types
    have ty : w.graph.tyOf src = some (.pointer pointee) := by simpa using types
    obtain ⟨s, hs, known⟩ := Graph.tyOf_eq_some.1 ty
    refine ⟨src, pointee, operands, ty, ?_⟩
    simp only [Graph.loadTy, bind_eq_ok, Graph.value_eq_ok, require_eq_ok, Value.operand_eq_ok]
    exact ⟨e, he, (), kind, src, by rw [operands]; rfl, s, hs, by rw [known]; rfl⟩

/-- Along a run whose writes put values of the same type into slots, every value obeys the typing rules
of its kind: attached or detached, and also after it was removed and put back. So there is always a type
that a load reads. -/
theorem rewriting_keeps_types (h : w.TypeKeeping) {x : ValueId} {e : Value}
    (live : w.graph.values[x]? = some e) :
    w.graph.Checked e ∧
      (e.kind = .load → ∃ src ty, e.operands = [src] ∧ w.graph.tyOf src = some (.pointer ty) ∧
        w.graph.loadTy x = .ok ty) := by
  have checked := h.reachable.built.checked h.lasting x e live
  exact ⟨checked, loadTy_total live checked⟩

theorem TypeKeeping.edit (h : w.TypeKeeping) {e : Edit} (keeps : ∀ answer, w.KeepsTypes e answer) :
    (w.perform [e]).TypeKeeping := by
  simp only [Workspace.perform]
  split
  · rename_i answer w' run
    exact h.step (.apply run) (keeps answer)
  · exact h

theorem TypeKeeping.perform (h : w.TypeKeeping) {edits : List Edit} (apart : ∀ e ∈ edits, ¬e.Rewrites) :
    (w.perform edits).TypeKeeping := by
  induction edits generalizing w with
  | nil => exact h
  | cons e edits ih =>
    have keeps : ∀ answer, w.KeepsTypes e answer := by
      intro answer
      have other := apart e (List.mem_cons_self ..)
      cases e with
      | setOperand | replaceAllUses => exact absurd trivial other
      | _ => trivial
    have rest := ih (h.edit keeps) fun e' he' => apart e' (List.mem_cons_of_mem e he')
    simp only [Workspace.perform] at rest ⊢
    cases run : w.apply e <;> simpa [run] using rest

/-- A load from a parameter is removed and put back. -/
def reload : Workspace :=
  (start "reload").perform
    [.define "f" [(none, .pointer .i32)] .i32, .addBlock 1 none, .build (.alloca .i32) (some 3),
      .build (.load .i32 2) (some 3), .removeInst 5, .reinsert 5 (some 3)]

/-- The load that was put back reads from the stack slot in place of the parameter. -/
theorem rewriting_keeps_types_reload : (reload.perform [.setOperand 6 0 4]).TypeKeeping ∧
    ∃ load, (reload.perform [.setOperand 6 0 4]).graph.values[6]? = some load ∧ load.operands = [4] ∧
      (reload.perform [.setOperand 6 0 4]).graph.Checked load ∧
      (reload.perform [.setOperand 6 0 4]).graph.loadTy 6 = .ok .i32 := by
  have before : reload.TypeKeeping :=
    (TypeKeeping.start "reload").perform (by simp [Edit.Rewrites])
  have keeps : ∀ answer, reload.KeepsTypes (.setOperand 6 0 4) answer := by
    intro answer
    cases answer with
    | error => trivial
    | ok reply =>
      intro old held
      have was : reload.graph.slot ⟨6, 0⟩ = some 2 := by decide +kernel
      rw [was] at held
      cases held
      decide +kernel
  have run := before.edit keeps
  have entry : ((reload.perform [.setOperand 6 0 4]).graph.values[6]?).map
      (fun v => (v.kind, v.operands)) = some (.load, [4]) := by decide +kernel
  obtain ⟨load, found, same⟩ := Option.map_eq_some_iff.1 entry
  obtain ⟨kind, operands⟩ := Prod.mk.inj same
  obtain ⟨checked, reads⟩ := rewriting_keeps_types run found
  obtain ⟨src, ty, own, pointer, answer⟩ := reads kind
  rw [operands] at own
  cases own
  have pointee : (reload.perform [.setOperand 6 0 4]).graph.tyOf 4 = some (.pointer .i32) := by
    decide +kernel
  rw [pointee] at pointer
  cases pointer
  exact ⟨run, load, found, operands, checked, answer⟩

end Workspace

end SsaGraph
