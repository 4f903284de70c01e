import Mathlib.Logic.Relation
import SsaGraph.Proofs.Effects.Creation
import SsaGraph.Proofs.Effects.Operands
import SsaGraph.Proofs.Effects.Placement

/-!
# Elementary changes

Whatever an edit does to a workspace, it does by changes of few kinds: a value is entered, renamed,
removed or put back, an operand slot is written, a phi gets a pair, an instruction is attached or
detached, a block, a global or a function is added. `Graph.ChangeBy` and `Workspace.ChangeBy` list them,
each with where its data comes from, with what else is known when it happens, and with the tables it
leaves. Both are told whether slots may be written: only two edits do that, and what the others keep
is easier to say without it.

A workspace is `Built` when such changes lead to it from an empty program. Invariants are proved once
for each change (`Built.invariant`); `SsaGraph.Proofs.Runs` shows that every run of edits is made of
changes, and the states between two changes of one edit are built as well.
-/
namespace SsaGraph

/-- How many operands a value of the kind can have. -/
def Kind.Arity : Kind → Nat → Prop
  | .integer _, n | .undef, n | .param _, n | .function, n | .block, n | .alloca _, n => n = 0
  | .load, n | .zext _, n | .global _, n => n = 1
  | .binary _, n | .compare _, n | .store, n => n = 2
  | .ret, n => n ≤ 1
  | .branch, n => n = 1 ∨ n = 3
  | .call, n | .elemPtr _, n => 1 ≤ n
  | .phi, n => n % 2 = 0

/-- A value that is not in a graph: detached and unused. -/
structure Value.Idle (v : Value) : Prop where
  arity : v.kind.Arity v.operands.length
  parent : v.parent = none
  uses : v.uses = ∅

/-- An idle value that needs no entry in the tables of blocks and functions. -/
structure Value.Plain (v : Value) : Prop extends v.Idle where
  noBlock : v.kind ≠ .block
  noFunction : v.kind ≠ .function

namespace Graph

/-- Slot `index` of `user`, with entry `v`, is to change from `old` to `new`, and can. -/
structure Writable (g : Graph) (user : ValueId) (v : Value) (index : Nat) (old new : ValueId) : Prop where
  entry : g.values[user]? = some v
  held : v.operands[index]? = some old
  ne : old ≠ new
  oldLive : old ∈ g.values
  newLive : new ∈ g.values
  accepts : g.Accepts v index new

/-- The graph with a new block at the end of a function. -/
def withBlock (g : Graph) (v : Value) (f : FuncId) (func : Func) : Graph :=
  { g.entered v with
    blocks := g.blocks.insert g.next { function := f }
    functions := g.functions.insert f { func with blocks := func.blocks ++ [g.next] } }

/-- The type of the value, if there is such a value. -/
def tyOf (g : Graph) (v : ValueId) : Option Ty := g.values[v]?.map Value.ty

/-- One change; a slot is written only if `writes` holds. -/
inductive ChangeBy (writes : Prop) : Graph → Graph → Prop
  | enter {g : Graph} {draft : Draft} {v : Value} (drafted : draft.value g = .ok v)
      (live : ∀ op ∈ v.operands, op ∈ g.values) : ChangeBy writes g (g.entered v)
  | rename {g : Graph} {v : ValueId} {name : Option String} (live : v ∈ g.values) :
      ChangeBy writes g (g.renamed v name)
  /-- No edge depends on the slot. -/
  | rewire {g : Graph} {user old new : ValueId} {index : Nat} {v : Value}
      (slot : g.Writable user v index old new) (apart : edgeSource? v index = none) (allowed : writes) :
      ChangeBy writes g (g.rewired ⟨user, index⟩ old new)
  /-- The slot is a target of a branch in the list of `src`. -/
  | retarget {g : Graph} {user old new : ValueId} {index : Nat} {v : Value} {src : BlockId}
      {gone : List BlockId} (slot : g.Writable user v index old new)
      (along : edgeSource? v index = some src) (live : src ∈ g.blocks ∧ new ∈ g.blocks)
      (unused : ∀ d, d ∈ gone ↔ d = old ∧ ¬(g.rewired ⟨user, index⟩ old new).RunsAlong none src d)
      (allowed : writes) :
      ChangeBy writes g ((g.rewired ⟨user, index⟩ old new).mapBlocks fun x b =>
        (b.unlinked src gone x).linked src [new] x)
  | incoming {g : Graph} {phi value : ValueId} {block : BlockId} {p : Value}
      (entry : g.values[phi]? = some p) (kind : p.kind = .phi) (live : value ∈ g.values)
      (blockLive : block ∈ g.blocks ∧ block ∈ g.values) (ty : g.tyOf value = some p.ty) :
      ChangeBy writes g
        ((g.extended phi p.operands.length value).extended phi (p.operands.length + 1) block)
  | place {g : Graph} {inst : ValueId} {block : BlockId} {v : Value} {b : Block}
      {targets before after : List ValueId} (entry : g.values[inst]? = some v)
      (kind : v.kind.isInst = true) (detached : v.parent = none) (spotBlock : g.blocks[block]? = some b)
      (branch : targetsOf v = .ok targets) (live : ∀ t ∈ targets, t ∈ g.blocks)
      (insts : b.insts = before ++ after) (spot : g.Spot (v.kind = .phi) before after) :
      ChangeBy writes g (g.placed inst block (before ++ inst :: after) targets)
  | displace {g : Graph} {inst : ValueId} {block : BlockId} {v : Value} {targets gone : List BlockId}
      (entry : g.values[inst]? = some v) (attached : v.parent = some block)
      (branch : targetsOf v = .ok targets)
      (unused : ∀ d, d ∈ gone ↔ d ∈ targets ∧ ¬g.RunsAlong (some inst) block d) :
      ChangeBy writes g (g.displaced inst block gone)
  | block {g : Graph} {v : Value} {f : FuncId} {func : Func} (idle : v.Idle) (kind : v.kind = .block)
      (found : g.functions[f]? = some func) (defined : func.isDecl = false) (ty : v.ty = .label) :
      ChangeBy writes g (g.withBlock v f func)

abbrev Change : Graph → Graph → Prop := ChangeBy True

theorem ChangeBy.change {writes : Prop} {g g' : Graph} (h : g.ChangeBy writes g') : g.Change g' := by
  cases h with
  | enter drafted live => exact .enter drafted live
  | rename live => exact .rename live
  | rewire slot apart => exact .rewire slot apart trivial
  | retarget slot along live unused => exact .retarget slot along live unused trivial
  | incoming entry kind live blockLive ty => exact .incoming entry kind live blockLive ty
  | place entry kind detached spotBlock branch live insts spot =>
    exact .place entry kind detached spotBlock branch live insts spot
  | displace entry attached branch unused => exact .displace entry attached branch unused
  | block idle kind found defined ty => exact .block idle kind found defined ty

end Graph

namespace Workspace

/-- A program that holds nothing yet, and nothing removed from it. -/
def start (name : String) : Workspace := { program := { name } }

def graph (w : Workspace) : Graph := w.program.graph

/-- The workspace with a new function and its parameters. -/
def withFunction (w : Workspace) (v : Value) (params : List Value) (func : Func) : Workspace :=
  let g := params.foldl Graph.entered (w.graph.entered v)
  { w with
    program :=
      { w.program with
        graph := { g with functions := g.functions.insert w.graph.next func }
        functions := w.program.functions ++ [w.graph.next] } }

/-- The workspace with a new global. -/
def withGlobal (w : Workspace) (v : Value) : Workspace :=
  { w with
    program :=
      { w.program with graph := w.graph.entered v, globals := w.program.globals ++ [w.graph.next] } }

/-- One change; a slot is written only if `writes` holds. -/
inductive ChangeBy (writes : Prop) : Workspace → Workspace → Prop
  | graph {w : Workspace} {g : Graph} (change : w.graph.ChangeBy writes g) :
      ChangeBy writes w (w.withGraph g)
  | function {w : Workspace} {v : Value} {params : List Value} {func : Func} (idle : v.Idle)
      (kind : v.kind = .function) (ty : v.ty = func.ty)
      (plain : ∀ p ∈ params, p.Plain ∧ p.operands = []) (blocks : func.blocks = [])
      (ids : func.params = List.range' (w.graph.next + 1) params.length)
      (kinds : ∀ p ∈ params, ∃ index, p.kind = .param index)
      (formed : ∃ tys ret, func.ty = .function tys ret) :
      ChangeBy writes w (w.withFunction v params func)
  | global {w : Workspace} {v : Value} {isConst : Bool} {ty : Ty} (plain : v.Plain)
      (kind : v.kind = .global isConst) (live : ∀ op ∈ v.operands, op ∈ w.graph.values)
      (init : v.operands.map w.graph.tyOf = [some ty]) (pointer : v.ty = .pointer ty) :
      ChangeBy writes w (w.withGlobal v)
  /-- The entry that was removed under `v` is entered again. -/
  | restore {w : Workspace} {v : ValueId} {entry : Value} (found : w.removed[v]? = some entry)
      (live : ∀ op ∈ entry.operands, op ∈ w.graph.values) :
      ChangeBy writes w { w.withGraph (w.graph.entered entry) with removed := w.removed.erase v }
  /-- A value is removed, and its entry kept. -/
  | discard {w : Workspace} {v : ValueId} {entry : Value} (found : w.graph.values[v]? = some entry)
      (unused : entry.uses = ∅) (detached : entry.parent = none) (noBlock : entry.kind ≠ .block)
      (noFunction : entry.kind ≠ .function) :
      ChangeBy writes w
        { w.withGraph (w.graph.without v entry.operands) with removed := w.removed.insert v entry }

abbrev Change : Workspace → Workspace → Prop := ChangeBy True

theorem ChangeBy.change {writes : Prop} {w w' : Workspace} (h : w.ChangeBy writes w') :
    w.Change w' := by
  cases h with
  | graph change => exact .graph change.change
  | function idle kind ty plain blocks ids kinds formed =>
    exact .function idle kind ty plain blocks ids kinds formed
  | global plain kind live init pointer => exact .global plain kind live init pointer
  | restore found live => exact .restore found live
  | discard found unused detached noBlock noFunction =>
    exact .discard found unused detached noBlock noFunction

/-- The workspace is reached from an empty program by elementary changes. -/
def Built (w : Workspace) : Prop := ∃ name, Relation.ReflTransGen Change (start name) w

theorem Built.changes {w w' : Workspace} (h : w.Built) (path : Relation.ReflTransGen Change w w') :
    w'.Built := by
  obtain ⟨name, before⟩ := h
  exact ⟨name, before.trans path⟩

/-- What holds of empty programs and is kept by every change of a built workspace holds of every
built workspace. -/
theorem Built.invariant {P : Workspace → Prop} (init : ∀ name, P (start name))
    (step : ∀ {w w' : Workspace}, w.Built → P w → w.Change w' → P w') {w : Workspace} (h : w.Built) :
    P w := by
  obtain ⟨name, path⟩ := h
  induction path with
  | refl => exact init name
  | tail before last ih => exact step ⟨name, before⟩ ih last

end Workspace

end SsaGraph
