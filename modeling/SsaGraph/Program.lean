import SsaGraph.Draft
import SsaGraph.Graph.Removal
import SsaGraph.Graph.Rewiring
import SsaGraph.Ty.Formation

/-!
# Programs

A program is a graph with the order in which its functions and globals are laid out. Both layouts
grow at the end and are never reordered; a global that is removed from the graph stays in its layout.

Also called: `new_func_data` (`createFunc`), `new_bb_data` (`createBlock`), `new_func` (`define`), `new_decl`
(`declare`), `new_global` (`addGlobal`).
-/
namespace SsaGraph

namespace Graph

/-- Creates the parameters of a function, numbered from `index` on. -/
def createParams (g : Graph) (index : Nat) :
    List (Option String × Ty) → Except Fault (List ValueId × Graph)
  | [] => .ok ([], g)
  | (name, ty) :: rest => do
    let (id, g) ← g.createNamed { ty, kind := .param index } name
    let (ids, g) ← g.createParams (index + 1) rest
    return (id :: ids, g)

/-- Creates a function. A declaration has parameter types but no parameter values. -/
def createFunc (g : Graph) (name : String) (params : List (Option String × Ty)) (ret : Ty)
    (isDecl : Bool) : Except Fault (FuncId × Graph) := do
  checkName name
  let ty ← Ty.formFunction (params.map (·.2)) ret
  let (id, g) ← g.createNamed { ty, kind := .function } (some name)
  let (params, g) ← if isDecl then pure ([], g) else g.createParams 0 params
  return (id, { g with functions := g.functions.insert id { ty, params, isDecl } })

/-- Creates a block at the end of a function. -/
def createBlock (g : Graph) (func : FuncId) (name : Option String) :
    Except Fault (BlockId × Graph) := do
  require (func ∈ g.functions) .unknownFunction
  require ((← g.func func).isDecl = false) .declarationBlock
  let (id, g) ← g.createNamed { ty := .label, kind := .block } name
  let g := { g with blocks := g.blocks.insert id { function := func } }
  let g ← g.updateFunc func fun f => { f with blocks := f.blocks ++ [id] }
  return (id, g)

/-- Creates a global variable; its value is the address. -/
def createGlobal (g : Graph) (name : String) (ty : Ty) (isConst : Bool) (init : ValueId) :
    Except Fault (ValueId × Graph) := do
  checkName name
  let v ← g.value init
  require (v.kind.isConst = true) .initializerKind
  require (v.ty = ty) .initializerType
  g.createNamed { ty := .pointer ty, kind := .global isConst, operands := [init] } (some name)

end Graph

structure Program where
  name : String
  graph : Graph := {}
  /-- Functions in the order of their creation. -/
  functions : List FuncId := []
  /-- Globals in the order of their creation. -/
  globals : List ValueId := []
  deriving DecidableEq

namespace Program

def addFunc (p : Program) (name : String) (params : List (Option String × Ty)) (ret : Ty)
    (isDecl : Bool) : Except Fault (FuncId × Program) := do
  let (id, graph) ← p.graph.createFunc name params ret isDecl
  return (id, { p with graph, functions := p.functions ++ [id] })

/-- Adds a function with one value per parameter and no blocks yet. -/
def define (p : Program) (name : String) (params : List (Option String × Ty)) (ret : Ty) :
    Except Fault (FuncId × Program) :=
  p.addFunc name params ret false

/-- Adds a function that has no body. -/
def declare (p : Program) (name : String) (params : List Ty) (ret : Ty) :
    Except Fault (FuncId × Program) :=
  p.addFunc name (params.map fun ty => (none, ty)) ret true

def addGlobal (p : Program) (name : String) (ty : Ty) (isConst : Bool) (init : ValueId) :
    Except Fault (ValueId × Program) := do
  let (id, graph) ← p.graph.createGlobal name ty isConst init
  return (id, { p with graph, globals := p.globals ++ [id] })

end Program

end SsaGraph
