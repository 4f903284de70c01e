import SsaGraph.Program
import SsaGraph.Text.Instruction

/-!
# Written programs

A program is written as sections with one empty line between neighbours: the globals together, if
there are any, then each function. A definition holds its blocks, again with one empty line between
neighbours.

`Program.outline` lists what each line shows. `Program.dump` renders the lines one after the other and
keeps with each the diagnostics noted while it was rendered. It stops at the first line that faults.

Also called: `visit` (`Program.dump`), `visit_func` (`funcItems`, `headerLine`), `visit_bb` (`blockItems`),
`global` (`globalLine`).
-/
namespace SsaGraph

namespace Text

/-- What one line of a written program shows. -/
inductive Item where
  | global (id : ValueId)
  | blank
  /-- The head of a definition, or a whole declaration; local names start over here. -/
  | header (id : FuncId) (func : Func)
  | label (id : BlockId)
  | inst (id : ValueId)
  | close
  /-- A part of the program that does not exist. -/
  | broken (fault : Fault)
  deriving DecidableEq, Repr

def blockItems (g : Graph) (b : BlockId) : List Item :=
  .label b :: match g.blocks[b]? with
    | some block => block.insts.map .inst
    | none => [.broken .missingBlock]

def funcItems (g : Graph) (f : FuncId) : List Item :=
  match g.functions[f]? with
  | none => [.broken .missingFunction]
  | some func =>
    if func.isDecl then [.header f func]
    else .header f func :: [Item.blank].intercalate (func.blocks.map (blockItems g)) ++ [.close]

end Text

/-- The globals together, then the functions. -/
def Program.sections (p : Program) : List (List Text.Item) :=
  (if p.globals.isEmpty then [] else [p.globals.map .global])
    ++ p.functions.map (Text.funcItems p.graph)

/-- One item per line. -/
def Program.outline (p : Program) : List Text.Item :=
  [Text.Item.blank].intercalate p.sections

namespace Text

/-- A global: its name, `global` or `constant`, and its initial value. -/
def globalLine (g : Graph) (id : ValueId) : Render String := do
  let v ← g.value id
  let init ← v.operand 0
  match v.kind with
  | .global isConst =>
    let name ← nameOf id v
    let init ← typedOperand g init
    return name ++ " = " ++ (if isConst then "constant" else "global") ++ " " ++ init
  | _ => throw .invalidGlobal

def headerLine (g : Graph) (id : FuncId) (func : Func) : Render String := do
  modify fun pen => { pen with names := pen.names.newScope }
  let name ← nameOf id (← g.value id)
  let ret ← func.ret
  if func.isDecl then
    let params := commas ((func.ty.params?.getD []).map Ty.text)
    return "declare " ++ ret.text ++ " " ++ name ++ "(" ++ params ++ ")"
  else
    let params ← typedOperands g func.params
    return "define " ++ ret.text ++ " " ++ name ++ "(" ++ params ++ ") \x7b"

namespace Item

/-- The line of an item, without its line break. -/
def line (g : Graph) : Item → Render String
  | global id => globalLine g id
  | blank => return ""
  | header id func => headerLine g id func
  | label id => do return (← bareNameOf id (← g.value id)) ++ ":"
  | inst id => do return "  " ++ (← instruction g id)
  | close => return "\x7d"
  | broken fault => throw fault

end Item

/-- A line of text and the diagnostics noted while it was rendered. -/
structure Line where
  text : String
  notes : List Diagnostic := []
  deriving DecidableEq, Repr

/-- The lines rendered so far and, if the next one faulted, the fault with the diagnostics noted
before it. -/
structure Dump where
  lines : List Line := []
  stop : Option (Fault × List Diagnostic) := none
  deriving DecidableEq, Repr

/-- Renders items in order under the names given so far. -/
def dumpItems (g : Graph) (names : Names) : List Item → Dump
  | [] => {}
  | item :: rest =>
    match (item.line g).run { names } with
    | (.ok text, pen) =>
      let later := dumpItems g pen.names rest
      { later with lines := ⟨text, pen.notes⟩ :: later.lines }
    | (.error fault, pen) => { stop := some (fault, pen.notes) }

/-- The text of a dump; every line ends in a line break. -/
def Dump.text (d : Dump) : String :=
  String.join (d.lines.map fun line => line.text ++ "\n")

end Text

/-- The program line by line, with fresh names. -/
def Program.dump (p : Program) : Text.Dump :=
  Text.dumpItems p.graph {} p.outline

end SsaGraph
