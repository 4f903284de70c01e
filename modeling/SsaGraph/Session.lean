import SsaGraph.Text.Instruction
import SsaGraph.Workspace

/-!
# Sessions

A session edits a workspace and prints single values on the way. Names stay the same from one print
to the next until a scope begins or ends, and the diagnostics of all prints are counted together.
-/
namespace SsaGraph

structure Session where
  workspace : Workspace
  names : Names := {}
  tally : Tally := {}

namespace Session

/-- A session on a program that holds nothing yet. -/
def start (name : String) : Session := { workspace := { program := { name } } }

def program (s : Session) : Program := s.workspace.program

def graph (s : Session) : Graph := s.program.graph

def edit (s : Session) (e : Edit) : Except Fault (Except Refusal Reply × Session) := do
  let (answer, workspace) ← s.workspace.apply e
  return (answer, { s with workspace })

/-- Begins or ends a function scope, which forgets the local names. -/
def newScope (s : Session) : Session := { s with names := s.names.newScope }

/-- The written name of a value. -/
def nameOf (s : Session) (v : ValueId) : Except Fault (String × Session) := do
  let (text, names) := s.names.name v (← s.graph.value v)
  return (text, { s with names })

end Session

end SsaGraph
