import SsaGraph.Text.Dump
import SsaGraph.Text.Sink

/-!
# Printing in rounds

A program can be printed several times into one sink with one log. Each line is rendered, then its
diagnostics are logged, then its bytes are offered to the sink. A round that completes ends with a
summary of all diagnostics so far; a full sink or a fault ends the printing at once.

Also called: `generate_on` (`round`).
-/
namespace SsaGraph.Text

structure Printout where
  sink : Sink := {}
  log : Log := {}

/-- How printing ended. -/
inductive Ending where
  | complete
  /-- The sink refused a byte. -/
  | full
  | faulted (fault : Fault)
  deriving DecidableEq, Repr

namespace Printout

/-- Prints lines until the sink is full; says whether all of them fitted. -/
def putLines (out : Printout) : List Line → Bool × Printout
  | [] => (true, out)
  | line :: rest =>
    match out.sink.put (line.text ++ "\n").toUTF8 with
    | (true, sink) => putLines { sink, log := out.log.noteAll line.notes } rest
    | (false, sink) => (false, { sink, log := out.log.noteAll line.notes })

/-- Prints a dump once. -/
def round (out : Printout) (d : Dump) : Ending × Printout :=
  match out.putLines d.lines, d.stop with
  | (false, out), _ => (.full, out)
  | (true, out), some (fault, notes) => (.faulted fault, { out with log := out.log.noteAll notes })
  | (true, out), none => (.complete, { out with log := out.log.summarize })

/-- Prints a dump the given number of times, or until a round does not complete. -/
def rounds (out : Printout) (d : Dump) : Nat → Ending × Printout
  | 0 => (.complete, out)
  | n + 1 =>
    match out.round d with
    | (.complete, out) => out.rounds d n
    | (ending, out) => (ending, out)

end Printout

end SsaGraph.Text

namespace SsaGraph

end SsaGraph
