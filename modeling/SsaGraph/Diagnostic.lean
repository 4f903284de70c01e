/-!
# Diagnostics

Printing notes errors and warnings on the way. A `Diagnostic` is one such note, a `Tally` counts
them, and a `Log` keeps both together with the summaries written between them. The written form of
a log depends on a `Palette`, which paints the words `error` and `warning` and nothing else.
-/
namespace SsaGraph

inductive Severity where
  | error
  | warning
  deriving DecidableEq, Repr

structure Diagnostic where
  severity : Severity
  message : String
  deriving DecidableEq, Repr

/-- How many errors and warnings there were. -/
structure Tally where
  errors : Nat := 0
  warnings : Nat := 0
  deriving DecidableEq, Repr

namespace Tally

def add (t : Tally) (d : Diagnostic) : Tally :=
  match d.severity with
  | .error => { t with errors := t.errors + 1 }
  | .warning => { t with warnings := t.warnings + 1 }

def addAll (t : Tally) (ds : List Diagnostic) : Tally := ds.foldl add t

def hasError (t : Tally) : Bool := t.errors ≠ 0

end Tally

/-- Whether the words of a log are painted. -/
inductive Palette where
  | plain
  | color
  deriving DecidableEq, Repr

namespace Palette

/-- Terminal code of a severity: bright red or yellow. -/
def code : Severity → String
  | .error => "91"
  | .warning => "33"

def paint (p : Palette) (s : Severity) (word : String) : String :=
  match p with
  | .plain => word
  | .color => "\x1b[" ++ code s ++ "m" ++ word ++ "\x1b[0m"

end Palette

def Severity.word : Severity → String
  | error => "error"
  | warning => "warning"

/-- One line: the severity, a colon and the message. -/
def Diagnostic.text (p : Palette) (d : Diagnostic) : String :=
  p.paint d.severity d.severity.word ++ ": " ++ d.message ++ "\n"

namespace Tally

/-- `1 error`, `2 warnings`; nothing for zero. -/
def countText (p : Palette) (s : Severity) (n : Nat) : String :=
  if n = 0 then ""
  else toString n ++ " " ++ p.paint s s.word ++ (if 1 < n then p.paint s "s" else "")

/-- One line with both counts, leaving out a zero; nothing at all when both are zero. -/
def summary (p : Palette) (t : Tally) : String :=
  if t.errors = 0 ∧ t.warnings = 0 then ""
  else
    countText p .error t.errors
      ++ (if t.errors ≠ 0 ∧ t.warnings ≠ 0 then " and " else "")
      ++ countText p .warning t.warnings ++ " emitted\n"

end Tally

/-- What a log holds: notes, and the counts summed up at some point. -/
inductive LogEntry where
  | note (d : Diagnostic)
  | summary (t : Tally)
  deriving DecidableEq, Repr

def LogEntry.text (p : Palette) : LogEntry → String
  | note d => d.text p
  | summary t => t.summary p

/-- Entries in the order of writing, and the tally of all notes among them. -/
structure Log where
  entries : List LogEntry := []
  tally : Tally := {}
  deriving DecidableEq, Repr

namespace Log

def note (l : Log) (d : Diagnostic) : Log :=
  { entries := l.entries ++ [.note d], tally := l.tally.add d }

def noteAll (l : Log) (ds : List Diagnostic) : Log :=
  { entries := l.entries ++ ds.map .note, tally := l.tally.addAll ds }

def summarize (l : Log) : Log :=
  { l with entries := l.entries ++ [.summary l.tally] }

def text (p : Palette) (l : Log) : String :=
  String.join (l.entries.map (LogEntry.text p))

end Log

end SsaGraph
