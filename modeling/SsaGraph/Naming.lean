import SsaGraph.Value

/-!
# Written names

A value is written under one text for as long as its scope lasts. Functions and globals share the
global scope and the sigil `@`; all other values share the scope of the current function and the sigil
`%`. A stored name that is taken already gets the least free suffix `_0`, `_1`, ...; a value without
a stored name gets the least free number, counted on from the last one given.

Also called: `unique` (`Scope.freeName`), `temp` (the numbers of `Scope.name`), `value_name` (`Names.name`),
`enter_func_scope` and `exit_func_scope` (both `Names.newScope`).
-/
namespace SsaGraph

structure Scope where
  /-- The text of each value seen so far. -/
  given : Table String := ∅
  /-- The texts given so far. -/
  taken : Std.ExtTreeSet String := ∅
  /-- Where the search for a free number goes on. -/
  nextNumber : Nat := 0

namespace Scope

/-- The least `k` from `start` on whose text is not taken. Among one more candidates than there are
taken texts one is free, provided that different numbers have different texts. Numbers have no bound here;
counting from 0, a signed 32-bit counter agrees while fewer than `2 ^ 31` texts are taken. -/
def leastFree (s : Scope) (text : Nat → String) (start : Nat) : Nat :=
  ((List.range' start (s.taken.size + 1)).find? fun k => text k ∉ s.taken).getD start

/-- `name` itself, or `name` with the least free suffix. The suffix of a signed 32-bit counter is the same
one while fewer than `2 ^ 31` texts are taken. -/
def freeName (s : Scope) (name : String) : String :=
  let suffixed := fun k : Nat => name ++ "_" ++ toString k
  if name ∉ s.taken then name else suffixed (s.leastFree suffixed 0)

/-- Gives a value the text. -/
def give (s : Scope) (v : ValueId) (text : String) : Scope :=
  { s with given := s.given.insert v text, taken := s.taken.insert text }

/-- The text of a value with the stored name, given now if the value is new to the scope. -/
def name (s : Scope) (v : ValueId) (stored : Option String) : String × Scope :=
  match s.given[v]? with
  | some text => (text, s)
  | none =>
    match stored with
    | some stored =>
      let text := s.freeName stored
      (text, s.give v text)
    | none =>
      let number := s.leastFree (fun k => toString k) s.nextNumber
      (toString number, { s.give v (toString number) with nextNumber := number + 1 })

end Scope

structure Names where
  /-- The scope of the whole program. -/
  global : Scope := {}
  /-- The scope of the current function. -/
  current : Scope := {}

namespace Names

/-- Forgets all local names and starts numbering over. -/
def newScope (n : Names) : Names := { n with current := {} }

/-- The text of a value without its sigil. -/
def bareName (n : Names) (v : ValueId) (entry : Value) : String × Names :=
  if entry.kind.isGlobal then
    let (text, scope) := n.global.name v entry.name
    (text, { n with global := scope })
  else
    let (text, scope) := n.current.name v entry.name
    (text, { n with current := scope })

/-- The text of a value with its sigil. -/
def name (n : Names) (v : ValueId) (entry : Value) : String × Names :=
  let (text, n) := n.bareName v entry
  ((if entry.kind.isGlobal then "@" else "%") ++ text, n)

end Names

end SsaGraph
