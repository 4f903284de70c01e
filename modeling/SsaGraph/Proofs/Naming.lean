import Mathlib.Data.List.Nodup
import SsaGraph.Naming

/-!
# Distinct and lasting names

A scope gives each value one text and no text twice. Stored names may look like generated ones (`0`,
`x_0`), numbers and suffixes are counted in one set of taken texts, and a value may be renamed after its
text was given. None of this matters, since a text is looked for until one is free and is then kept.

Results:
* `Scope.leastFree_not_mem`: the search for a number or a suffix ends at a text that is not taken;
* `Scope.Distinct.name`, `Scope.keeps_name`: naming a value keeps the texts of a scope apart and changes
  none of them;
* `Names.names_distinct`: in every series of calls two names are the same text exactly when they name the
  same value, as long as their scope lasts.
-/
namespace SsaGraph

/-! ## The search for a free text -/

theorem toString_injective : Function.Injective (toString : Nat → String) := by
  intro m n h
  have digits : Nat.toDigits 10 m = Nat.toDigits 10 n := by
    simpa using congrArg String.toList h
  have read := congrArg (Nat.ofDigitChars 10 · 0) digits
  simpa only [Nat.ofDigitChars_ten_toDigits] using read

theorem suffixed_injective (name : String) :
    Function.Injective fun k : Nat => name ++ "_" ++ toString k := fun _ _ h =>
  toString_injective ((String.append_right_inj (name ++ "_")).1 h)

namespace Scope

variable {s s' : Scope} {v u : ValueId} {text : String} {stored : Option String}

/-- Different texts that are all taken are no more than the scope has taken texts. -/
theorem length_le_size {l : List String} (nodup : l.Nodup) (taken : ∀ text ∈ l, text ∈ s.taken) :
    l.length ≤ s.taken.size := by
  rw [← Std.ExtTreeSet.length_toList]
  exact nodup.length_le_of_subset fun text member => Std.ExtTreeSet.mem_toList.2 (taken text member)

/-- There are fewer taken texts than candidates. -/
theorem exists_free (s : Scope) {texts : Nat → String} (inj : Function.Injective texts) (start : Nat) :
    ∃ k ∈ List.range' start (s.taken.size + 1), texts k ∉ s.taken := by
  by_contra none
  have all : ∀ text ∈ (List.range' start (s.taken.size + 1)).map texts, text ∈ s.taken := by
    intro text ht
    obtain ⟨k, hk, rfl⟩ := List.mem_map.1 ht
    by_contra free
    exact none ⟨k, hk, free⟩
  have count := length_le_size ((List.nodup_range' _).map inj) all
  simp only [List.length_map, List.length_range'] at count
  omega

theorem leastFree_not_mem (s : Scope) {texts : Nat → String} (inj : Function.Injective texts)
    (start : Nat) : texts (s.leastFree texts start) ∉ s.taken := by
  unfold leastFree
  cases found : (List.range' start (s.taken.size + 1)).find? fun k => texts k ∉ s.taken with
  | none =>
    obtain ⟨k, hk, free⟩ := s.exists_free inj start
    exact absurd free (by simpa using List.find?_eq_none.1 found k hk)
  | some k => simpa using List.find?_some found

theorem freeName_not_mem (s : Scope) (name : String) : s.freeName name ∉ s.taken := by
  unfold freeName
  split
  · assumption
  · exact s.leastFree_not_mem (suffixed_injective name) 0

/-! ## Naming one value -/

/-- A value has its text already, or it is given one that is not taken. -/
theorem name_cases (s : Scope) (v : ValueId) (stored : Option String) :
    (∃ text, s.given[v]? = some text ∧ s.name v stored = (text, s)) ∨
      s.given[v]? = none ∧ ∃ text number, text ∉ s.taken ∧
        s.name v stored = (text, { s.give v text with nextNumber := number }) := by
  unfold name
  cases known : s.given[v]? with
  | some text => exact .inl ⟨text, rfl, rfl⟩
  | none =>
    refine .inr ⟨rfl, ?_⟩
    cases stored with
    | some stored => exact ⟨_, s.nextNumber, s.freeName_not_mem stored, rfl⟩
    | none => exact ⟨_, _, s.leastFree_not_mem toString_injective _, rfl⟩

/-- No two values have the same text, and every text is taken. -/
structure Distinct (s : Scope) : Prop where
  taken : ∀ (v : ValueId) (text : String), s.given[v]? = some text → text ∈ s.taken
  inj : ∀ (v u : ValueId) (text : String), s.given[v]? = some text → s.given[u]? = some text → v = u

theorem distinct_empty : ({} : Scope).Distinct := ⟨by simp, by simp⟩

theorem Distinct.name (h : s.Distinct) (v : ValueId) (stored : Option String) :
    (s.name v stored).2.Distinct := by
  obtain ⟨text, -, run⟩ | ⟨-, text, number, free, run⟩ := s.name_cases v stored
  · rw [run]
    exact h
  · rw [run]
    -- an older value can not have the new text, which was not taken
    have fresh : ∀ x : ValueId, s.given[x]? ≠ some text := fun x hx => free (h.taken x text hx)
    refine ⟨fun x t hx => ?_, fun x y t hx hy => ?_⟩
    · simp only [give, Std.ExtTreeMap.getElem?_insert, Std.LawfulEqCmp.compare_eq_iff_eq] at hx
      simp only [give, Std.ExtTreeSet.mem_insert, Std.LawfulEqCmp.compare_eq_iff_eq]
      split at hx
      · exact .inl (Option.some.inj hx)
      · exact .inr (h.taken x t hx)
    · simp only [give, Std.ExtTreeMap.getElem?_insert, Std.LawfulEqCmp.compare_eq_iff_eq] at hx hy
      grind [h.inj x y t]

/-- Every text given in the first scope is given in the second. -/
def Keeps (s s' : Scope) : Prop :=
  ∀ (v : ValueId) (text : String), s.given[v]? = some text → s'.given[v]? = some text

theorem Keeps.refl (s : Scope) : s.Keeps s := fun _ _ h => h

theorem Keeps.trans {s'' : Scope} (h : s.Keeps s') (h' : s'.Keeps s'') : s.Keeps s'' :=
  fun v text given => h' v text (h v text given)

theorem keeps_name (s : Scope) (v : ValueId) (stored : Option String) :
    s.Keeps (s.name v stored).2 := by
  intro x t hx
  obtain ⟨text, -, run⟩ | ⟨new, text, number, -, run⟩ := s.name_cases v stored
  · rw [run]
    exact hx
  · rw [run]
    simp only [give, Std.ExtTreeMap.getElem?_insert, Std.LawfulEqCmp.compare_eq_iff_eq]
    split
    · rename_i heq
      rw [← heq, new] at hx
      cases hx
    · exact hx

theorem given_name (s : Scope) (v : ValueId) (stored : Option String) :
    (s.name v stored).2.given[v]? = some (s.name v stored).1 := by
  obtain ⟨text, known, run⟩ | ⟨-, text, number, -, run⟩ := s.name_cases v stored
  · rw [run]
    exact known
  · rw [run]
    simp [give]

theorem name_of_given (known : s.given[v]? = some text) (stored : Option String) :
    s.name v stored = (text, s) := by
  simp [name, known]

end Scope

/-! ## Both scopes -/

/-- One use of the names: a value is named, as it stands in the graph at that time, or a function scope
begins or ends. -/
inductive NameCall where
  | newScope
  | name (v : ValueId) (entry : Value)

namespace Names

variable {n n' : Names} {v u : ValueId} {e : Value} {isGlobal : Bool}

/-- The scope of the global values, or that of the local ones. -/
def scope (n : Names) (isGlobal : Bool) : Scope := if isGlobal then n.global else n.current

theorem bareName_text (n : Names) (v : ValueId) (e : Value) :
    (n.bareName v e).1 = ((n.scope e.kind.isGlobal).name v e.name).1 := by
  unfold bareName scope
  split <;> rfl

theorem scope_bareName (n : Names) (v : ValueId) (e : Value) (isGlobal : Bool) :
    (n.bareName v e).2.scope isGlobal =
      if isGlobal = e.kind.isGlobal then ((n.scope isGlobal).name v e.name).2 else n.scope isGlobal := by
  unfold bareName scope
  cases isGlobal <;> cases e.kind.isGlobal <;> rfl

theorem keeps_scope_bareName (n : Names) (v : ValueId) (e : Value) (isGlobal : Bool) :
    (n.scope isGlobal).Keeps ((n.bareName v e).2.scope isGlobal) := by
  rw [scope_bareName]
  split
  · exact Scope.keeps_name _ _ _
  · exact .refl _

/-- A value that was named has its text in its scope. -/
theorem given_bareName (n : Names) (v : ValueId) (e : Value) :
    ((n.bareName v e).2.scope e.kind.isGlobal).given[v]? = some (n.bareName v e).1 := by
  rw [scope_bareName, if_pos rfl, bareName_text]
  exact Scope.given_name ..

theorem bareName_of_given {text : String} (known : (n.scope e.kind.isGlobal).given[v]? = some text) :
    (n.bareName v e).1 = text := by
  rw [bareName_text, Scope.name_of_given known]

/-- Every text given before is given after, in both scopes. -/
def Keeps (n n' : Names) : Prop := ∀ isGlobal, (n.scope isGlobal).Keeps (n'.scope isGlobal)

theorem Keeps.refl (n : Names) : n.Keeps n := fun _ => .refl _

theorem Keeps.trans {n'' : Names} (h : n.Keeps n') (h' : n'.Keeps n'') : n.Keeps n'' := fun isGlobal =>
  (h isGlobal).trans (h' isGlobal)

theorem keeps_name (n : Names) (v : ValueId) (e : Value) : n.Keeps (n.name v e).2 :=
  keeps_scope_bareName n v e

theorem bareName_of_keeps (h : (n.bareName v e).2.Keeps n') : (n'.bareName v e).1 = (n.bareName v e).1 :=
  bareName_of_given (h _ v _ (given_bareName n v e))

theorem name_of_keeps (h : (n.name v e).2.Keeps n') : (n'.name v e).1 = (n.name v e).1 := by
  simp only [name, bareName_of_keeps h]

/-! ## Series of calls -/

/-- The names after one call. -/
def call (n : Names) : NameCall → Names
  | .newScope => n.newScope
  | .name v entry => (n.name v entry).2

/-- The names after a series of calls, none before it. -/
def after (calls : List NameCall) : Names := calls.foldl call {}

/-- Call number `i` asks for the name of `v` and is answered with the text. -/
def Answered (calls : List NameCall) (i : Nat) (v : ValueId) (text : String) : Prop :=
  ∃ entry, calls[i]? = some (.name v entry) ∧ ((after (calls.take i)).name v entry).1 = text

theorem distinct_call (h : ∀ isGlobal, (n.scope isGlobal).Distinct) (c : NameCall) (isGlobal : Bool) :
    ((n.call c).scope isGlobal).Distinct := by
  cases c with
  | newScope =>
    cases isGlobal with
    | true => exact h true
    | false => exact Scope.distinct_empty
  | name v entry =>
    have run : ((n.call (.name v entry)).scope isGlobal) = (n.bareName v entry).2.scope isGlobal := rfl
    rw [run, scope_bareName]
    split
    · exact (h isGlobal).name v entry.name
    · exact h isGlobal

theorem distinct_after (calls : List NameCall) (isGlobal : Bool) :
    ((after calls).scope isGlobal).Distinct := by
  suffices run : ∀ n : Names, (∀ isGlobal, (n.scope isGlobal).Distinct) →
      ∀ isGlobal, ((calls.foldl call n).scope isGlobal).Distinct from
    run {} (fun isGlobal => by cases isGlobal <;> exact Scope.distinct_empty) isGlobal
  induction calls with
  | nil => exact fun n h => h
  | cons c calls ih => exact fun n h => ih (n.call c) (distinct_call h c)

/-- Calls keep the texts of global values, and those of local values unless a scope begins or ends. -/
theorem keeps_calls (n : Names) {calls : List NameCall}
    (lasts : isGlobal = true ∨ .newScope ∉ calls) :
    (n.scope isGlobal).Keeps ((calls.foldl call n).scope isGlobal) := by
  induction calls generalizing n with
  | nil => exact .refl _
  | cons c calls ih =>
    have rest := ih (n.call c) (lasts.imp_right fun out inside => out (List.mem_cons_of_mem c inside))
    refine Scope.Keeps.trans ?_ rest
    cases c with
    | newScope =>
      rcases lasts with isTrue | out
      · subst isTrue
        exact .refl _
      · exact absurd (List.mem_cons_self ..) out
    | name v entry => exact keeps_scope_bareName n v entry isGlobal

/-- What stands between two calls, with the names before and after it. -/
theorem after_take {calls : List NameCall} {i j : Nat} {c : NameCall} (order : i < j)
    (at_i : calls[i]? = some c) :
    after (calls.take j) =
      ((calls.drop (i + 1)).take (j - (i + 1))).foldl call ((after (calls.take i)).call c) := by
  have split : calls.take j = calls.take i ++ c :: (calls.drop (i + 1)).take (j - (i + 1)) := by
    rw [show j = i + 1 + (j - (i + 1)) by omega, List.take_add, List.take_add_one, at_i]
    simp
  rw [after, split, List.foldl_append]
  rfl

/-- Two names from one scope that lasts from the first call to the second. -/
theorem name_eq_iff {calls : List NameCall} {i j : Nat} {e' : Value} (order : i < j)
    (first : calls[i]? = some (.name v e)) (same : e.kind.isGlobal = e'.kind.isGlobal)
    (lasts : e.kind.isGlobal = true ∨ ∀ k, i < k → k < j → calls[k]? ≠ some .newScope) :
    ((after (calls.take i)).name v e).1 = ((after (calls.take j)).name u e').1 ↔ v = u := by
  have between : e.kind.isGlobal = true ∨
      .newScope ∉ (calls.drop (i + 1)).take (j - (i + 1)) := by
    refine lasts.imp_right fun out inside => ?_
    obtain ⟨k, hk⟩ := List.mem_iff_getElem?.1 inside
    rw [List.getElem?_take, List.getElem?_drop] at hk
    split at hk
    · exact out (i + 1 + k) (by omega) (by omega) hk
    · cases hk
  -- the text of the first call is still there when the second is made
  have kept : ((after (calls.take j)).scope e.kind.isGlobal).given[v]? =
      some ((after (calls.take i)).bareName v e).1 := by
    rw [after_take order first]
    exact keeps_calls _ between _ _ (given_bareName _ v e)
  have sigils : (if e.kind.isGlobal then "@" else "%") = if e'.kind.isGlobal then "@" else "%" := by
    rw [same]
  simp only [name, sigils, String.append_right_inj]
  rw [same] at kept
  refine ⟨fun texts => ?_, fun heq => ?_⟩
  · have distinct := distinct_call (distinct_after (calls.take j)) (.name u e') e'.kind.isGlobal
    have both := given_bareName (after (calls.take j)) u e'
    rw [← texts] at both
    exact distinct.inj v u _ (keeps_scope_bareName _ u e' _ v _ kept) both
  · subst heq
    exact (bareName_of_given kept).symm

theorem head_name (n : Names) (v : ValueId) (e : Value) :
    (n.name v e).1.toList.head? = some (if e.kind.isGlobal then '@' else '%') := by
  unfold name
  cases e.kind.isGlobal <;> simp

/-- In every series of calls over values that keep their kinds, whatever names are stored for them at
the time of each call: two names of functions or globals are the same text exactly when they name the
same value, and so are two names of other values unless a scope begins or ends between the two calls. The
name of a function or global is never that of another value. -/
theorem names_distinct {kinds : ValueId → Kind} {calls : List NameCall}
    (fixed : ∀ v entry, .name v entry ∈ calls → entry.kind = kinds v) {i j : Nat} (order : i < j)
    {v u : ValueId} {s t : String} (first : Answered calls i v s) (second : Answered calls j u t) :
    ((kinds v).isGlobal = true → (kinds u).isGlobal = true → (s = t ↔ v = u)) ∧
    ((kinds v).isGlobal = false → (kinds u).isGlobal = false →
      (∀ k, i < k → k < j → calls[k]? ≠ some .newScope) → (s = t ↔ v = u)) ∧
    ((kinds v).isGlobal ≠ (kinds u).isGlobal → s ≠ t) := by
  obtain ⟨e, at_i, rfl⟩ := first
  obtain ⟨e', at_j, rfl⟩ := second
  rw [← fixed v e (List.mem_of_getElem? at_i), ← fixed u e' (List.mem_of_getElem? at_j)]
  refine ⟨fun hv hu => ?_, fun hv hu lasts => ?_, fun differ same => ?_⟩
  · exact name_eq_iff order at_i (hv.trans hu.symm) (.inl hv)
  · exact name_eq_iff order at_i (hv.trans hu.symm) (.inr lasts)
  · have sigil := head_name (after (calls.take i)) v e
    rw [same, head_name] at sigil
    cases hv : e.kind.isGlobal <;> cases hu : e'.kind.isGlobal <;> simp_all

/-- A function and two parameters stored as `x`, and a parameter stored as the `x_0` that the second of
these is given. Two of them are named once more after they were renamed, the function in another scope. -/
def lookalikes : List NameCall :=
  [.name 1 { ty := .function [] .void, kind := .function, name := some "x" },
    .name 2 { ty := .i32, kind := .param 2, name := some "x" },
    .name 3 { ty := .i32, kind := .param 3, name := some "x" },
    .name 4 { ty := .i32, kind := .param 4, name := some "x_0" },
    .name 3 { ty := .i32, kind := .param 3, name := some "y" },
    .newScope,
    .name 1 { ty := .function [] .void, kind := .function, name := some "y" }]

theorem names_distinct_lookalikes :
    Answered lookalikes 0 1 "@x" ∧ Answered lookalikes 2 3 "%x_0" ∧ Answered lookalikes 3 4 "%x_0_0" ∧
    Answered lookalikes 4 3 "%x_0" ∧ Answered lookalikes 6 1 "@x" ∧
    ("@x" = "@x" ↔ 1 = 1) ∧ ("%x_0" = "%x_0_0" ↔ 3 = 4) ∧ ("%x_0" = "%x_0" ↔ 3 = 3) ∧ "@x" ≠ "%x_0" := by
  have function : Answered lookalikes 0 1 "@x" := ⟨_, rfl, by decide +kernel⟩
  have second : Answered lookalikes 2 3 "%x_0" := ⟨_, rfl, by decide +kernel⟩
  have third : Answered lookalikes 3 4 "%x_0_0" := ⟨_, rfl, by decide +kernel⟩
  have secondAgain : Answered lookalikes 4 3 "%x_0" := ⟨_, rfl, by decide +kernel⟩
  have functionAgain : Answered lookalikes 6 1 "@x" := ⟨_, rfl, by decide +kernel⟩
  have fixed : ∀ v entry, .name v entry ∈ lookalikes →
      entry.kind = if v = 1 then .function else .param v := by
    intro v entry member
    simp only [lookalikes, List.mem_cons, NameCall.name.injEq, reduceCtorEq, List.not_mem_nil, or_false,
      false_or] at member
    rcases member with ⟨rfl, rfl⟩ | ⟨rfl, rfl⟩ | ⟨rfl, rfl⟩ | ⟨rfl, rfl⟩ | ⟨rfl, rfl⟩ | ⟨rfl, rfl⟩ <;> rfl
  have lasts : ∀ k, 2 < k → k < 5 → lookalikes[k]? ≠ some .newScope := by
    intro k low high
    obtain rfl | rfl : k = 3 ∨ k = 4 := by omega
    · simp [lookalikes]
    · simp [lookalikes]
  exact ⟨function, second, third, secondAgain, functionAgain,
    (names_distinct fixed (by decide) function functionAgain).1 rfl rfl,
    (names_distinct fixed (by decide) second third).2.1 rfl rfl fun k low high => lasts k low (by omega),
    (names_distinct fixed (by decide) second secondAgain).2.1 rfl rfl fun k low high =>
      lasts k low (by omega),
    (names_distinct fixed (by decide) function second).2.2 (by decide)⟩

end Names

end SsaGraph
