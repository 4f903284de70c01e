import SsaGraph.Proofs.Naming

/-!
# The search for a name

Names are found by trial: texts are tested one after the other until one is free, and no number of tests
is set beforehand. `Scope.Searches` is such a search, test by test. It ends, since the texts that are
tested in vain are all different and all taken.

A search for a suffix starts over each time and so ends at the least free one. A search for a number
goes on where the last one ended. It ends at the least free number all the same, since the numbers before
have been passed over or given, and a taken text stays taken. Stored names that look like numbers or like
names with a suffix only take more texts.

Results:
* `Scope.searches_leastFree`, `Scope.Searches.tests_le`: a search ends, after at most one test more than
  there are taken texts;
* `Scope.Counted.name`, `Scope.counted_after`: all numbers below the next one are taken, in every series of
  calls;
* `Scope.name_search_least`: what a value is named that has no name yet.
-/
namespace SsaGraph

/-- A stored name with a number behind it. -/
def suffixed (name : String) (k : Nat) : String := name ++ "_" ++ toString k

theorem suffixed_ne (name : String) (k : Nat) : suffixed name k ≠ name := by
  intro same
  have length := congrArg String.length same
  simp only [suffixed, String.length_append] at length
  have mark : "_".length = 1 := rfl
  omega

namespace Scope

variable {s : Scope} {texts : Nat → String} {start found tests : Nat}

/-! ## Searching -/

/-- Texts are tested from number `start` on, one number after the other. The text of `found` is the first
that is free, and testing it is the last of `tests` tests. -/
inductive Searches (s : Scope) (texts : Nat → String) : (start found tests : Nat) → Prop
  | free {k : Nat} (free : texts k ∉ s.taken) : Searches s texts k k 1
  | taken {k found tests : Nat} (taken : texts k ∈ s.taken)
      (rest : Searches s texts (k + 1) found tests) : Searches s texts k found (tests + 1)

theorem Searches.tests_eq (h : s.Searches texts start found tests) : start + tests = found + 1 := by
  induction h with
  | free => rfl
  | taken _ _ ih => omega

theorem Searches.not_mem (h : s.Searches texts start found tests) : texts found ∉ s.taken := by
  induction h with
  | free free => exact free
  | taken _ _ ih => exact ih

theorem Searches.passed (h : s.Searches texts start found tests) :
    ∀ j, start ≤ j → j < found → texts j ∈ s.taken := by
  induction h with
  | free => exact fun j low high => absurd high (Nat.not_lt.2 low)
  | @taken k found tests taken _ ih =>
    intro j low high
    rcases Nat.eq_or_lt_of_le low with rfl | later
    · exact taken
    · exact ih j later high

/-- Passing over taken texts up to a free one is a search. -/
theorem searches_of_passed (n : Nat) (passed : ∀ j, start ≤ j → j < start + n → texts j ∈ s.taken)
    (free : texts (start + n) ∉ s.taken) : s.Searches texts start (start + n) (n + 1) := by
  induction n generalizing start with
  | zero => exact .free free
  | succ n ih =>
    have shift : start + (n + 1) = start + 1 + n := by omega
    rw [shift] at free passed ⊢
    exact .taken (passed start (Nat.le_refl _) (by omega))
      (ih (fun j low high => passed j (by omega) high) free)

/-- The search from any number on ends, and ends at the least free number from there. -/
theorem searches_leastFree (s : Scope) (inj : Function.Injective texts) (start : Nat) :
    ∃ tests, s.Searches texts start (s.leastFree texts start) tests := by
  unfold leastFree
  cases result : (List.range' start (s.taken.size + 1)).find? fun k => texts k ∉ s.taken with
  | none =>
    -- the default of the bounded search is never reached
    obtain ⟨k, candidate, free⟩ := s.exists_free inj start
    exact absurd free (by simpa using List.find?_eq_none.1 result k candidate)
  | some k =>
    obtain ⟨free, candidate, passed⟩ := List.find?_range'_eq_some.1 result
    obtain ⟨n, rfl⟩ := Nat.exists_eq_add_of_le (List.mem_range'_1.1 candidate).1
    exact ⟨n + 1, searches_of_passed n (fun j low high => by simpa using passed j low high)
      (by simpa using free)⟩

/-! ## Counting tests -/

/-- The texts that a search tests in vain. -/
def passedTexts (texts : Nat → String) (start found : Nat) : List String :=
  (List.range' start (found - start)).map texts

theorem Searches.mem_passedTexts (h : s.Searches texts start found tests) :
    ∀ text ∈ passedTexts texts start found, text ∈ s.taken := by
  intro text member
  obtain ⟨j, range, rfl⟩ := List.mem_map.1 member
  obtain ⟨low, high⟩ := List.mem_range'_1.1 range
  exact h.passed j low (by omega)

theorem nodup_passedTexts (inj : Function.Injective texts) (start found : Nat) :
    (passedTexts texts start found).Nodup :=
  (List.nodup_range' _).map inj

theorem Searches.length_passedTexts (h : s.Searches texts start found tests) :
    (passedTexts texts start found).length + 1 = tests := by
  have count := h.tests_eq
  have last : 0 < tests := by
    cases h with
    | free | taken => exact Nat.succ_pos _
  rw [passedTexts, List.length_map, List.length_range']
  omega

theorem Searches.tests_le (h : s.Searches texts start found tests) (inj : Function.Injective texts) :
    tests ≤ s.taken.size + 1 := by
  have count := length_le_size (nodup_passedTexts inj start found) h.mem_passedTexts
  rw [← h.length_passedTexts]
  omega

/-- When a suffix is needed, the stored name is one more taken text. -/
theorem Searches.tests_le_of_taken {name : String} (h : s.Searches (suffixed name) start found tests)
    (taken : name ∈ s.taken) : tests ≤ s.taken.size := by
  have apart : name ∉ passedTexts (suffixed name) start found := by
    intro member
    obtain ⟨k, -, same⟩ := List.mem_map.1 member
    exact suffixed_ne name k same
  have count := length_le_size (s := s)
    (List.nodup_cons.2 ⟨apart, nodup_passedTexts (suffixed_injective name) start found⟩)
    (List.forall_mem_cons.2 ⟨taken, h.mem_passedTexts⟩)
  rw [← h.length_passedTexts]
  exact count

/-! ## Numbers given so far -/

/-- The scope after a series of calls, each for a value with the name stored for it at that time. -/
def after (calls : List (ValueId × Option String)) : Scope :=
  calls.foldl (fun s call => (s.name call.1 call.2).2) {}

/-- Every number below the next one is taken. -/
def Counted (s : Scope) : Prop := ∀ k < s.nextNumber, toString k ∈ s.taken

theorem Counted.give (h : s.Counted) (v : ValueId) (text : String) : (s.give v text).Counted :=
  fun k low => Std.ExtTreeSet.mem_insert.2 (.inr (h k low))

/-- A number that is found is given, and those on the way to it are taken. -/
theorem Counted.giveNumber (h : s.Counted) (v : ValueId)
    (search : s.Searches (fun k => toString k) s.nextNumber found tests) :
    Counted { s.give v (toString found) with nextNumber := found + 1 } := by
  intro k low
  refine Std.ExtTreeSet.mem_insert.2 ?_
  rcases Nat.lt_or_ge k s.nextNumber with before | since
  · exact .inr (h k before)
  · rcases Nat.eq_or_lt_of_le (Nat.le_of_lt_succ low) with rfl | passed
    · exact .inl (Std.LawfulEqCmp.compare_eq_iff_eq.2 rfl)
    · exact .inr (search.passed k since passed)

theorem Counted.name (h : s.Counted) (v : ValueId) (stored : Option String) :
    (s.name v stored).2.Counted := by
  unfold Scope.name
  cases s.given[v]? with
  | some text => exact h
  | none =>
    cases stored with
    | some stored => exact h.give v _
    | none =>
      obtain ⟨tests, search⟩ := s.searches_leastFree toString_injective s.nextNumber
      exact h.giveNumber v search

theorem counted_after (calls : List (ValueId × Option String)) : (after calls).Counted := by
  suffices run : ∀ s : Scope, s.Counted →
      (calls.foldl (fun s call => (s.name call.1 call.2).2) s).Counted from
    run {} fun k low => absurd low (Nat.not_lt_zero k)
  induction calls with
  | nil => exact fun s h => h
  | cons call calls ih => exact fun s h => ih _ (h.name call.1 call.2)

/-- The search for a number ends at the least that is free, although it does not start at zero. -/
theorem Counted.least (h : s.Counted)
    (search : s.Searches (fun k => toString k) s.nextNumber found tests) :
    ∀ j < found, toString j ∈ s.taken := by
  intro j low
  rcases Nat.lt_or_ge j s.nextNumber with before | since
  · exact h j before
  · exact search.passed j since low

/-! ## Names of new values -/

variable {v : ValueId}

theorem name_of_free {stored : String} (new : s.given[v]? = none) (free : stored ∉ s.taken) :
    (s.name v (some stored)).1 = stored := by
  simp only [name, new, freeName, if_pos free]

theorem name_of_taken {stored : String} (new : s.given[v]? = none) (taken : stored ∈ s.taken) :
    (s.name v (some stored)).1 = suffixed stored (s.leastFree (suffixed stored) 0) := by
  simp only [name, new, freeName, if_neg (not_not_intro taken)]
  rfl

theorem name_of_none (new : s.given[v]? = none) :
    (s.name v none).1 = toString (s.leastFree (fun k => toString k) s.nextNumber) := by
  simp only [name, new]

/-- The search from `start` on ends at `found`, and no number at all below it has a free text. -/
structure FindsLeast (s : Scope) (texts : Nat → String) (start found tests : Nat) : Prop where
  search : s.Searches texts start found tests
  free : texts found ∉ s.taken
  least : ∀ j < found, texts j ∈ s.taken

/-- In every series of calls, a value that is new to the scope is named after a search that ends. With a
stored name that is free this is its name. With one that is taken it gets the least free suffix, found with
no more tests than there are taken texts, so with at most one more if that of the stored name itself is
counted. Without a stored name it gets the least free number, wherever the search started. -/
theorem name_search_least {calls : List (ValueId × Option String)}
    (new : (after calls).given[v]? = none) :
    (∀ stored, stored ∉ (after calls).taken → ((after calls).name v (some stored)).1 = stored) ∧
    (∀ stored, stored ∈ (after calls).taken →
      ∃ k tests, (after calls).FindsLeast (suffixed stored) 0 k tests ∧
        tests ≤ (after calls).taken.size ∧
        ((after calls).name v (some stored)).1 = suffixed stored k) ∧
    ∃ k tests, (after calls).FindsLeast (fun k => toString k) (after calls).nextNumber k tests ∧
      tests ≤ (after calls).taken.size + 1 ∧ ((after calls).name v none).1 = toString k := by
  refine ⟨fun stored free => name_of_free new free, fun stored taken => ?_, ?_⟩
  · obtain ⟨tests, search⟩ := (after calls).searches_leastFree (suffixed_injective stored) 0
    exact ⟨_, tests, ⟨search, search.not_mem, fun j low => search.passed j (Nat.zero_le j) low⟩,
      search.tests_le_of_taken taken, name_of_taken new taken⟩
  · obtain ⟨tests, search⟩ :=
      (after calls).searches_leastFree toString_injective (after calls).nextNumber
    exact ⟨_, tests, ⟨search, search.not_mem, (counted_after calls).least search⟩,
      search.tests_le toString_injective, name_of_none new⟩

/-- Stored names that are numbers, and one that has a suffix already. -/
def numerals : List (ValueId × Option String) :=
  [(1, some "0"), (2, none), (3, some "x"), (4, some "x"), (5, some "x_1"), (6, some "2")]

/-- Six texts are taken. The third suffix is free, and the search for a number passes over the stored `2`. -/
theorem name_search_least_numerals : (after numerals).taken.toList = ["0", "1", "2", "x", "x_0", "x_1"] ∧
    (after numerals).nextNumber = 2 ∧ ((after numerals).name 7 (some "y")).1 = "y" ∧
    ((after numerals).name 7 (some "x")).1 = "x_2" ∧
    (after numerals).FindsLeast (suffixed "x") 0 2 3 ∧
    ((after numerals).name 7 none).1 = "3" ∧
    (after numerals).FindsLeast (fun k => toString k) 2 3 2 := by
  have new : (after numerals).given[7]? = none := by decide +kernel
  have next : (after numerals).nextNumber = 2 := by decide +kernel
  obtain ⟨stored, suffix, number⟩ := name_search_least new
  obtain ⟨k, tests, findsSuffix, -, nameSuffix⟩ := suffix "x" (by decide +kernel)
  obtain ⟨j, tests', findsNumber, -, nameNumber⟩ := number
  have second : ((after numerals).name 7 (some "x")).1 = suffixed "x" 2 := by decide +kernel
  have third : ((after numerals).name 7 none).1 = toString 3 := by decide +kernel
  cases suffixed_injective "x" (nameSuffix.symm.trans second)
  cases toString_injective (nameNumber.symm.trans third)
  have count := findsSuffix.search.tests_eq
  have count' := findsNumber.search.tests_eq
  rw [next] at findsNumber count'
  obtain rfl : tests = 3 := by omega
  obtain rfl : tests' = 2 := by omega
  exact ⟨by decide +kernel, next, stored "y" (by decide +kernel), second, findsSuffix, third, findsNumber⟩

end Scope

end SsaGraph
