import SsaGraph.Proofs.Handles
import SsaGraph.Proofs.Reattachment

/-!
# Element pointers

The first index of an element pointer steps over the base itself and each further index steps into an
array level. So the indices may outnumber the levels by one, and the element is what is left when the
levels stepped into are taken away. No index at all picks the same element as one index.

Results:
* `Ty.Steps.dims`, `Ty.exists_steps`: how far one can step into a type, and what is left of it;
* `elemPtr_exact`: when an element pointer can be built, and what it is;
* `elemPtr_out_of_handles`: that what can be picked is not enough when the handles have run out.
-/
namespace SsaGraph

/-! ## Steps into an array -/

namespace Ty

variable {t u : Ty} {steps : Nat}

/-- A step takes away the outermost level. -/
theorem Steps.dims (h : t.Steps steps u) : steps ≤ t.dims.length ∧ u.dims = t.dims.drop steps := by
  induction h with
  | here => exact ⟨Nat.zero_le _, rfl⟩
  | into rest ih =>
    obtain ⟨bound, left⟩ := ih
    rw [Ty.dims, List.length_cons, List.drop_succ_cons]
    exact ⟨by omega, left⟩

/-- There are as many steps as levels. -/
theorem exists_steps (bound : steps ≤ t.dims.length) : ∃ u, t.Steps steps u := by
  induction steps generalizing t with
  | zero => exact ⟨t, .here⟩
  | succ steps ih =>
    cases t with
    | array elem length =>
      rw [dims, List.length_cons] at bound
      obtain ⟨u, rest⟩ := ih (Nat.le_of_succ_le_succ bound)
      exact ⟨u, .into rest⟩
    | int | float | void | label | pointer | function => cases bound

end Ty

/-! ## Building -/

namespace Graph

variable {g g' : Graph} {id : ValueId}

theorem build_detached (g : Graph) (draft : Draft) :
    g.build draft none = draft.value g >>= g.create := by
  rw [build_eq (by simp) rfl]
  simp only [insert_none]

/-- Base and indices have types for an element pointer into `start`, and there are enough levels. -/
structure Picks (g : Graph) (base : ValueId) (indices : List ValueId) (start : Ty) : Prop where
  base : g.tyOf base = some (.pointer start)
  pickable : start.Pickable
  integers : ∀ i ∈ indices, ∃ t, g.tyOf i = some t ∧ t.isInt = true
  levels : indices.length ≤ 1 + start.dims.length

variable {base : ValueId} {indices : List ValueId} {start elem : Ty}

theorem Picks.live (picks : g.Picks base indices start) : ∀ op ∈ base :: indices, op ∈ g.values := by
  refine List.forall_mem_cons.2 ⟨mem_of_tyOf picks.base, fun i hi => ?_⟩
  obtain ⟨t, ty, -⟩ := picks.integers i hi
  exact mem_of_tyOf ty

/-- The value that an element pointer is entered as. -/
def elemPointer (base : ValueId) (indices : List ValueId) (elem : Ty) : Value :=
  { ty := .pointer elem, kind := .elemPtr elem, operands := base :: indices }

theorem build_elemPtr (g : Graph) (base : ValueId) (indices : List ValueId) :
    g.build (.elemPtr base indices) none =
      (Draft.elemType g base indices >>= fun elem => g.create (elemPointer base indices elem)) := by
  rw [build_detached, Draft.value]
  cases Draft.elemType g base indices <;> rfl

theorem Picks.elemType (picks : g.Picks base indices start) :
    ∃ elem, Draft.elemType g base indices = .ok elem := by
  have levels : indices.length - 1 ≤ start.dims.length := by
    have := picks.levels
    omega
  obtain ⟨elem, steps⟩ := Ty.exists_steps levels
  exact ⟨elem, Draft.elemType_eq_ok.2 ⟨start, picks.base, picks.pickable, picks.integers, steps⟩⟩

theorem picks_of_elemType (h : Draft.elemType g base indices = .ok elem) :
    ∃ start, g.Picks base indices start := by
  obtain ⟨start, ty, pickable, integers, steps⟩ := Draft.elemType_eq_ok.1 h
  obtain ⟨bound, -⟩ := steps.dims
  exact ⟨start, ty, pickable, integers, by omega⟩

theorem Picks.build_exhausted (picks : g.Picks base indices start) (full : ¬g.next + 1 < handleLimit) :
    g.build (.elemPtr base indices) none = .error .tooManyValues := by
  obtain ⟨elem, walk⟩ := picks.elemType
  rw [build_elemPtr, walk]
  exact create_exhausted full _

/-- An element pointer can be built exactly when base and indices pick an element and a handle is left.
Its type points to the element and its kind records it; the element is what the base points to without
one level for each index after the first. This holds in any graph, so after every run. -/
theorem elemPtr_exact (g : Graph) (base : ValueId) (indices : List ValueId) :
    ((∃ r, g.build (.elemPtr base indices) none = .ok r) ↔
      (∃ start, g.Picks base indices start) ∧ g.next + 1 < handleLimit) ∧
    (∀ start, g.Picks base indices start → ¬g.next + 1 < handleLimit →
      g.build (.elemPtr base indices) none = .error .tooManyValues) ∧
    ∀ start id g', g.Picks base indices start → g.build (.elemPtr base indices) none = .ok (id, g') →
      ∃ e elem, g'.values[id]? = some e ∧ e.ty = .pointer elem ∧ e.kind = .elemPtr elem ∧
        e.operands = base :: indices ∧ start.Steps (max indices.length 1 - 1) elem ∧
          elem.dims = start.dims.drop (max indices.length 1 - 1) := by
  refine ⟨⟨fun h => ?_, fun h => ?_⟩, fun start picks full => picks.build_exhausted full,
    fun start id g' picks h => ?_⟩
  · obtain ⟨⟨id, g'⟩, h⟩ := h
    rw [build_elemPtr] at h
    obtain ⟨elem, walk, created⟩ := bind_eq_ok.1 h
    exact ⟨picks_of_elemType walk, (create_eq_ok.1 created).1⟩
  · obtain ⟨⟨start, picks⟩, room⟩ := h
    obtain ⟨elem, walk⟩ := picks.elemType
    rw [build_elemPtr]
    exact ok_bind walk ⟨_, create_eq_ok.2 ⟨room, picks.live, rfl, rfl⟩⟩
  · rw [build_elemPtr] at h
    obtain ⟨elem, walk, created⟩ := bind_eq_ok.1 h
    obtain ⟨-, -, rfl, rfl⟩ := create_eq_ok.1 created
    obtain ⟨start', ty, -, -, steps⟩ := Draft.elemType_eq_ok.1 walk
    rw [picks.base] at ty
    cases ty
    have count : indices.length - 1 = max indices.length 1 - 1 := by omega
    rw [count] at steps
    exact ⟨_, elem, getElem?_entered_self _, rfl, rfl, rfl, steps, steps.dims.2⟩

/-- An allocated matrix, and a number to index it with. -/
def matrix : Graph :=
  ((Workspace.start "matrix").perform
    [.build (.alloca (.array (.array .i32 3) 2)) none, .build (.integer 0) none]).graph

theorem tyOf_matrix : matrix.tyOf 1 = some (.pointer (.array (.array .i32 3) 2)) := by decide +kernel

theorem picks_matrix : matrix.Picks 1 [2, 2, 2] (.array (.array .i32 3) 2) := by
  have number : matrix.tyOf 2 = some .i32 := by decide +kernel
  refine ⟨tyOf_matrix, .inl rfl, fun i hi => ⟨.i32, ?_, rfl⟩, by decide⟩
  rw [show i = 2 by simpa using hi]
  exact number

/-- Three indices pick a number of the matrix, and a fourth has no level to step into. -/
theorem elemPtr_exact_matrix :
    (∃ id g' e, matrix.build (.elemPtr 1 [2, 2, 2]) none = .ok (id, g') ∧
      g'.values[id]? = some e ∧ e.ty = .pointer .i32 ∧ e.operands = [1, 2, 2, 2]) ∧
    ¬∃ r, matrix.build (.elemPtr 1 [2, 2, 2, 2]) none = .ok r := by
  constructor
  · obtain ⟨buildable, -, built⟩ := elemPtr_exact matrix 1 [2, 2, 2]
    obtain ⟨⟨id, g'⟩, done⟩ := buildable.2 ⟨⟨_, picks_matrix⟩, by decide +kernel⟩
    obtain ⟨e, elem, entry, ty, -, operands, steps, -⟩ := built _ id g' picks_matrix done
    cases steps with
    | into steps =>
      cases steps with
      | into steps =>
        cases steps
        exact ⟨id, g', e, done, entry, ty, operands⟩
  · intro built
    obtain ⟨⟨start, picks⟩, -⟩ := (elemPtr_exact matrix 1 [2, 2, 2, 2]).1.1 built
    have same := picks.base
    rw [tyOf_matrix] at same
    cases same
    exact absurd picks.levels (by decide)

/-- The same matrix when the handles have run out: base and indices still pick a number of it, and yet the
element pointer can not be built. -/
theorem elemPtr_out_of_handles : ∃ w : Workspace, w.Reachable ∧
    w.graph = { matrix with next := handleLimit - 1 } ∧
    w.graph.Picks 1 [2, 2, 2] (.array (.array .i32 3) 2) ∧
    w.graph.build (.elemPtr 1 [2, 2, 2]) none = .error .tooManyValues := by
  obtain ⟨w, reached, same⟩ := ((Workspace.Reachable.start "matrix").perform
    [.build (.alloca (.array (.array .i32 3) 2)) none, .build (.integer 0) none]).exists_exhausted
  have picks : w.graph.Picks 1 [2, 2, 2] (.array (.array .i32 3) 2) := by
    rw [same]
    exact ⟨picks_matrix.base, picks_matrix.pickable, picks_matrix.integers, picks_matrix.levels⟩
  exact ⟨w, reached, same, picks, picks.build_exhausted (by rw [same]; decide)⟩

end Graph

end SsaGraph
