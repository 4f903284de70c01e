import SsaGraph.Proofs.Catalogue

/-!
# Typing rules

A builder looks at the types of some operands, and only once. `Typed` has the same rules for a value that
stands in a graph: which type a kind gives over which operand types. They are stated without the
builder, and an element pointer is stated by steps into an array type (`Ty.Steps`).

Results:
* `Draft.elemType_eq_ok`: the walk over the indices of an element pointer, in both directions;
* `Draft.value_made`: what a draft describes obeys the rules, and a call has a function as its callee;
* `Typed.result`: where the kind fixes the type of the value, the rules agree.
-/
namespace SsaGraph

namespace Ty

/-- The type that many steps into an array type. -/
inductive Steps : Ty → Nat → Ty → Prop
  | here {t : Ty} : Steps t 0 t
  | into {t u : Ty} {length steps : Nat} (rest : Steps t steps u) : Steps (.array t length) (steps + 1) u

/-- Elements can be picked behind a pointer to the type. -/
def Pickable (t : Ty) : Prop := t.isArray = true ∨ t.isInt = true ∨ t = .float

theorem isInt_iff {t : Ty} : t.isInt = true ↔ ∃ bits, t = .int bits := by
  cases t <;> simp [isInt]

theorem isPointer_iff {t : Ty} : t.isPointer = true ↔ ∃ pointee, t = .pointer pointee := by
  cases t <;> simp [isPointer]

end Ty

/-- The type that every value of the kind has, if there is one. -/
def Kind.result? : Kind → Option Ty
  | .binary _ => some .i32
  | .compare _ => some .i1
  | .branch | .ret | .store => some .void
  | .alloca ty | .elemPtr ty => some (.pointer ty)
  | .zext ty => some ty
  | .block => some .label
  | _ => none

/-- A value of the kind has the type over operands of these types. -/
inductive Typed : Kind → Ty → List Ty → Prop
  | integer {n : Int32} {bits : Nat} : Typed (.integer n) (.int bits) []
  | undef {ty : Ty} (storable : ty.isStorable = true) : Typed .undef ty []
  | param {index : Nat} {ty : Ty} : Typed (.param index) ty []
  | global {isConst : Bool} {ty : Ty} : Typed (.global isConst) (.pointer ty) [ty]
  | function {ty : Ty} : Typed .function ty []
  | block : Typed .block .label []
  | binary {op : BinaryOp} {bits : Nat} : Typed (.binary op) .i32 [.int bits, .int bits]
  | compare {op : CompareOp} {bits : Nat} : Typed (.compare op) .i1 [.int bits, .int bits]
  | call {params args : List Ty} {result : Ty} (count : params.length = args.length) :
      Typed .call result (.function params result :: args)
  | jump {target : Ty} : Typed .branch .void [target]
  | branch {bits : Nat} {onTrue onFalse : Ty} : Typed .branch .void [.int bits, onTrue, onFalse]
  | retVoid : Typed .ret .void []
  | ret {ty : Ty} (value : ty ≠ .void) : Typed .ret .void [ty]
  /-- The first index steps over the base itself. -/
  | elemPtr {start elem : Ty} {indices : List Ty} (base : start.Pickable)
      (integers : ∀ t ∈ indices, t.isInt = true) (steps : start.Steps (indices.length - 1) elem) :
      Typed (.elemPtr elem) (.pointer elem) (.pointer start :: indices)
  | store {ty pointee : Ty} : Typed .store .void [ty, .pointer pointee]
  | load {ty pointee : Ty} : Typed .load ty [.pointer pointee]
  | alloca {ty : Ty} (storable : ty.isStorable = true) : Typed (.alloca ty) (.pointer ty) []
  | zext {src dst : Nat} (differ : src ≠ dst) : Typed (.zext (.int dst)) (.int dst) [.int src]
  | phi {ty : Ty} {tys : List Ty} (storable : ty.isStorable = true)
      (incoming : ∀ i t, i % 2 = 0 → tys[i]? = some t → t = ty) : Typed .phi ty tys

theorem Typed.result {kind : Kind} {ty t : Ty} {tys : List Ty} (h : Typed kind ty tys)
    (fixed : kind.result? = some t) : ty = t := by
  cases h <;> simp_all [Kind.result?]

/-- What stands in a list of pairs with one pair more. -/
theorem getElem?_append_pair {α : Type} {l : List α} {a b x : α} {i : Nat} (even : l.length % 2 = 0)
    (h : (l ++ [a, b])[i]? = some x) : l[i]? = some x ∨ i % 2 = 0 ∧ x = a ∨ i % 2 = 1 ∧ x = b := by
  rw [List.getElem?_append] at h
  split at h
  · exact .inl h
  · obtain ⟨bound, -⟩ := List.getElem?_eq_some_iff.1 h
    simp only [List.length_cons, List.length_nil] at bound
    obtain first | second : i = l.length ∨ i = l.length + 1 := by omega
    · rw [first, Nat.sub_self] at h
      exact .inr (.inl ⟨by omega, (Option.some.inj h).symm⟩)
    · rw [second, Nat.add_sub_cancel_left] at h
      exact .inr (.inr ⟨by omega, (Option.some.inj h).symm⟩)

namespace Graph

variable {g g' : Graph} {v e : Value} {x : ValueId}

/-- The operands of the value have types, and the rules give its own type over them. -/
def Checked (g : Graph) (v : Value) : Prop :=
  ∃ tys : List Ty, v.operands.map g.tyOf = tys.map some ∧ Typed v.kind v.ty tys

/-- What holds of a value right after it was described by a draft. -/
structure Made (g : Graph) (v : Value) : Prop where
  checked : g.Checked v
  callee : v.kind = .call → ∀ f, v.operands[0]? = some f → f ∈ g.functions
  noPairs : v.kind = .phi → v.operands = []

theorem made_of {ty : Ty} {kind : Kind} {operands : List ValueId} (tys : List Ty)
    (types : operands.map g.tyOf = tys.map some) (typed : Typed kind ty tys) (noCall : kind ≠ .call)
    (noPhi : kind ≠ .phi) : g.Made { ty, kind, operands } :=
  ⟨⟨tys, types, typed⟩, fun h => absurd h noCall, fun h => absurd h noPhi⟩

theorem exists_ty (live : x ∈ g.values) : ∃ t, g.tyOf x = some t := by
  obtain ⟨e, he⟩ := Table.getElem?_of_mem live
  exact ⟨e.ty, tyOf_eq_some.2 ⟨e, he, rfl⟩⟩

theorem mem_of_tyOf {t : Ty} (h : g.tyOf x = some t) : x ∈ g.values := by
  obtain ⟨e, entry, -⟩ := tyOf_eq_some.1 h
  exact Table.mem_of_getElem? entry

theorem exists_types {operands : List ValueId} (live : ∀ op ∈ operands, op ∈ g.values) :
    ∃ tys : List Ty, operands.map g.tyOf = tys.map some := by
  induction operands with
  | nil => exact ⟨[], rfl⟩
  | cons op operands ih =>
    obtain ⟨t, first⟩ := exists_ty (live op (List.mem_cons_self ..))
    obtain ⟨tys, rest⟩ := ih fun x hx => live x (List.mem_cons_of_mem op hx)
    exact ⟨t :: tys, by simp [first, rest]⟩

end Graph

/-! ## What a draft describes -/

namespace Draft

variable {g : Graph} {v : Value} {lhs rhs base : ValueId} {indices : List ValueId}

theorem typeOf_eq_ok {x : ValueId} {t : Ty} : typeOf g x = .ok t ↔ g.tyOf x = some t := by
  simp only [typeOf, bind_eq_ok, pure_eq_ok, Graph.value_eq_ok, Graph.tyOf_eq_some]
  exact exists_congr fun e => and_congr_right fun _ => eq_comm

theorem checkWidths_ok {u : Unit} (h : checkWidths g lhs rhs = .ok u) :
    ∃ bits, g.tyOf lhs = some (.int bits) ∧ g.tyOf rhs = some (.int bits) := by
  simp only [checkWidths, bind_eq_ok, typeOf_eq_ok, require_eq_ok, Ty.isInt_iff] at h
  obtain ⟨_, hl, -, ⟨bits, rfl⟩, right, hr, same⟩ := h
  refine ⟨bits, hl, ?_⟩
  cases right <;> simp_all [Ty.bits?]

theorem baseElem?_eq_some {t start : Ty} :
    baseElem? t = some start ↔ t = .pointer start ∧ start.Pickable := by
  constructor
  · intro h
    unfold baseElem? at h
    split at h
    · cases h
      exact ⟨rfl, .inl rfl⟩
    · cases h
      exact ⟨rfl, .inr (.inl rfl)⟩
    · cases h
      exact ⟨rfl, .inr (.inr rfl)⟩
    · cases h
  · rintro ⟨rfl, array | int | rfl⟩
    · cases start with
      | array => rfl
      | int | float | void | label | pointer | function => cases array
    · obtain ⟨bits, rfl⟩ := Ty.isInt_iff.1 int
      rfl
    · rfl

theorem stepInto_eq_ok {steps : Nat} {t u : Ty} : stepInto t steps = .ok u ↔ t.Steps steps u := by
  constructor
  · intro h
    induction steps generalizing t with
    | zero =>
      cases h
      exact .here
    | succ steps ih =>
      cases t with
      | array elem length => exact .into (ih h)
      | int | float | void | label | pointer | function => cases h
  · intro h
    induction h with
    | here => rfl
    | into rest ih => exact ih

theorem forM_eq_ok {α : Type} {check : α → Except Fault Unit} {l : List α} :
    l.forM check = .ok () ↔ ∀ a ∈ l, check a = .ok () := by
  induction l with
  | nil => simp [List.forM, pure_eq_ok]
  | cons a l ih =>
    simp only [List.forM, bind_eq_ok, ih, List.forall_mem_cons]
    constructor
    · rintro ⟨_, both⟩
      exact both
    · intro both
      exact ⟨(), both⟩

theorem elemType_eq_ok {elem : Ty} : elemType g base indices = .ok elem ↔
    ∃ start, g.tyOf base = some (.pointer start) ∧ start.Pickable ∧
      (∀ i ∈ indices, ∃ t, g.tyOf i = some t ∧ t.isInt = true) ∧
        start.Steps (indices.length - 1) elem := by
  have index : ∀ i, (typeOf g i >>= fun t => require (t.isInt = true) .indexType) = .ok () ↔
      ∃ t, g.tyOf i = some t ∧ t.isInt = true := by
    intro i
    simp only [bind_eq_ok, typeOf_eq_ok, require_eq_ok]
  constructor
  · intro h
    simp only [elemType, bind_eq_ok, typeOf_eq_ok] at h
    obtain ⟨t, ty, h⟩ := h
    cases picked : baseElem? t with
    | none =>
      rw [picked] at h
      cases h
    | some start =>
      rw [picked] at h
      obtain ⟨_, checked, walk⟩ := bind_eq_ok.1 h
      obtain ⟨rfl, pickable⟩ := baseElem?_eq_some.1 picked
      exact ⟨start, ty, pickable, fun i hi => (index i).1 (forM_eq_ok.1 checked i hi),
        stepInto_eq_ok.1 walk⟩
  · rintro ⟨start, ty, pickable, integers, steps⟩
    have checked := forM_eq_ok.2 fun i hi => (index i).2 (integers i hi)
    unfold elemType
    rw [typeOf_eq_ok.2 ty]
    simp only [bind, Except.bind, baseElem?_eq_some.2 ⟨rfl, pickable⟩] at checked ⊢
    rw [checked]
    exact stepInto_eq_ok.2 steps

/-- Base and indices have the types that the rule for element pointers asks for. -/
theorem elemType_ok {elem : Ty} (h : elemType g base indices = .ok elem) :
    ∃ start tys, (base :: indices).map g.tyOf = (.pointer start :: tys : List Ty).map some ∧
      start.Pickable ∧ (∀ t ∈ tys, t.isInt = true) ∧ start.Steps (tys.length - 1) elem := by
  obtain ⟨start, ty, pickable, index, steps⟩ := elemType_eq_ok.1 h
  obtain ⟨tys, types⟩ := Graph.exists_types fun i hi => by
    obtain ⟨t, ht, -⟩ := index i hi
    exact Graph.mem_of_tyOf ht
  have count : indices.length = tys.length := by simpa using congrArg List.length types
  rw [count] at steps
  refine ⟨start, tys, by simp [ty, types], pickable, fun t ht => ?_, steps⟩
  have listed : some t ∈ indices.map g.tyOf := by
    rw [types]
    exact List.mem_map_of_mem ht
  obtain ⟨i, hi, same⟩ := List.mem_map.1 listed
  obtain ⟨t', ht', isInt⟩ := index i hi
  rw [ht'] at same
  cases same
  exact isInt

theorem value_made (cat : g.Catalogued) {draft : Draft} (h : draft.value g = .ok v)
    (live : ∀ op ∈ v.operands, op ∈ g.values) : g.Made v := by
  cases draft with
  | integer n =>
    simp only [value, pure_eq_ok] at h
    subst h
    exact Graph.made_of [] rfl .integer (by simp) (by simp)
  | integerOf ty n =>
    simp only [value, bind_eq_ok, pure_eq_ok, require_eq_ok, Ty.isInt_iff] at h
    obtain ⟨-, ⟨bits, rfl⟩, rfl⟩ := h
    exact Graph.made_of [] rfl .integer (by simp) (by simp)
  | undef ty =>
    simp only [value, bind_eq_ok, pure_eq_ok, require_eq_ok] at h
    obtain ⟨-, storable, rfl⟩ := h
    exact Graph.made_of [] rfl (.undef storable) (by simp) (by simp)
  | binary op lhs rhs =>
    simp only [value, bind_eq_ok, pure_eq_ok] at h
    obtain ⟨_, widths, rfl⟩ := h
    obtain ⟨bits, left, right⟩ := checkWidths_ok widths
    exact Graph.made_of [.int bits, .int bits] (by simp [left, right]) .binary (by simp) (by simp)
  | compare op lhs rhs =>
    simp only [value, bind_eq_ok, pure_eq_ok] at h
    obtain ⟨_, widths, rfl⟩ := h
    obtain ⟨bits, left, right⟩ := checkWidths_ok widths
    exact Graph.made_of [.int bits, .int bits] (by simp [left, right]) .compare (by simp) (by simp)
  | call callee args =>
    simp only [value, bind_eq_ok, Graph.func_eq_ok] at h
    obtain ⟨func, hf, h⟩ := h
    split at h
    · rename_i params result ty
      simp only [bind_eq_ok, pure_eq_ok, require_eq_ok] at h
      obtain ⟨-, count, rfl⟩ := h
      obtain ⟨tys, types⟩ := Graph.exists_types fun op hop => live op (List.mem_cons_of_mem callee hop)
      have first : g.tyOf callee = some (.function params result) := (cat.ty callee func hf).trans (by rw [ty])
      have same : args.length = tys.length := by simpa using congrArg List.length types
      refine ⟨⟨.function params result :: tys, by simp [first, types], .call (count.trans same)⟩, ?_, by simp⟩
      intro _ f held
      cases held
      exact Table.mem_of_getElem? hf
    · cases h
  | branch cond onTrue onFalse =>
    simp only [value, bind_eq_ok, pure_eq_ok, require_eq_ok, typeOf_eq_ok, Ty.isInt_iff] at h
    obtain ⟨_, hc, -, ⟨bits, rfl⟩, rfl⟩ := h
    obtain ⟨t, ht⟩ := Graph.exists_ty (live onTrue (by simp))
    obtain ⟨f, hf⟩ := Graph.exists_ty (live onFalse (by simp))
    exact Graph.made_of [.int bits, t, f] (by simp [hc, ht, hf]) .branch (by simp) (by simp)
  | jump target =>
    simp only [value, pure_eq_ok] at h
    subst h
    obtain ⟨t, ht⟩ := Graph.exists_ty (live target (by simp))
    exact Graph.made_of [t] (by simp [ht]) .jump (by simp) (by simp)
  | ret value =>
    cases value with
    | none =>
      simp only [Draft.value, pure_eq_ok] at h
      subst h
      exact Graph.made_of [] rfl .retVoid (by simp) (by simp)
    | some x =>
      simp only [Draft.value, bind_eq_ok, pure_eq_ok, require_eq_ok, typeOf_eq_ok] at h
      obtain ⟨t, ht, -, ne, rfl⟩ := h
      exact Graph.made_of [t] (by simp [ht]) (.ret ne) (by simp) (by simp)
  | elemPtr base indices =>
    simp only [value, bind_eq_ok, pure_eq_ok] at h
    obtain ⟨elem, he, rfl⟩ := h
    obtain ⟨start, tys, types, pickable, integers, steps⟩ := elemType_ok he
    exact Graph.made_of _ types (.elemPtr pickable integers steps) (by simp) (by simp)
  | store x dest =>
    simp only [value, bind_eq_ok, pure_eq_ok, require_eq_ok, typeOf_eq_ok, Ty.isPointer_iff] at h
    obtain ⟨_, hd, -, ⟨pointee, rfl⟩, rfl⟩ := h
    obtain ⟨t, ht⟩ := Graph.exists_ty (live x (by simp))
    exact Graph.made_of [t, .pointer pointee] (by simp [ht, hd]) .store (by simp) (by simp)
  | load ty src =>
    simp only [value, bind_eq_ok, pure_eq_ok, require_eq_ok, typeOf_eq_ok, Ty.isPointer_iff] at h
    obtain ⟨_, hs, -, ⟨pointee, rfl⟩, rfl⟩ := h
    exact Graph.made_of [.pointer pointee] (by simp [hs]) .load (by simp) (by simp)
  | alloca ty =>
    simp only [value, bind_eq_ok, pure_eq_ok, require_eq_ok] at h
    obtain ⟨-, storable, rfl⟩ := h
    exact Graph.made_of [] rfl (.alloca storable) (by simp) (by simp)
  | phi ty =>
    simp only [value, bind_eq_ok, pure_eq_ok, require_eq_ok] at h
    obtain ⟨-, storable, rfl⟩ := h
    exact ⟨⟨[], rfl, .phi storable (by simp)⟩, by simp, fun _ => rfl⟩
  | zext x ty =>
    simp only [value, bind_eq_ok, pure_eq_ok, require_eq_ok, typeOf_eq_ok, Ty.isInt_iff] at h
    obtain ⟨_, hx, -, ⟨⟨src, rfl⟩, dst, rfl⟩, -, differ, rfl⟩ := h
    exact Graph.made_of [.int src] (by simp [hx]) (.zext (by simpa using differ)) (by simp) (by simp)

end Draft

end SsaGraph
