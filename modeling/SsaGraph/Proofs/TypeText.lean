import SsaGraph.Ty.Basic

/-!
# Written types can be told apart

A written type begins with a core, which is a name or an array in brackets, and goes on with suffixes:
stars and parameter lists. Nothing marks where the return type of a function ends and its parameter list
begins, so a type is read from the left: the core, then one suffix after the other for as long as there
is one (`Ty.core`, `Ty.suffixes`).

A type is `Legible` when its text can be split off any text that does not go on with a digit or with
another suffix. Types stand inside others as elements and parameters, and behind them there comes a
bracket or a comma; so a type is legible when its parts are (`Ty.Parts.legible`).

Result: `Ty.text_inj`, different types have different texts.
-/
namespace SsaGraph.Ty

/-! ## Written forms as characters -/

def chars (t : Ty) : List Char := t.text.toList

/-- A parameter list without its parentheses. -/
def listChars (ts : List Ty) : List Char := (Text.commas (texts ts)).toList

/-- What follows the first parameter. -/
def moreChars (ts : List Ty) : List Char := ts.flatMap fun t => ',' :: ' ' :: t.chars

@[simp] theorem chars_int (bits : Nat) : (int bits).chars = 'i' :: Nat.toDigits 10 bits := by
  simp [chars, text]

@[simp] theorem chars_float : float.chars = ['f', 'l', 'o', 'a', 't'] := by simp [chars, text]

@[simp] theorem chars_void : void.chars = ['v', 'o', 'i', 'd'] := by simp [chars, text]

@[simp] theorem chars_label : label.chars = ['l', 'a', 'b', 'e', 'l'] := by simp [chars, text]

@[simp] theorem chars_array (t : Ty) (n : Nat) :
    (array t n).chars = '[' :: (Nat.toDigits 10 n ++ ' ' :: 'x' :: ' ' :: (t.chars ++ [']'])) := by
  simp [chars, text]

@[simp] theorem chars_pointer (t : Ty) : (pointer t).chars = t.chars ++ ['*'] := by simp [chars, text]

@[simp] theorem chars_function (ps : List Ty) (r : Ty) :
    (function ps r).chars = r.chars ++ ' ' :: '(' :: (listChars ps ++ [')']) := by
  simp [chars, text, listChars]

@[simp] theorem listChars_nil : listChars [] = [] := rfl

@[simp] theorem listChars_cons (t : Ty) (ts : List Ty) : listChars (t :: ts) = t.chars ++ moreChars ts := by
  induction ts generalizing t with
  | nil => simp [listChars, texts, Text.commas, moreChars, chars]
  | cons u us ih =>
    have step : listChars (t :: u :: us) = t.chars ++ ',' :: ' ' :: listChars (u :: us) := by
      simp [listChars, texts, Text.commas, chars]
    rw [step, ih]
    rfl

/-! ## Core and suffixes -/

inductive Suffix where
  | star
  | params (ts : List Ty)

namespace Suffix

def chars : Suffix → List Char
  | star => ['*']
  | params ts => ' ' :: '(' :: (listChars ts ++ [')'])

/-- The type with one suffix more. -/
def apply (t : Ty) : Suffix → Ty
  | star => pointer t
  | params ts => function ts t

end Suffix

/-- What stands before the suffixes. -/
def core : Ty → Ty
  | pointer t => core t
  | function _ r => core r
  | t => t

/-- From the innermost to the outermost, as they are written. -/
def suffixes : Ty → List Suffix
  | pointer t => suffixes t ++ [.star]
  | function ps r => suffixes r ++ [.params ps]
  | _ => []

theorem foldl_apply : ∀ t : Ty, t.suffixes.foldl Suffix.apply t.core = t
  | pointer t => by simp [core, suffixes, Suffix.apply, foldl_apply t]
  | function ps r => by simp [core, suffixes, Suffix.apply, foldl_apply r]
  | int _ | float | void | label | array .. => rfl

theorem chars_eq : ∀ t : Ty, t.chars = t.core.chars ++ t.suffixes.flatMap Suffix.chars
  | pointer t => by simp [core, suffixes, Suffix.chars, chars_eq t]
  | function ps r => by simp [core, suffixes, Suffix.chars, chars_eq r]
  | int _ | float | void | label | array .. => by simp [core, suffixes]

/-- A type that has no suffix. -/
def IsCore : Ty → Prop
  | pointer _ | function .. => False
  | _ => True

theorem isCore_core : ∀ t : Ty, t.core.IsCore
  | pointer t => isCore_core t
  | function _ r => isCore_core r
  | int _ | float | void | label | array .. => trivial

/-! ## Reading from the left -/

/-- The text does not begin with a digit. -/
def NoDigit (rest : List Char) : Prop := ∀ c ∈ rest.head?, c.isDigit = false

/-- The text does not go on with a number or a type before it. -/
def Ends (rest : List Char) : Prop := ∀ c ∈ rest.head?, c.isDigit = false ∧ c ≠ '*' ∧ c ≠ ' '

theorem Ends.noDigit {rest : List Char} (h : Ends rest) : NoDigit rest := fun c hc => (h c hc).1

theorem takeWhile_digits (n : Nat) {rest : List Char} (h : NoDigit rest) :
    (Nat.toDigits 10 n ++ rest).takeWhile Char.isDigit = Nat.toDigits 10 n := by
  have digits : ∀ c ∈ Nat.toDigits 10 n, c.isDigit = true := fun c hc =>
    Nat.isDigit_of_mem_toDigits (by decide) (by decide) hc
  have none : rest.takeWhile Char.isDigit = [] := by
    cases rest with
    | nil => rfl
    | cons c rest => exact List.takeWhile_cons_of_neg (by simp [h c rfl])
  rw [List.takeWhile_append_of_pos digits, none, List.append_nil]

theorem digits_append_inj {m n : Nat} {r s : List Char} (hr : NoDigit r) (hs : NoDigit s)
    (h : Nat.toDigits 10 m ++ r = Nat.toDigits 10 n ++ s) : m = n ∧ r = s := by
  have digits := congrArg (List.takeWhile Char.isDigit) h
  rw [takeWhile_digits m hr, takeWhile_digits n hs] at digits
  have read := congrArg (Nat.ofDigitChars 10 · 0) digits
  simp only [Nat.ofDigitChars_ten_toDigits] at read
  subst read
  exact ⟨rfl, List.append_cancel_left h⟩

/-- The type and what follows it can be told from a text in which nothing else goes on with a type. -/
def Legible (t : Ty) : Prop :=
  ∀ (u : Ty) (r s : List Char), Ends r → Ends s → t.chars ++ r = u.chars ++ s → t = u ∧ r = s

theorem core_append_inj {t u : Ty} {r s : List Char} (ht : t.IsCore) (hu : u.IsCore)
    (elem : ∀ e n, t = array e n → e.Legible) (hr : NoDigit r) (hs : NoDigit s)
    (h : t.chars ++ r = u.chars ++ s) : t = u ∧ r = s := by
  cases t with
  | pointer | function => exact ht.elim
  | int m =>
    cases u with
    | pointer | function => exact hu.elim
    | int n =>
      simp only [chars_int, List.cons_append, List.cons.injEq, true_and] at h
      obtain ⟨rfl, rest⟩ := digits_append_inj hr hs h
      exact ⟨rfl, rest⟩
    | float | void | label | array => simp at h
  | float =>
    cases u with
    | pointer | function => exact hu.elim
    | float => exact ⟨rfl, List.append_cancel_left h⟩
    | int | void | label | array => simp at h
  | void =>
    cases u with
    | pointer | function => exact hu.elim
    | void => exact ⟨rfl, List.append_cancel_left h⟩
    | int | float | label | array => simp at h
  | label =>
    cases u with
    | pointer | function => exact hu.elim
    | label => exact ⟨rfl, List.append_cancel_left h⟩
    | int | float | void | array => simp at h
  | array e m =>
    cases u with
    | pointer | function => exact hu.elim
    | array e' n =>
      simp only [chars_array, List.cons_append, List.append_assoc, List.nil_append, List.cons.injEq,
        true_and] at h
      obtain ⟨rfl, inside⟩ := digits_append_inj (by simp [NoDigit]) (by simp [NoDigit]) h
      simp only [List.cons.injEq, true_and] at inside
      obtain ⟨rfl, rest⟩ := elem e m rfl e' _ _ (by simp [Ends]) (by simp [Ends]) inside
      exact ⟨rfl, (List.cons.inj rest).2⟩
    | int | float | void | label => simp at h

/-- A type does not begin with the parenthesis that ends a list of types. -/
theorem chars_append_ne (t : Ty) (r s : List Char) : t.chars ++ r ≠ ')' :: s := by
  rw [chars_eq]
  have isCore := isCore_core t
  generalize t.core = c at isCore ⊢
  cases c with
  | pointer | function => exact isCore.elim
  | int | float | void | label | array => simp

theorem ends_moreChars (ts : List Ty) (r : List Char) : Ends (moreChars ts ++ ')' :: r) := by
  cases ts with
  | nil => simp [moreChars, Ends]
  | cons t ts => simp [moreChars, Ends]

theorem moreChars_append_inj {ts us : List Ty} {r s : List Char} (each : ∀ t ∈ ts, t.Legible)
    (h : moreChars ts ++ ')' :: r = moreChars us ++ ')' :: s) : ts = us ∧ r = s := by
  induction ts generalizing us with
  | nil =>
    cases us with
    | nil => exact ⟨rfl, (List.cons.inj h).2⟩
    | cons u us => simp [moreChars] at h
  | cons t ts ih =>
    cases us with
    | nil => simp [moreChars] at h
    | cons u us =>
      have first : t.chars ++ (moreChars ts ++ ')' :: r) = u.chars ++ (moreChars us ++ ')' :: s) := by
        simpa [moreChars] using h
      obtain ⟨rfl, rest⟩ := each t (List.mem_cons_self ..) u _ _ (ends_moreChars ts r)
        (ends_moreChars us s) first
      obtain ⟨rfl, tail⟩ := ih (fun t ht => each t (List.mem_cons_of_mem _ ht)) rest
      exact ⟨rfl, tail⟩

theorem listChars_append_inj {ts us : List Ty} {r s : List Char} (each : ∀ t ∈ ts, t.Legible)
    (h : listChars ts ++ ')' :: r = listChars us ++ ')' :: s) : ts = us ∧ r = s := by
  cases ts with
  | nil =>
    cases us with
    | nil => exact ⟨rfl, (List.cons.inj h).2⟩
    | cons u us =>
      rw [listChars_cons, List.append_assoc] at h
      exact absurd h.symm (chars_append_ne u _ r)
  | cons t ts =>
    cases us with
    | nil =>
      rw [listChars_cons, List.append_assoc] at h
      exact absurd h (chars_append_ne t _ s)
    | cons u us =>
      rw [listChars_cons, listChars_cons, List.append_assoc, List.append_assoc] at h
      obtain ⟨rfl, rest⟩ := each t (List.mem_cons_self ..) u _ _ (ends_moreChars ts r)
        (ends_moreChars us s) h
      obtain ⟨rfl, tail⟩ := moreChars_append_inj (fun t ht => each t (List.mem_cons_of_mem _ ht)) rest
      exact ⟨rfl, tail⟩

theorem suffixes_append_inj {ss ts : List Suffix} {r s : List Char}
    (params : ∀ ps, .params ps ∈ ss → ∀ p ∈ ps, p.Legible) (hr : Ends r) (hs : Ends s)
    (h : ss.flatMap Suffix.chars ++ r = ts.flatMap Suffix.chars ++ s) : ss = ts ∧ r = s := by
  induction ss generalizing ts with
  | nil =>
    cases ts with
    | nil => exact ⟨rfl, h⟩
    | cons b ts =>
      rw [List.flatMap_nil, List.nil_append] at h
      subst h
      cases b <;> simp [Suffix.chars, Ends] at hr
  | cons a ss ih =>
    have rest := fun ps hps => params ps (List.mem_cons_of_mem a hps)
    cases ts with
    | nil =>
      rw [List.flatMap_nil, List.nil_append] at h
      subst h
      cases a <;> simp [Suffix.chars, Ends] at hs
    | cons b ts =>
      cases a with
      | star =>
        cases b with
        | star =>
          obtain ⟨rfl, same⟩ := ih rest (by simpa [Suffix.chars] using h)
          exact ⟨rfl, same⟩
        | params qs => simp [Suffix.chars] at h
      | params ps =>
        cases b with
        | star => simp [Suffix.chars] at h
        | params qs =>
          simp only [List.flatMap_cons, Suffix.chars, List.cons_append, List.append_assoc,
            List.nil_append, List.cons.injEq, true_and] at h
          obtain ⟨rfl, more⟩ := listChars_append_inj (params ps (List.mem_cons_self ..)) h
          obtain ⟨rfl, same⟩ := ih rest more
          exact ⟨rfl, same⟩

/-! ## All types -/

/-- The types that stand inside the type, in brackets or parentheses, are legible. -/
structure Parts (t : Ty) : Prop where
  elem : ∀ e n, t.core = array e n → e.Legible
  params : ∀ ps, .params ps ∈ t.suffixes → ∀ p ∈ ps, p.Legible

/-- What follows the core of a type in a text does not go on with a digit. -/
theorem noDigit_suffixes (ss : List Suffix) {r : List Char} (hr : Ends r) :
    NoDigit (ss.flatMap Suffix.chars ++ r) := by
  cases ss with
  | nil => exact hr.noDigit
  | cons a ss => cases a <;> simp [Suffix.chars, NoDigit]

theorem Parts.legible {t : Ty} (h : t.Parts) : t.Legible := by
  intro u r s hr hs same
  rw [chars_eq t, chars_eq u, List.append_assoc, List.append_assoc] at same
  obtain ⟨cores, rest⟩ := core_append_inj (isCore_core t) (isCore_core u) h.elem
    (noDigit_suffixes _ hr) (noDigit_suffixes _ hs) same
  obtain ⟨suffixes, rest⟩ := suffixes_append_inj h.params hr hs rest
  refine ⟨?_, rest⟩
  rw [← foldl_apply t, ← foldl_apply u, cores, suffixes]

/-- A core that is no array has no parts. -/
theorem parts_of_core {t : Ty} (core : t.core = t) (none : t.suffixes = [])
    (noArray : t.isArray = false) : t.Parts where
  elem e n h := by
    rw [core] at h
    subst h
    cases noArray
  params ps h := by
    rw [none] at h
    cases h

mutual
theorem parts : ∀ t : Ty, t.Parts
  | int _ => parts_of_core rfl rfl rfl
  | float => parts_of_core rfl rfl rfl
  | void => parts_of_core rfl rfl rfl
  | label => parts_of_core rfl rfl rfl
  | array t _ => by
    refine ⟨fun e n h => ?_, fun ps h => by cases h⟩
    cases h
    exact (parts t).legible
  | pointer t => by
    refine ⟨(parts t).elem, fun ps h => ?_⟩
    rw [suffixes, List.mem_append] at h
    rcases h with h | h
    · exact (parts t).params ps h
    · simp at h
  | function qs r => by
    refine ⟨(parts r).elem, fun ps h => ?_⟩
    rw [suffixes, List.mem_append] at h
    rcases h with h | h
    · exact (parts r).params ps h
    · cases List.mem_singleton.1 h
      exact allLegible qs

theorem allLegible : ∀ ts : List Ty, ∀ t ∈ ts, t.Legible
  | [], _, h => by cases h
  | u :: us, t, h => by
    rcases List.mem_cons.1 h with first | later
    · rw [first]
      exact (parts u).legible
    · exact allLegible us t later
end

/-- The texts of two types are equal exactly when the types are, however deeply they are nested and
whether or not they could be formed with checks. -/
theorem text_inj {a b : Ty} : a.text = b.text ↔ a = b := by
  refine ⟨fun h => ?_, congrArg text⟩
  have same : a.chars ++ [] = b.chars ++ [] := by simp [chars, h]
  exact ((parts a).legible b [] [] (by simp [Ends]) (by simp [Ends]) same).1

end SsaGraph.Ty
