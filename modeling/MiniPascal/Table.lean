import MiniPascal.Text.Basic

/-!
Finite maps from names, as lists of entries in the order in which their names came in.
-/

namespace MiniPascal

abbrev Table (α : Type) := List (Text × α)

namespace Table

variable {α : Type}

def get? (t : Table α) (name : Text) : Option α := t.lookup name

def contains (t : Table α) (name : Text) : Bool := (t.get? name).isSome

/-- Replaces the value of a name, or adds the name at the end. -/
def set (t : Table α) (name : Text) (value : α) : Table α :=
  match t with
  | [] => [(name, value)]
  | (other, v) :: rest =>
    if other = name then (name, value) :: rest else (other, v) :: set rest name value

/-- Sets names in turn, so that a later value of the same name wins. -/
def setAll (t : Table α) : List (Text × α) → Table α
  | [] => t
  | (name, value) :: entries => setAll (t.set name value) entries

def erase (t : Table α) (name : Text) : Table α := t.filter (·.1 ≠ name)

def names (t : Table α) : List Text := t.map Prod.fst

@[simp] theorem get?_nil (name : Text) : get? ([] : Table α) name = none := rfl

theorem get?_cons (t : Table α) (other name : Text) (v : α) :
    get? ((other, v) :: t) name = if name = other then some v else get? t name := by
  by_cases h : name = other
  · simp [get?, h]
  · have hb : (name == other) = false := by simpa using h
    simp [get?, List.lookup_cons, h, hb]

theorem get?_set (t : Table α) (name other : Text) (v : α) :
    (t.set name v).get? other = if other = name then some v else t.get? other := by
  induction t with
  | nil => rw [set, get?_cons]
  | cons entry rest ih =>
    obtain ⟨first, w⟩ := entry
    by_cases hf : first = name
    · simp only [set, if_pos hf, get?_cons]
      by_cases ho : other = name <;> simp [ho, hf]
    · simp only [set, if_neg hf, get?_cons, ih]
      by_cases ho : other = name
      · simp [ho, Ne.symm hf]
      · simp [ho]

end Table

end MiniPascal
