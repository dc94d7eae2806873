import Packrat.Sorting

/-!
# Tables of named things

A table holds at most one thing per name. Putting a thing replaces the one that stood under its
name.
-/

namespace Packrat

/-- Things by name. -/
structure Table (β : Type) where
  /-- Names with what they stand for. -/
  entries : List (String × β)

namespace Table

variable {β : Type}

/-- The table without entries. -/
def empty : Table β :=
  ⟨[]⟩

/-- What a name stands for. -/
def get? (t : Table β) (name : String) : Option β :=
  t.entries.lookup name

/-- Whether a name stands for something. -/
def has (t : Table β) (name : String) : Bool :=
  (t.get? name).isSome

/-- The table without a name. -/
def erase (t : Table β) (name : String) : Table β :=
  ⟨t.entries.filter fun e => e.1 ≠ name⟩

/-- The table in which a name stands for the given thing. -/
def put (t : Table β) (name : String) (b : β) : Table β :=
  ⟨(name, b) :: (t.erase name).entries⟩

/-- Change what a name stands for, if it stands for something. -/
def modify (t : Table β) (name : String) (f : β → β) : Table β :=
  ⟨t.entries.map fun e => if e.1 = name then (e.1, f e.2) else e⟩

/-- The things in the table. -/
def values (t : Table β) : List β :=
  t.entries.map (·.2)

/-- The entries in the order of their names. -/
def sorted (t : Table β) : List (String × β) :=
  sortWith (fun a b => !decide (b.1 < a.1)) t.entries

@[simp] theorem get?_empty (name : String) : (empty : Table β).get? name = none :=
  rfl

/-- A name that was erased stands for nothing. -/
@[simp] theorem get?_erase_self (t : Table β) (name : String) :
    (t.erase name).get? name = none := by
  simp only [get?, erase, List.lookup_eq_none_iff, List.mem_filter]
  rintro e ⟨_, hne⟩
  have hne : e.1 ≠ name := by simpa using hne
  simpa using hne.symm

/-- What was put under a name is found there. -/
@[simp] theorem get?_put_self (t : Table β) (name : String) (b : β) :
    (t.put name b).get? name = some b := by
  simp [get?, put]

/-- Putting something under a name leaves the other names as they were. -/
theorem get?_put_of_ne (t : Table β) {name other : String} (h : name ≠ other) (b : β) :
    (t.put name b).get? other = t.get? other := by
  have hlookup : ∀ es : List (String × β),
      (es.filter fun e => e.1 ≠ name).lookup other = es.lookup other := by
    intro es
    induction es with
    | nil => rfl
    | cons e es ih =>
      by_cases he : e.1 = name
      · have hother : (other == e.1) = false := by simpa [he] using h.symm
        rw [List.filter_cons_of_neg (by simp [he]), List.lookup_cons, hother, ih]
      · rw [List.filter_cons_of_pos (by simp [he]), List.lookup_cons, List.lookup_cons, ih]
  have hne : (other == name) = false := by simpa using h.symm
  simp only [get?, put, erase, List.lookup_cons, hne, hlookup]

/-- Changing what a name stands for leaves the other names as they were. -/
theorem get?_modify (t : Table β) (name other : String) (f : β → β) :
    (t.modify name f).get? other
      = if name = other then (t.get? other).map f else t.get? other := by
  have hlookup : ∀ es : List (String × β),
      (es.map fun e => if e.1 = name then (e.1, f e.2) else e).lookup other
        = if name = other then (es.lookup other).map f else es.lookup other := by
    intro es
    induction es with
    | nil => split <;> rfl
    | cons e es ih =>
      rw [List.map_cons, List.lookup_cons, List.lookup_cons, ih]
      by_cases he : e.1 = name
      · subst he
        rw [if_pos rfl]
        by_cases hother : e.1 = other
        · simp [hother]
        · have hne : (other == e.1) = false := by simpa using Ne.symm hother
          simp only [hne, if_neg hother]
      · rw [if_neg he]
        by_cases hother : name = other
        · subst hother
          have hne : (name == e.1) = false := by simpa using Ne.symm he
          simp only [hne, if_true]
        · simp only [if_neg hother]
  exact hlookup t.entries

end Table

end Packrat
