/-!
# Sorting

A stable sort by insertion, on a test that says whether one thing may stand before another. Things
that may stand either way round keep the order they came in.
-/

namespace Packrat

variable {α : Type}

/-- Put a thing into a list, before the first one that it may stand before. -/
def insertBefore (mayPrecede : α → α → Bool) (x : α) : List α → List α
  | [] => [x]
  | y :: ys => if mayPrecede x y then x :: y :: ys else y :: insertBefore mayPrecede x ys

/-- Sort a list. -/
def sortWith (mayPrecede : α → α → Bool) : List α → List α
  | [] => []
  | x :: xs => insertBefore mayPrecede x (sortWith mayPrecede xs)

/-- Putting a thing into a list adds it and changes nothing else. -/
theorem insertBefore_perm (mayPrecede : α → α → Bool) (x : α) (ys : List α) :
    (insertBefore mayPrecede x ys).Perm (x :: ys) := by
  induction ys with
  | nil => exact .refl _
  | cons y ys ih =>
    unfold insertBefore
    split
    · exact .refl _
    · exact (ih.cons y).trans (.swap x y ys)

/-- Sorting loses nothing and adds nothing. -/
theorem sortWith_perm (mayPrecede : α → α → Bool) (xs : List α) :
    (sortWith mayPrecede xs).Perm xs := by
  induction xs with
  | nil => exact .refl _
  | cons x xs ih => exact (insertBefore_perm mayPrecede x _).trans (ih.cons x)

/-- Things are sorted as what they are turned into, if that decides which may stand first. -/
theorem insertBefore_map {β : Type} {mayPrecede : α → α → Bool} {mayPrecede' : β → β → Bool}
    {f : α → β} (hf : ∀ x y, mayPrecede' (f x) (f y) = mayPrecede x y) (x : α) (ys : List α) :
    insertBefore mayPrecede' (f x) (ys.map f) = (insertBefore mayPrecede x ys).map f := by
  induction ys with
  | nil => rfl
  | cons y ys ih =>
    rw [List.map_cons, insertBefore, insertBefore, hf, ih]
    split <;> rfl

theorem sortWith_map {β : Type} {mayPrecede : α → α → Bool} {mayPrecede' : β → β → Bool}
    {f : α → β} (hf : ∀ x y, mayPrecede' (f x) (f y) = mayPrecede x y) (xs : List α) :
    sortWith mayPrecede' (xs.map f) = (sortWith mayPrecede xs).map f := by
  induction xs with
  | nil => rfl
  | cons x xs ih => rw [List.map_cons, sortWith, sortWith, ih, insertBefore_map hf]

/-! ## The order of a sorted list

Where the test is transitive and holds one way round of any two things, everything in a sorted list
may stand before whatever comes after it; and a search finds what may stand first. -/

section

variable {mayPrecede : α → α → Bool}
  (htrans : ∀ x y z, mayPrecede x y = true → mayPrecede y z = true → mayPrecede x z = true)

include htrans

/-- What may stand before the first of a sorted list may stand before all of it. -/
theorem forall_mayPrecede {x y : α} {ys : List α}
    (h : (y :: ys).Pairwise fun a b => mayPrecede a b = true) (hxy : mayPrecede x y = true) :
    ∀ z ∈ y :: ys, mayPrecede x z = true := by
  intro z hz
  rcases List.mem_cons.1 hz with rfl | hz
  · exact hxy
  · exact htrans x y z hxy ((List.pairwise_cons.1 h).1 z hz)

theorem pairwise_insertBefore (htotal : ∀ x y, mayPrecede x y = false → mayPrecede y x = true)
    (x : α) {ys : List α} (h : ys.Pairwise fun a b => mayPrecede a b = true) :
    (insertBefore mayPrecede x ys).Pairwise fun a b => mayPrecede a b = true := by
  induction ys with
  | nil => exact List.pairwise_singleton _ x
  | cons y ys ih =>
    obtain ⟨hy, hys⟩ := List.pairwise_cons.1 h
    unfold insertBefore
    split
    next hxy => exact List.pairwise_cons.2 ⟨forall_mayPrecede htrans h hxy, h⟩
    next hxy =>
      refine List.pairwise_cons.2 ⟨fun z hz => ?_, ih hys⟩
      rcases List.mem_cons.1 ((insertBefore_perm mayPrecede x ys).mem_iff.1 hz) with rfl | hz
      · exact htotal z y (by simpa using hxy)
      · exact hy z hz

theorem pairwise_sortWith (htotal : ∀ x y, mayPrecede x y = false → mayPrecede y x = true)
    (xs : List α) : (sortWith mayPrecede xs).Pairwise fun a b => mayPrecede a b = true := by
  induction xs with
  | nil => exact .nil
  | cons x xs ih => exact pairwise_insertBefore htrans htotal x ih

/-- What was put into a sorted list is found before the others that it may stand before. -/
theorem find?_insertBefore (P : α → Bool) (x : α) {ys : List α}
    (h : ys.Pairwise fun a b => mayPrecede a b = true) :
    (insertBefore mayPrecede x ys).find? P =
      if P x then
        match ys.find? P with
        | none => some x
        | some y => if mayPrecede x y then some x else some y
      else ys.find? P := by
  induction ys with
  | nil =>
    show [x].find? P = if P x then some x else none
    by_cases hx : P x = true
    · rw [List.find?_cons_of_pos hx, if_pos hx]
    · rw [List.find?_cons_of_neg hx, if_neg hx, List.find?_nil]
  | cons y ys ih =>
    unfold insertBefore
    by_cases hxy : mayPrecede x y = true
    · have hall := forall_mayPrecede htrans h hxy
      rw [if_pos hxy]
      by_cases hx : P x = true
      · rw [List.find?_cons_of_pos hx, if_pos hx]
        cases hfind : (y :: ys).find? P with
        | none => rfl
        | some z => exact (if_pos (hall z (List.mem_of_find?_eq_some hfind))).symm
      · rw [List.find?_cons_of_neg hx, if_neg hx]
    · rw [if_neg hxy]
      by_cases hPy : P y = true
      · rw [List.find?_cons_of_pos hPy, List.find?_cons_of_pos hPy]
        simp only [if_neg hxy, ite_self]
      · rw [List.find?_cons_of_neg hPy, List.find?_cons_of_neg hPy]
        exact ih (List.pairwise_cons.1 h).2

end

end Packrat
