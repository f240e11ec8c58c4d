/-!
# Sorting

A stable insertion sort: elements that compare as equal keep their order. On a list that is
already sorted it makes one comparison per element.
-/

namespace SymCalc

variable {α : Type}

/-- Puts an element before the first one that does not come before it. -/
def insertSorted (order : α → α → Ordering) (x : α) : List α → List α
  | [] => [x]
  | y :: ys => if order y x = .lt then y :: insertSorted order x ys else x :: y :: ys

/-- Sorts a list, keeping the order of equal elements. -/
def sortBy (order : α → α → Ordering) : List α → List α
  | [] => []
  | x :: xs => insertSorted order x (sortBy order xs)

/-- Inserting adds exactly the element. -/
theorem insertSorted_perm (order : α → α → Ordering) (x : α) (xs : List α) :
    (insertSorted order x xs).Perm (x :: xs) := by
  induction xs with
  | nil => exact .refl _
  | cons y ys ih =>
    simp only [insertSorted]
    split
    · exact (ih.cons y).trans (.swap x y ys)
    · exact .refl _

/-- Sorting changes nothing but the order. -/
theorem sortBy_perm (order : α → α → Ordering) (xs : List α) : (sortBy order xs).Perm xs := by
  induction xs with
  | nil => exact .refl _
  | cons x xs ih => exact (insertSorted_perm order x _).trans (ih.cons x)

/-- Sorting keeps the number of elements. -/
@[simp] theorem length_sortBy (order : α → α → Ordering) (xs : List α) :
    (sortBy order xs).length = xs.length :=
  (sortBy_perm order xs).length_eq

/-- Sorting keeps the elements. -/
@[simp] theorem mem_sortBy {order : α → α → Ordering} {x : α} {xs : List α} :
    x ∈ sortBy order xs ↔ x ∈ xs :=
  (sortBy_perm order xs).mem_iff

end SymCalc
