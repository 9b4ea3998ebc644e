/-!
# Work that threads share

Where several threads work on one list, a library of threads decides who does
what and when. This is what is taken from it. A reduction combines results of
neighbouring parts of the list; which parts these are and in which order they
are combined is not fixed, and the neutral value may come in anywhere. A sort
answers with the elements in an ascending order; among elements that the
comparison does not tell apart, the order is not fixed.

A `Reducer` and a `Sorter` are any functions of which this is true.
-/

namespace RunGrammar

variable {α : Type}

/-- Values combined to one: two neighbouring results at a time, in any order of the steps. -/
inductive Reduction (combine : α → α → α) (neutral : α) : List α → α → Prop where
  | nothing : Reduction combine neutral [] neutral
  | single (a : α) : Reduction combine neutral [a] a
  | join {xs ys : List α} {a b : α} (left : Reduction combine neutral xs a)
      (right : Reduction combine neutral ys b) :
    Reduction combine neutral (xs ++ ys) (combine a b)

/-- A way of combining all values of a list. -/
structure Reducer (combine : α → α → α) (neutral : α) where
  reduce : List α → α
  reduction : ∀ xs, Reduction combine neutral xs (reduce xs)

/-- A way of sorting by a comparison. -/
structure Sorter (le : α → α → Bool) where
  sort : List α → List α
  perm : ∀ xs, (sort xs).Perm xs
  ascending : ∀ xs, (sort xs).Pairwise fun x y => le x y = true

/-- One value at a time. -/
def Reducer.sequential (combine : α → α → α) (neutral : α) : Reducer combine neutral where
  reduce xs := xs.foldr combine neutral
  reduction xs := by
    induction xs with
    | nil => exact .nothing
    | cons x xs ih => exact .join (.single x) ih

/-- By merging. -/
def Sorter.merging {le : α → α → Bool}
    (trans : ∀ x y z, le x y = true → le y z = true → le x z = true)
    (total : ∀ x y, (le x y || le y x) = true) : Sorter le where
  sort xs := xs.mergeSort le
  perm xs := xs.mergeSort_perm le
  ascending xs := xs.pairwise_mergeSort trans total

end RunGrammar
