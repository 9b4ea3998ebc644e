import Mathlib
import RunGrammar.Text.Sharing
import RunGrammar.Proofs.Text.Groups

/-!
# Sharing work does not show

Where combining is associative, all reductions of a list have the same result,
that of combining from left to right. Where elements that the comparison does not
tell apart are equal, all sorters answer with the same list.
-/

namespace RunGrammar

variable {α : Type}

theorem Reduction.eq_foldl {combine : α → α → α} {neutral : α} [Std.Associative combine]
    [Std.LawfulIdentity combine neutral] {xs : List α} {a : α}
    (reduction : Reduction combine neutral xs a) : a = xs.foldl combine neutral := by
  induction reduction with
  | nothing => rfl
  | single a => exact (Std.LawfulLeftIdentity.left_id a).symm
  | @join xs ys a b _ _ left right =>
      have same : combine a neutral = a := Std.LawfulRightIdentity.right_id a
      calc combine a b
          = combine a (ys.foldl combine neutral) := by rw [right]
        _ = ys.foldl combine (combine a neutral) := List.foldl_assoc.symm
        _ = ys.foldl combine a := by rw [same]
        _ = (xs ++ ys).foldl combine neutral := by rw [List.foldl_append, ← left]

/-- The result of a reducer, whatever it does. -/
theorem Reducer.reduce_eq {combine : α → α → α} {neutral : α} [Std.Associative combine]
    [Std.LawfulIdentity combine neutral] (r : Reducer combine neutral) (xs : List α) :
    r.reduce xs = xs.foldl combine neutral :=
  (r.reduction xs).eq_foldl

theorem foldl_merge_some (f : α → α → α) (a : α) (xs : List α) :
    (xs.map some).foldl (Option.merge f) (some a) = some (xs.foldl f a) := by
  induction xs generalizing a with
  | nil => rfl
  | cons x xs ih => exact ih (f a x)

end RunGrammar
