import Mathlib
import RunGrammar.Text.Ascending

/-!
# Halving finds the place

If the test holds exactly on the first `k` items, the range that is halved
always contains `k`, and the search ends there. In an ascending sequence without
repetitions the place of an item is the number of items before it.
-/

namespace RunGrammar

variable {α : Type} {test : α → Bool} {items : Array α}

/-- The test holds on the first `k` items and on no other. -/
def HoldsBelow (test : α → Bool) (items : Array α) (k : Nat) : Prop :=
  ∀ (i : Nat) (x : α), items[i]? = some x → (test x = true ↔ i < k)

theorem searchRange_eq {k lo hi : Nat} (front : HoldsBelow test items k) (low : lo ≤ k)
    (high : k ≤ hi) (inside : hi ≤ items.size) : searchRange test items lo hi = k := by
  fun_induction searchRange test items lo hi with
  | case1 lo hi open' middle passed ih =>
      have : middle < hi := by omega
      have found : items[middle]? = some items[middle] := Array.getElem?_eq_getElem (by omega)
      rw [found, Option.any_some] at passed
      have := (front middle _ found).mp passed
      exact ih (by omega) high inside
  | case2 lo hi open' middle failed ih =>
      have : middle < hi := by omega
      have found : items[middle]? = some items[middle] := Array.getElem?_eq_getElem (by omega)
      rw [found, Option.any_some] at failed
      have := mt (front middle _ found).mpr failed
      exact ih low (by omega) (by omega)
  | case3 lo hi closed => omega

theorem frontLength_eq {k : Nat} (front : HoldsBelow test items k) (inside : k ≤ items.size) :
    frontLength test items = k :=
  searchRange_eq front (Nat.zero_le k) inside (Nat.le_refl _)

/-- In a sorted sequence the items that pass are those before `x`. -/
theorem frontLength_eq_idxOf [BEq α] [LawfulBEq α] {R : α → α → Prop} {xs : List α} {x : α}
    (sorted : xs.Pairwise R) (member : x ∈ xs) (before : ∀ y ∈ xs, R y x → test y = true)
    (self : test x = false) (after : ∀ y ∈ xs, R x y → test y = false) :
    frontLength test xs.toArray = xs.idxOf x := by
  obtain ⟨front, back, rfl, new⟩ := List.eq_append_cons_of_mem member
  obtain ⟨_, rest, across⟩ := List.pairwise_append.mp sorted
  have index : (front ++ x :: back).idxOf x = front.length := by
    simp [List.idxOf_append_of_notMem new]
  rw [index]
  refine frontLength_eq (fun i y found => ?_) (by simp)
  rw [List.getElem?_toArray] at found
  by_cases early : i < front.length
  · rw [List.getElem?_append_left early] at found
    have member := List.mem_of_getElem? found
    have passed := before y (by simp [member]) (across y member x (by simp))
    simp [passed, early]
  · rw [List.getElem?_append_right (Nat.not_lt.mp early)] at found
    have failed : test y = false := by
      obtain rfl | later := List.mem_cons.mp (List.mem_of_getElem? found)
      · exact self
      · exact after y (by simp [later]) ((List.pairwise_cons.mp rest).1 y later)
    simp [failed, early]

end RunGrammar
