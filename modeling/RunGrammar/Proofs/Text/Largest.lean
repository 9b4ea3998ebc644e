import Mathlib

/-!
# The largest measure of some items

Widths and passes are chosen by the largest number among some items, which is
found by a fold. The fold is the least upper bound. The larger one of two words is
the larger number.
-/

namespace RunGrammar

instance lawfulOrderMax_uInt32 : Std.LawfulOrderMax UInt32 where
  max_eq_or a b := by
    change (if a ≤ b then b else a) = a ∨ (if a ≤ b then b else a) = b
    split <;> simp
  max_le_iff a b c := by
    change (if a ≤ b then b else a) ≤ c ↔ a ≤ c ∧ b ≤ c
    simp only [UInt32.le_iff_toNat_le]
    split <;> omega

variable {α : Type}

theorem foldl_max_le_iff (measure : α → Nat) (items : List α) (start bound : Nat) :
    items.foldl (fun most x => max most (measure x)) start ≤ bound ↔
      start ≤ bound ∧ ∀ x ∈ items, measure x ≤ bound := by
  induction items generalizing start with
  | nil => simp
  | cons x items ih => rw [List.foldl_cons, ih, List.forall_mem_cons, Nat.max_le, and_assoc]

theorem le_foldl_max (measure : α → Nat) {items : List α} (start : Nat) {x : α} (hx : x ∈ items) :
    measure x ≤ items.foldl (fun most x => max most (measure x)) start :=
  ((foldl_max_le_iff measure items start _).mp (Nat.le_refl _)).2 x hx

end RunGrammar
