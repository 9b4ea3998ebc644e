import Mathlib
import RunGrammar.Bits.Basic

/-!
# Bits and numbers

The bits of a number and the number of some bits are inverse to each other, as
far as the width goes: writing keeps the remainder by the power of two, and what
is read is always below it.
-/

namespace RunGrammar.Bits

@[simp] theorem toNat_ofNat (width value : Nat) :
    toNat (ofNat width value) = value % 2 ^ width := by
  induction width generalizing value with
  | zero => simp [ofNat, toNat, Nat.mod_one]
  | succ width ih =>
    have split : value % 2 ^ (width + 1) = value % 2 + 2 * (value / 2 % 2 ^ width) := by
      rw [Nat.pow_succ', Nat.mod_mul]
    rw [ofNat, toNat, ih, split]
    rcases Nat.mod_two_eq_zero_or_one value with h | h <;> simp [h]

theorem toNat_lt (bits : List Bool) : toNat bits < 2 ^ bits.length := by
  induction bits with
  | nil => simp [toNat]
  | cons bit rest ih =>
    rw [toNat, List.length_cons, Nat.pow_succ']
    cases bit <;> simp <;> omega

theorem isSignedWord_iff {value : Int} :
    isSignedWord value = true ↔ -2 ^ 63 ≤ value ∧ value < 2 ^ 63 := by
  have bound : signedBound = 2 ^ 63 := rfl
  simp only [isSignedWord, bound, Bool.and_eq_true, decide_eq_true_eq]

end RunGrammar.Bits
