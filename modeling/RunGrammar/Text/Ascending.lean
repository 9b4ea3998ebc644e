/-!
# Searching ascending sequences

Where a test holds on a front part of a sequence and fails on the rest, the
number of items that pass is found by halving. With the test "comes before `x`"
on an ascending sequence that is the rank of `x`.
-/

namespace RunGrammar

variable {α : Type}

/-- Halves the range `lo ≤ i < hi` until no item is left to test. -/
def searchRange (test : α → Bool) (items : Array α) (lo hi : Nat) : Nat :=
  if lo < hi then
    let middle := (lo + hi) / 2
    if items[middle]?.any test then searchRange test items (middle + 1) hi
    else searchRange test items lo middle
  else lo
termination_by hi - lo

/-- How many items pass a test that holds exactly on a front part of the sequence. -/
def frontLength (test : α → Bool) (items : Array α) : Nat :=
  searchRange test items 0 items.size

end RunGrammar
