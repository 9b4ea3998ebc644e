import RunGrammar.Text.CountingSort
import RunGrammar.Text.RadixSort
import RunGrammar.Symbol

/-!
# Adjacencies

Two neighbouring symbols of a text are recorded as the larger one, the smaller
one, and which of the two came first. Sorted in this order, all adjacencies of a
symbol with smaller ones stand together, and the symbols appear in ascending
order.

Three sorts are given. `sort` composes three stable distributions, the last key
first, and `sortByCounting` does so with distributions by counting;
`sortByComparison` compares whole records. A multiset of adjacencies has only one
ascending arrangement, so they agree.
-/

namespace RunGrammar

/-- Two neighbours of a text; they are different symbols. -/
structure Adjacency where
  larger : Symbol
  smaller : Symbol
  /-- Whether the smaller symbol came first. -/
  rising : Bool
deriving DecidableEq, Repr

namespace Adjacency

/-- The adjacency of `a` followed by `b`. -/
def ofNeighbours (a b : Symbol) : Adjacency :=
  if b < a then ⟨a, b, false⟩ else ⟨b, a, true⟩

/-- The adjacencies of a text, from left to right. -/
def ofText (text : Text) : List Adjacency := text.zipWith ofNeighbours text.tail

/-- Order by the larger symbol, then the smaller one, then falling before rising. -/
def le (x y : Adjacency) : Bool :=
  x.larger < y.larger || (x.larger == y.larger &&
    (x.smaller < y.smaller || (x.smaller == y.smaller && (!x.rising || y.rising))))

theorem le_iff {x y : Adjacency} : x.le y = true ↔
    x.larger.toNat < y.larger.toNat ∨ (x.larger.toNat = y.larger.toNat ∧
      (x.smaller.toNat < y.smaller.toNat ∨ (x.smaller.toNat = y.smaller.toNat ∧
        x.rising.toNat ≤ y.rising.toNat))) := by
  have rising : (!x.rising || y.rising) = true ↔ x.rising.toNat ≤ y.rising.toNat := by
    cases x.rising <;> cases y.rising <;> simp
  simp only [le, Bool.or_eq_true, Bool.and_eq_true, decide_eq_true_eq, beq_iff_eq,
    UInt32.lt_iff_toNat_lt, ← UInt32.toNat_inj, ← rising]

theorem le_trans (x y z : Adjacency) (h : x.le y = true) (h' : y.le z = true) : x.le z = true := by
  rw [le_iff] at *
  omega

theorem le_total (x y : Adjacency) : (x.le y || y.le x) = true := by
  rw [Bool.or_eq_true, le_iff, le_iff]
  omega

def sort (adjacencies : List Adjacency) : List Adjacency :=
  let byRising := RadixSort.sortByKey (fun x : Adjacency => x.rising.toUInt32) adjacencies
  let bySmaller := RadixSort.sortByKey Adjacency.smaller byRising
  RadixSort.sortByKey Adjacency.larger bySmaller

def sortByCounting (adjacencies : List Adjacency) : Option (List Adjacency) := do
  let byRising ← CountingSort.sortByKey (fun x : Adjacency => x.rising.toUInt32) adjacencies
  let bySmaller ← CountingSort.sortByKey Adjacency.smaller byRising
  CountingSort.sortByKey Adjacency.larger bySmaller

def sortByComparison (adjacencies : List Adjacency) : List Adjacency :=
  adjacencies.mergeSort le

end Adjacency

end RunGrammar
