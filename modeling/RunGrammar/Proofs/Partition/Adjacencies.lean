import Mathlib
import RunGrammar.Partition.Adjacency
import RunGrammar.Proofs.Text.CountingSort

/-!
# Sorted adjacencies

The order of adjacencies is total and antisymmetric, so a list of them has one
ascending arrangement only. All sorts produce it; for the radix sort, by buckets
or by counting, this is where its stability is needed.
-/

namespace RunGrammar

namespace RadixSort

variable {α : Type} {key : α → Nat} {items sorted : List α}

/-- Among items with equal keys a stable sort keeps whatever relation held before. -/
theorem StableSort.lexicographic (h : StableSort key items sorted) {R : α → α → Prop}
    (before : items.Pairwise R) :
    sorted.Pairwise fun x y => key x < key y ∨ (key x = key y ∧ R x y) := by
  rw [List.pairwise_iff_forall_sublist]
  intro x y both
  have le := List.pairwise_iff_forall_sublist.mp h.ascending both
  obtain lt | same := Nat.lt_or_eq_of_le le
  · exact Or.inl lt
  · refine Or.inr ⟨same, ?_⟩
    have kept := both.filter (key · = key x)
    rw [h.stable] at kept
    have pair : [x, y].filter (key · = key x) = [x, y] := by simp [same]
    rw [pair] at kept
    exact List.pairwise_iff_forall_sublist.mp before (kept.trans List.filter_sublist)

end RadixSort

namespace Adjacency

theorem le_antisymm (x y : Adjacency) (h : x.le y = true) (h' : y.le x = true) : x = y := by
  rw [le_iff] at h h'
  have larger : x.larger = y.larger := UInt32.toNat_inj.mp (by omega)
  have smaller : x.smaller = y.smaller := UInt32.toNat_inj.mp (by omega)
  have rising : x.rising = y.rising := by
    have : x.rising.toNat = y.rising.toNat := by omega
    cases hx : x.rising <;> cases hy : y.rising <;> simp_all
  cases x
  cases y
  simp_all

theorem sort_perm (xs : List Adjacency) : (sort xs).Perm xs := by
  have rising := (RadixSort.sortByKey_stableSort (fun x : Adjacency => x.rising.toUInt32) xs).perm
  have smaller := (RadixSort.sortByKey_stableSort Adjacency.smaller
    (RadixSort.sortByKey (fun x : Adjacency => x.rising.toUInt32) xs)).perm
  exact (RadixSort.sortByKey_stableSort Adjacency.larger _).perm.trans (smaller.trans rising)

/-- The last key first, three stable sorts give the lexicographic order. -/
theorem sort_ascending (xs : List Adjacency) : (sort xs).Pairwise fun x y => x.le y = true := by
  have byRising := RadixSort.sortByKey_stableSort (fun x : Adjacency => x.rising.toUInt32) xs
  have bySmaller := (RadixSort.sortByKey_stableSort Adjacency.smaller
    (RadixSort.sortByKey (fun x : Adjacency => x.rising.toUInt32) xs)).lexicographic
    byRising.ascending
  have byLarger := (RadixSort.sortByKey_stableSort Adjacency.larger _).lexicographic bySmaller
  apply byLarger.imp
  intro x y h
  have value : ∀ b : Bool, b.toUInt32.toNat = b.toNat := by decide
  rw [value, value] at h
  exact le_iff.mpr h

theorem sortByComparison_ascending (xs : List Adjacency) :
    (sortByComparison xs).Pairwise fun x y => x.le y = true :=
  List.pairwise_mergeSort le_trans le_total xs

/-- There is only one ascending arrangement. -/
theorem eq_sort {xs ys : List Adjacency} (perm : ys.Perm xs)
    (ascending : ys.Pairwise fun x y => x.le y = true) : ys = sort xs :=
  List.Perm.eq_of_pairwise (fun x y _ _ => le_antisymm x y) ascending (sort_ascending xs)
    (perm.trans (sort_perm xs).symm)

theorem sort_eq_sortByComparison (xs : List Adjacency) : sort xs = sortByComparison xs :=
  (eq_sort (List.mergeSort_perm xs le) (sortByComparison_ascending xs)).symm

theorem sortByCounting_eq (xs : List Adjacency) : sortByCounting xs = some (sort xs) := by
  simp only [sortByCounting, CountingSort.sortByKey_eq, Option.bind_eq_bind, Option.bind_some, sort]

/-- Whatever the keys are, counting answers with the stable sort of the items: the same items in
ascending order of their keys, with equal keys in their old order. There is only one such list, and
distributing into buckets leads to it, too. So adjacencies are brought into their only ascending
arrangement. -/
theorem sorts_specified {α : Type} (key : α → UInt32) (items : List α)
    (adjacencies : List Adjacency) :
    (∃ sorted, CountingSort.sortByKey key items = some sorted ∧
      RadixSort.sortByKey key items = sorted ∧
      RadixSort.StableSort (fun x => (key x).toNat) items sorted ∧
      ∀ other, RadixSort.StableSort (fun x => (key x).toNat) items other → other = sorted) ∧
    ∃ arranged, sortByCounting adjacencies = some arranged ∧ sort adjacencies = arranged ∧
      arranged.Perm adjacencies ∧ (arranged.Pairwise fun x y => x.le y = true) ∧
      ∀ other, other.Perm adjacencies → (other.Pairwise fun x y => x.le y = true) →
        other = arranged := by
  constructor
  · have stable := RadixSort.sortByKey_stableSort key items
    exact ⟨_, CountingSort.sortByKey_eq key items, rfl, stable, fun _ h => stable.unique h⟩
  · exact ⟨_, sortByCounting_eq adjacencies, rfl, sort_perm adjacencies,
      sort_ascending adjacencies, fun _ => eq_sort⟩

/-- The keys take up to three bytes, and equal ones keep their order. -/
theorem sorts_specified_three_bytes :
    CountingSort.sortByKey Prod.fst [((300 : UInt32), 'a'), (1, 'b'), (300, 'c'), (70000, 'd'),
      (1, 'e')] = some [(1, 'b'), (1, 'e'), (300, 'a'), (300, 'c'), (70000, 'd')] ∧
    sortByCounting [⟨70000, 300, true⟩, ⟨300, 1, true⟩, ⟨70000, 300, false⟩] =
      some [⟨300, 1, true⟩, ⟨70000, 300, false⟩, ⟨70000, 300, true⟩] := by
  obtain ⟨⟨sorted, answered, _, _, unique⟩, arranged, answered', _, _, _, unique'⟩ :=
    sorts_specified Prod.fst [((300 : UInt32), 'a'), (1, 'b'), (300, 'c'), (70000, 'd'), (1, 'e')]
      [⟨70000, 300, true⟩, ⟨300, 1, true⟩, ⟨70000, 300, false⟩]
  have stable := unique [(1, 'b'), (1, 'e'), (300, 'a'), (300, 'c'), (70000, 'd')]
    ⟨by decide, by decide, fun k => by
      by_cases h1 : 1 = k
      · subst h1
        rfl
      · by_cases h2 : 300 = k
        · subst h2
          rfl
        · simp [List.filter_cons, h1, h2]⟩
  have ascending := unique' [⟨300, 1, true⟩, ⟨70000, 300, false⟩, ⟨70000, 300, true⟩]
    (by decide) (by decide)
  exact ⟨stable ▸ answered, ascending ▸ answered'⟩

end Adjacency

end RunGrammar
