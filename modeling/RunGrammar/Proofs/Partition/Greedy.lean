import Mathlib
import RunGrammar.Partition.Basic
import RunGrammar.Proofs.Partition.Adjacencies
import RunGrammar.Proofs.Text.Groups

/-!
# The greedy classes

The classes do not depend on how the adjacencies were listed: a symbol is in
the upper class exactly when fewer of its smaller neighbours are in the upper
class than in the lower one. The condition on a symbol refers to smaller symbols
only, so it has one solution. It counts neighbours and compares symbols, so
renaming the symbols in ascending order renames the solution.
-/

namespace RunGrammar.Partition

/-- How many smaller neighbours of a symbol are in the upper class. -/
def above (upper : Symbol → Bool) (adjacencies : List Adjacency) (c : Symbol) : Nat :=
  adjacencies.countP fun x => x.larger == c && upper x.smaller

/-- How many smaller neighbours of a symbol are in the lower class. -/
def below (upper : Symbol → Bool) (adjacencies : List Adjacency) (c : Symbol) : Nat :=
  adjacencies.countP fun x => x.larger == c && !upper x.smaller

/-- Every symbol is in the class opposite to the majority of its smaller neighbours. -/
def IsGreedy (adjacencies : List Adjacency) (upper : Symbol → Bool) : Prop :=
  ∀ c, upper c = decide (above upper adjacencies c < below upper adjacencies c)

/-- In an adjacency of different symbols, the smaller one is smaller. -/
def Falls (adjacencies : List Adjacency) : Prop := ∀ x ∈ adjacencies, x.smaller < x.larger

/-- With opposite classes, the neighbours below are those above. -/
theorem below_eq_above (upper : Symbol → Bool) : below upper = above fun s => !upper s := rfl

theorem above_append (upper : Symbol → Bool) (xs ys : List Adjacency) (c : Symbol) :
    above upper (xs ++ ys) c = above upper xs c + above upper ys c := List.countP_append

theorem below_append (upper : Symbol → Bool) (xs ys : List Adjacency) (c : Symbol) :
    below upper (xs ++ ys) c = below upper xs c + below upper ys c := List.countP_append

theorem above_eq_zero {upper : Symbol → Bool} {xs : List Adjacency} {c : Symbol}
    (h : ∀ x ∈ xs, x.larger ≠ c) : above upper xs c = 0 := by
  rw [above, List.countP_eq_zero]
  intro x hx
  simp [h x hx]

theorem below_eq_zero {upper : Symbol → Bool} {xs : List Adjacency} {c : Symbol}
    (h : ∀ x ∈ xs, x.larger ≠ c) : below upper xs c = 0 := by
  rw [below_eq_above]
  exact above_eq_zero h

theorem above_congr {upper upper' : Symbol → Bool} {xs : List Adjacency} {c : Symbol}
    (h : ∀ x ∈ xs, upper x.smaller = upper' x.smaller) : above upper xs c = above upper' xs c := by
  apply List.countP_congr
  intro x hx
  rw [h x hx]

theorem below_congr {upper upper' : Symbol → Bool} {xs : List Adjacency} {c : Symbol}
    (h : ∀ x ∈ xs, upper x.smaller = upper' x.smaller) : below upper xs c = below upper' xs c := by
  rw [below_eq_above, below_eq_above]
  apply above_congr
  intro x hx
  rw [h x hx]

/-- Among neighbours of one symbol, all that are above count. -/
theorem above_eq_countP {group : List Adjacency} {c : Symbol} (same : ∀ y ∈ group, y.larger = c)
    (upper : Symbol → Bool) : above upper group c = group.countP fun y => upper y.smaller := by
  apply List.countP_congr
  intro y hy
  simp [same y hy]

theorem below_eq_countP {group : List Adjacency} {c : Symbol} (same : ∀ y ∈ group, y.larger = c)
    (upper : Symbol → Bool) : below upper group c = group.countP fun y => !upper y.smaller :=
  above_eq_countP same fun s => !upper s

theorem contains_insert_eq (upper : Std.TreeSet Symbol) (a c : Symbol) :
    (upper.insert a).contains c = (a == c || upper.contains c) := by
  rw [Std.TreeSet.contains_insert]
  congr 1
  rw [Bool.eq_iff_iff]
  simp

/-- Placing a group decides about its larger symbol and about no other one. -/
theorem contains_place (upper : Std.TreeSet Symbol) {x : Adjacency} {group : List Adjacency}
    (hx : x ∈ group) (same : ∀ y ∈ group, y.larger = x.larger) (c : Symbol) :
    (place upper group).contains c = (upper.contains c || (x.larger == c &&
      decide (above upper.contains group x.larger < below upper.contains group x.larger))) := by
  obtain ⟨y, rest, rfl⟩ := List.exists_cons_of_ne_nil (List.ne_nil_of_mem hx)
  have first : y.larger = x.larger := same y (by simp)
  rw [above_eq_countP same, below_eq_countP same, place]
  split
  · next more =>
      rw [contains_insert_eq, first, Bool.or_comm]
      simp [more]
  · next fewer => simp [fewer]

/-- The groups of the adjacencies with the same larger symbol, in ascending order of this symbol. -/
structure Grouped (groups : List (List Adjacency)) : Prop where
  ascending : groups.Pairwise (GroupBefore (· < ·) Adjacency.larger)
  nonempty : ∀ group ∈ groups, group ≠ []
  same : ∀ group ∈ groups, ∀ x ∈ group, ∀ y ∈ group, x.larger = y.larger
  falls : Falls groups.flatten

theorem Grouped.tail {group : List Adjacency} {groups : List (List Adjacency)}
    (h : Grouped (group :: groups)) : Grouped groups where
  ascending := (List.pairwise_cons.mp h.ascending).2
  nonempty other ho := h.nonempty other (List.mem_cons_of_mem group ho)
  same other ho := h.same other (List.mem_cons_of_mem group ho)
  falls x hx := h.falls x (List.mem_append_right group hx)

/-- The first group is the one of the smallest larger symbol. -/
theorem Grouped.head {group : List Adjacency} {groups : List (List Adjacency)}
    (h : Grouped (group :: groups)) : ∃ x ∈ group, (∀ y ∈ group, y.larger = x.larger) ∧
      (∀ y ∈ group, y.smaller < x.larger) ∧ ∀ y ∈ groups.flatten, x.larger < y.larger := by
  obtain ⟨x, hx⟩ := List.exists_mem_of_ne_nil group (h.nonempty group (by simp))
  have one : ∀ y ∈ group, y.larger = x.larger := fun y hy => h.same group (by simp) y hy x hx
  refine ⟨x, hx, one, ?_, ?_⟩
  · intro y hy
    rw [← one y hy]
    exact h.falls y (List.mem_append_left _ hy)
  · intro y hy
    obtain ⟨other, ho, hy⟩ := List.mem_flatten.mp hy
    exact ((List.pairwise_cons.mp h.ascending).1 other ho).lt x hx y hy

theorem grouped_splitBy {sorted : List Adjacency}
    (ascending : sorted.Pairwise fun x y => x.le y = true) (falls : Falls sorted) :
    Grouped (sorted.splitBy fun x y => x.larger == y.larger) := by
  have byKey : sorted.Pairwise fun x y => x.larger = y.larger ∨ x.larger < y.larger := by
    apply ascending.imp
    intro x y h
    rw [Adjacency.le_iff] at h
    rw [UInt32.lt_iff_toNat_lt, ← UInt32.toNat_inj]
    omega
  exact
    { ascending := pairwise_splitBy (fun _ _ _ => UInt32.lt_trans) byKey
      nonempty := fun _ hg => List.ne_nil_of_mem_splitBy hg
      same := fun _ hg _ hx _ hy => key_eq_of_mem_splitBy hg hx hy
      falls := (List.flatten_splitBy _ sorted).symm ▸ falls }

/-- One group after the other, in ascending order, every symbol is placed greedily. A symbol is
decided about when its group comes, and by then its smaller neighbours are. -/
theorem contains_foldl_place {groups : List (List Adjacency)} (h : Grouped groups)
    (start : Std.TreeSet Symbol)
    (undecided : ∀ x ∈ groups.flatten, start.contains x.larger = false) (c : Symbol) :
    (groups.foldl place start).contains c = (start.contains c ||
      decide (above (groups.foldl place start).contains groups.flatten c <
        below (groups.foldl place start).contains groups.flatten c)) := by
  induction groups generalizing start c with
  | nil => simp [above, below]
  | cons group groups ih =>
      obtain ⟨x, hx, one, smaller, later⟩ := h.head
      have placed := contains_place start hx one
      -- What remains is undecided after this group as well.
      have still : ∀ y ∈ groups.flatten, (place start group).contains y.larger = false := by
        intro y hy
        have differ : x.larger ≠ y.larger := UInt32.ne_of_lt (later y hy)
        rw [placed, undecided y (List.mem_append_right group hy)]
        simp [differ]
      have final := ih h.tail (place start group) still
      -- Below this group nothing changes any more.
      have settled : ∀ y ∈ group,
          (groups.foldl place (place start group)).contains y.smaller =
            start.contains y.smaller := by
        intro y hy
        have none : ∀ z ∈ groups.flatten, z.larger ≠ y.smaller := fun z hz =>
          (UInt32.ne_of_lt (UInt32.lt_trans (smaller y hy) (later z hz))).symm
        have differ : x.larger ≠ y.smaller := (UInt32.ne_of_lt (smaller y hy)).symm
        rw [final, above_eq_zero none, below_eq_zero none, placed]
        simp [differ]
      rw [List.foldl_cons, List.flatten_cons, above_append, below_append]
      by_cases here : x.larger = c
      · subst here
        have none : ∀ y ∈ groups.flatten, y.larger ≠ x.larger := fun y hy =>
          (UInt32.ne_of_lt (later y hy)).symm
        have bare : start.contains x.larger = false :=
          undecided x (List.mem_append_left _ hx)
        rw [above_eq_zero none, below_eq_zero none, above_congr settled, below_congr settled, final,
          above_eq_zero none, below_eq_zero none, placed, bare]
        simp
      · have none : ∀ y ∈ group, y.larger ≠ c := by
          intro y hy
          rwa [one y hy]
        rw [above_eq_zero none, below_eq_zero none, Nat.zero_add, Nat.zero_add, final, placed,
          beq_false_of_ne here, Bool.false_and, Bool.or_false]

/-- The upper class is the solution of the greedy condition. -/
theorem isGreedy_upperClass {sorted : List Adjacency}
    (ascending : sorted.Pairwise fun x y => x.le y = true) (falls : Falls sorted) :
    IsGreedy sorted (upperClass sorted).contains := by
  intro c
  have flat := List.flatten_splitBy (fun x y : Adjacency => x.larger == y.larger) sorted
  have placed := contains_foldl_place (grouped_splitBy ascending falls) ∅ (by simp) c
  rw [flat] at placed
  rw [upperClass, placed]
  simp

theorem IsGreedy.perm {xs ys : List Adjacency} {upper : Symbol → Bool} (h : IsGreedy xs upper)
    (p : xs.Perm ys) : IsGreedy ys upper := by
  intro c
  rw [h c, above, below, above, below, p.countP_eq, p.countP_eq]

end RunGrammar.Partition
