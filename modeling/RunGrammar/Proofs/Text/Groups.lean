import Mathlib

/-!
# Neighbours with equal keys

Splitting a sequence where the keys of neighbours differ gives groups of one key
each. On a sorted sequence the keys of the groups are strictly ascending, so
every key has exactly one group, and that group holds all its items.
-/

namespace RunGrammar

/-- Two relations between neighbours hold together. -/
theorem isChain_and {α : Type} {R S : α → α → Prop} {xs : List α} (h : xs.IsChain R)
    (h' : xs.IsChain S) : xs.IsChain fun x y => R x y ∧ S x y := by
  induction h with
  | nil => exact .nil
  | singleton x => exact .singleton x
  | cons_cons first _ ih =>
      obtain ⟨second, rest⟩ := List.isChain_cons_cons.mp h'
      exact .cons_cons ⟨first, second⟩ (ih rest)

/-- Two items with equal keys. -/
def SameKey {α κ : Type} (key : α → κ) (x y : α) : Prop := key x = key y

instance {α κ : Type} (key : α → κ) : Trans (SameKey key) (SameKey key) (SameKey key) :=
  ⟨fun h h' => Eq.trans h h'⟩

instance {α κ : Type} (key : α → κ) : Std.Symm (SameKey key) := ⟨fun _ _ h => Eq.symm h⟩

/-- Two groups with everything in the first one before everything in the second one. -/
structure GroupBefore {α κ : Type} (lt : κ → κ → Prop) (key : α → κ) (a b : List α) : Prop where
  left : a ≠ []
  right : b ≠ []
  lt : ∀ x ∈ a, ∀ y ∈ b, lt (key x) (key y)

theorem GroupBefore.trans {α κ : Type} {lt : κ → κ → Prop} {key : α → κ}
    (lt_trans : ∀ i j k, lt i j → lt j k → lt i k)
    {a b c : List α} (h : GroupBefore lt key a b) (h' : GroupBefore lt key b c) :
    GroupBefore lt key a c := by
  refine ⟨h.left, h'.right, ?_⟩
  intro x hx y hy
  obtain ⟨z, hz⟩ := List.exists_mem_of_ne_nil b h.right
  exact lt_trans _ _ _ (h.lt x hx z hz) (h'.lt z hz y hy)

variable {α κ : Type} [BEq κ] [LawfulBEq κ] {key : α → κ} {xs group : List α}

theorem key_eq_of_mem_splitBy (hg : group ∈ xs.splitBy fun x y => key x == key y) {x y : α}
    (hx : x ∈ group) (hy : y ∈ group) : key x = key y := by
  have chain : group.IsChain (SameKey key) :=
    (List.isChain_of_mem_splitBy hg).imp fun _ _ h => eq_of_beq h
  have same := chain.pairwise.forall_of_forall (R := SameKey key) (fun _ _ => rfl)
  exact same hx hy

/-- Every group stands for the key of its first item. -/
theorem key_eq_head (hg : group ∈ xs.splitBy fun x y => key x == key y) {x : α}
    (hx : x ∈ group) : key x = key (group.head (List.ne_nil_of_mem hx)) :=
  key_eq_of_mem_splitBy hg hx (List.head_mem _)

/-- The keys of the groups of a sorted sequence are strictly ascending. -/
theorem pairwise_splitBy {lt : κ → κ → Prop} (lt_trans : ∀ i j k, lt i j → lt j k → lt i k)
    (sorted : xs.Pairwise fun x y => key x = key y ∨ lt (key x) (key y)) :
    (xs.splitBy fun x y => key x == key y).Pairwise (GroupBefore lt key) := by
  have across := sorted
  rw [← List.flatten_splitBy (fun x y => key x == key y) xs, List.pairwise_flatten] at across
  have chain := List.isChain_getLast_head_splitBy (fun x y => key x == key y) xs
  have joined : (xs.splitBy fun x y => key x == key y).IsChain (GroupBefore lt key) := by
    refine List.IsChain.imp_of_mem_imp ?_ (isChain_and chain across.2.isChain)
    rintro a b ha hb ⟨⟨hna, hnb, differ⟩, ordered⟩
    refine ⟨hna, hnb, ?_⟩
    intro x hx y hy
    have hx' : key x = key (a.getLast hna) := key_eq_of_mem_splitBy ha hx (List.getLast_mem hna)
    have hy' : key y = key (b.head hnb) := key_eq_of_mem_splitBy hb hy (List.head_mem hnb)
    obtain same | before := ordered x hx y hy
    · rw [hx', hy'] at same
      simp [same] at differ
    · exact before
  have : Trans (GroupBefore lt key) (GroupBefore lt key) (GroupBefore lt key) :=
    ⟨GroupBefore.trans lt_trans⟩
  exact joined.pairwise

/-! ### One group for every key -/

/-- In a list of groups in order, two groups are the same or one is before the other. -/
theorem eq_or_before_of_mem {R : List α → List α → Prop} {groups : List (List α)}
    (ordered : groups.Pairwise R) {a b : List α} (ha : a ∈ groups) (hb : b ∈ groups) :
    a = b ∨ R a b ∨ R b a := by
  obtain ⟨i, hi, rfl⟩ := List.mem_iff_getElem.mp ha
  obtain ⟨j, hj, rfl⟩ := List.mem_iff_getElem.mp hb
  obtain before | same | after := Nat.lt_trichotomy i j
  · exact .inr (.inl (List.pairwise_iff_getElem.mp ordered i j hi hj before))
  · subst same
    exact .inl rfl
  · exact .inr (.inr (List.pairwise_iff_getElem.mp ordered j i hj hi after))

/-- A group of a sorted sequence holds all items with its key. -/
theorem mem_group_iff {lt : κ → κ → Prop} (lt_irrefl : ∀ i, ¬ lt i i)
    (lt_trans : ∀ i j k, lt i j → lt j k → lt i k)
    (sorted : xs.Pairwise fun x y => key x = key y ∨ lt (key x) (key y))
    (hg : group ∈ xs.splitBy fun x y => key x == key y) {x y : α} (hx : x ∈ group) :
    y ∈ group ↔ y ∈ xs ∧ key y = key x := by
  have flat := List.flatten_splitBy (fun x y => key x == key y) xs
  constructor
  · intro hy
    refine ⟨?_, key_eq_of_mem_splitBy hg hy hx⟩
    rw [← flat]
    exact List.mem_flatten_of_mem hg hy
  · rintro ⟨hy, same⟩
    rw [← flat] at hy
    obtain ⟨other, ho, hy⟩ := List.mem_flatten.mp hy
    obtain rfl | before | after := eq_or_before_of_mem (pairwise_splitBy lt_trans sorted) hg ho
    · exact hy
    · exact absurd (same ▸ before.lt x hx y hy) (lt_irrefl _)
    · exact absurd (same ▸ after.lt y hy x hx) (lt_irrefl _)

/-- The keys of groups, in order. -/
def groupKeys (key : α → κ) (groups : List (List α)) : List κ :=
  groups.filterMap fun group => group.head?.map key

theorem mem_groupKeys_splitBy {k : κ} :
    k ∈ groupKeys key (xs.splitBy fun x y => key x == key y) ↔ ∃ x ∈ xs, key x = k := by
  have flat := List.flatten_splitBy (fun x y => key x == key y) xs
  rw [groupKeys, List.mem_filterMap]
  constructor
  · rintro ⟨group, hg, found⟩
    obtain ⟨x, head, rfl⟩ := Option.map_eq_some_iff.mp found
    refine ⟨x, ?_, rfl⟩
    rw [← flat]
    exact List.mem_flatten_of_mem hg (List.mem_of_head? head)
  · rintro ⟨x, hx, rfl⟩
    rw [← flat] at hx
    obtain ⟨group, hg, hx⟩ := List.mem_flatten.mp hx
    refine ⟨group, hg, ?_⟩
    rw [List.head?_eq_some_head (List.ne_nil_of_mem hx), Option.map_some, ← key_eq_head hg hx]

omit [BEq κ] [LawfulBEq κ] in
theorem pairwise_groupKeys {lt : κ → κ → Prop} {groups : List (List α)}
    (ordered : groups.Pairwise (GroupBefore lt key)) : (groupKeys key groups).Pairwise lt := by
  apply ordered.filterMap _
  intro a b before k hk l hl
  obtain ⟨x, hx, rfl⟩ := Option.map_eq_some_iff.mp hk
  obtain ⟨y, hy, rfl⟩ := Option.map_eq_some_iff.mp hl
  exact before.lt x (List.mem_of_head? hx) y (List.mem_of_head? hy)

end RunGrammar
