import Mathlib
import RunGrammar.Text.RadixSort
import RunGrammar.Proofs.Text.Largest

/-!
# The radix sort is a stable sort

One pass collects the buckets in ascending order, and each bucket in the order
in which its items came. After the passes for the places below `j` the items
are stably sorted by their keys modulo `256 ^ j`: a further pass sorts by the
next byte and falls back on what is there already. The places end where no key
has a byte any more, so the remainder is the key itself.
-/

namespace RunGrammar.RadixSort

variable {α : Type}

/-- The same items in ascending order of their keys, with equal keys in their old order. -/
structure StableSort (key : α → Nat) (items sorted : List α) : Prop where
  perm : sorted.Perm items
  ascending : sorted.Pairwise fun x y => key x ≤ key y
  stable : ∀ k, sorted.filter (key · = k) = items.filter (key · = k)

theorem StableSort.refl_of_lt_one {key : α → Nat} (items : List α) (h : ∀ x, key x < 1) :
    StableSort key items items := by
  refine ⟨List.Perm.refl items, ?_, fun _ => rfl⟩
  apply List.pairwise_of_forall
  intro x y
  have := h x
  omega

theorem StableSort.congr {key key' : α → Nat} {items sorted : List α}
    (h : StableSort key items sorted) (same : ∀ x ∈ items, key x = key' x) :
    StableSort key' items sorted := by
  have inside : ∀ x ∈ sorted, key x = key' x := fun x hx => same x (h.perm.mem_iff.mp hx)
  refine ⟨h.perm, ?_, ?_⟩
  · apply h.ascending.imp_of_mem
    intro x y hx hy le
    rwa [← inside x hx, ← inside y hy]
  · intro k
    have left : sorted.filter (key' · = k) = sorted.filter (key · = k) :=
      List.filter_congr fun x hx => by rw [inside x hx]
    have right : items.filter (key' · = k) = items.filter (key · = k) :=
      List.filter_congr fun x hx => by rw [same x hx]
    rw [left, right, h.stable]

/-! ### One pass -/

theorem getElem?_distribute_from (bucketOf : α → Nat) (items : List α) (buckets : Array (Array α))
    (b : Nat) :
    (items.foldl (fun buckets x => buckets.modify (bucketOf x) (·.push x)) buckets)[b]? =
      buckets[b]?.map (· ++ (items.filter (bucketOf · = b)).toArray) := by
  induction items generalizing buckets with
  | nil => simp
  | cons x items ih =>
      rw [List.foldl_cons, ih, Array.getElem?_modify]
      by_cases here : bucketOf x = b
      · simp only [here, if_true, Option.map_map, List.filter_cons, decide_true]
        congr 1
        funext bucket
        apply Array.ext'
        simp
      · simp [here]

theorem distribute_eq (bucketOf : α → Nat) (items : List α) :
    (distribute bucketOf items).toList =
      (List.range 256).map fun b => (items.filter (bucketOf · = b)).toArray := by
  apply List.ext_getElem?
  intro b
  rw [Array.getElem?_toList, distribute, getElem?_distribute_from, List.getElem?_map]
  by_cases inside : b < 256
  · simp [inside]
  · simp [inside]

/-- A pass collects the items of each bucket, lowest bucket first. -/
theorem pass_eq (bucketOf : α → Nat) (items : List α) :
    pass bucketOf items = (List.range 256).flatMap fun b => items.filter (bucketOf · = b) := by
  rw [pass, distribute_eq, List.flatMap_map]

theorem buckets_perm (bucketOf : α → Nat) (items : List α) (n : Nat) :
    ((List.range n).flatMap fun b => items.filter (bucketOf · = b)).Perm
      (items.filter (bucketOf · < n)) := by
  induction n with
  | zero => simp
  | succ n ih =>
      rw [List.range_succ, List.flatMap_append, List.flatMap_singleton]
      have split := List.filter_append_perm (fun x => bucketOf x < n)
        (items.filter (bucketOf · < n + 1))
      rw [List.filter_filter, List.filter_filter] at split
      have low : items.filter (fun x => decide (bucketOf x < n) && decide (bucketOf x < n + 1)) =
          items.filter (bucketOf · < n) := by
        apply List.filter_congr
        intro x _
        rw [← Bool.decide_and]
        exact decide_eq_decide.mpr (by omega)
      have high : items.filter
          (fun x => (!decide (bucketOf x < n)) && decide (bucketOf x < n + 1)) =
          items.filter (bucketOf · = n) := by
        apply List.filter_congr
        intro x _
        rw [← decide_not, ← Bool.decide_and]
        exact decide_eq_decide.mpr (by omega)
      rw [low, high] at split
      exact (ih.append_right _).trans split

/-- Only one index contributes to a concatenation. -/
theorem flatMap_range_eq_single {n c : Nat} (hc : c < n) (f : Nat → List α)
    (others : ∀ b, b ≠ c → f b = []) : (List.range n).flatMap f = f c := by
  induction n with
  | zero => exact absurd hc (Nat.not_lt_zero c)
  | succ n ih =>
      rw [List.range_succ, List.flatMap_append, List.flatMap_singleton]
      by_cases last : c = n
      · subst last
        have before : (List.range c).flatMap f = [] := by
          rw [List.flatMap_eq_nil_iff]
          intro b hb
          exact others b (Nat.ne_of_lt (List.mem_range.mp hb))
        rw [before, List.nil_append]
      · rw [ih (by omega), others n (fun h => last h.symm), List.append_nil]

theorem perm_pass {bucketOf : α → Nat} (bounded : ∀ x, bucketOf x < 256) (items : List α) :
    (pass bucketOf items).Perm items := by
  have collected := buckets_perm bucketOf items 256
  have all : items.filter (bucketOf · < 256) = items := by
    rw [List.filter_eq_self]
    intro x _
    exact decide_eq_true (bounded x)
  rwa [all, ← pass_eq] at collected

/-- A pass orders the items of different buckets, and keeps the order inside a bucket. -/
theorem pairwise_pass {bucketOf : α → Nat} {items : List α} {R : α → α → Prop}
    (inside : items.Pairwise fun x y => bucketOf x = bucketOf y → R x y)
    (across : ∀ x y, bucketOf x < bucketOf y → R x y) : (pass bucketOf items).Pairwise R := by
  have bucket : ∀ {b x}, x ∈ items.filter (bucketOf · = b) → bucketOf x = b := by
    intro b x hx
    exact of_decide_eq_true (List.mem_filter.mp hx).2
  rw [pass_eq, List.pairwise_flatMap]
  constructor
  · intro b _
    apply (inside.filter _).imp_of_mem
    intro x y hx hy ordered
    exact ordered ((bucket hx).trans (bucket hy).symm)
  · apply List.pairwise_lt_range.imp
    intro b c before x hx y hy
    apply across
    rwa [bucket hx, bucket hy]

/-- A pass keeps the order of the items that agree on their bucket. -/
theorem filter_pass {bucketOf : α → Nat} (bounded : ∀ x, bucketOf x < 256) (items : List α)
    {p : α → Bool} {c : Nat} (same : ∀ x, p x = true → bucketOf x = c) :
    (pass bucketOf items).filter p = items.filter p := by
  have elsewhere : ∀ b, b ≠ c → (items.filter (bucketOf · = b)).filter p = [] := by
    intro b hb
    rw [List.filter_filter, List.filter_eq_nil_iff]
    intro x _ hx
    rw [Bool.and_eq_true, decide_eq_true_eq] at hx
    exact hb (hx.2.symm.trans (same x hx.1))
  have here : (items.filter (bucketOf · = c)).filter p = items.filter p := by
    rw [List.filter_filter]
    apply List.filter_congr
    intro x _
    rw [Bool.and_eq_left_iff_imp]
    intro hx
    exact decide_eq_true (same x hx)
  rw [pass_eq, List.filter_flatMap]
  by_cases hc : c < 256
  · rw [flatMap_range_eq_single hc _ elsewhere, here]
  · have none : items.filter p = [] := by
      rw [List.filter_eq_nil_iff]
      intro x _ hx
      exact hc (same x hx ▸ bounded x)
    rw [none, List.flatMap_eq_nil_iff]
    intro b hb
    exact elsewhere b fun h => hc (h ▸ List.mem_range.mp hb)

/-- A remainder determines the next digit and the remainder below it. -/
theorem mod_mul_eq_iff {m x k : Nat} (hm : 0 < m) :
    x % (m * 256) = k ↔ x % m = k % m ∧ x / m % 256 = k / m := by
  have digits : x % (m * 256) = x % m + m * (x / m % 256) := Nat.mod_mul
  rw [digits]
  constructor
  · rintro rfl
    constructor
    · rw [Nat.add_mul_mod_self_left, Nat.mod_mod]
    · rw [Nat.add_mul_div_left _ _ hm, Nat.div_eq_of_lt (Nat.mod_lt x hm), Nat.zero_add]
  · rintro ⟨low, high⟩
    rw [low, high, Nat.mod_add_div]

theorem mod_mul_lt_of_digit_lt {m x y : Nat} (hm : 0 < m) (h : x / m % 256 < y / m % 256) :
    x % (m * 256) < y % (m * 256) := by
  have low : x % m < m := Nat.mod_lt x hm
  have step : m * (x / m % 256) + m ≤ m * (y / m % 256) := by
    rw [← Nat.mul_succ]
    exact Nat.mul_le_mul_left m h
  rw [Nat.mod_mul, Nat.mod_mul]
  omega

/-- Sorting by the next digit turns a stable sort by the lower digits into one by all of them. -/
theorem StableSort.pass {key : α → Nat} {items sorted : List α} {m : Nat} (hm : 0 < m)
    (h : StableSort (fun x => key x % m) items sorted) :
    StableSort (fun x => key x % (m * 256)) items
      (RadixSort.pass (fun x => key x / m % 256) sorted) := by
  have bounded : ∀ x, key x / m % 256 < 256 := by
    intro x
    exact Nat.mod_lt _ (by decide)
  refine ⟨?_, ?_, ?_⟩
  · exact (perm_pass bounded sorted).trans h.perm
  · apply pairwise_pass
    · apply h.ascending.imp
      intro x y le digit
      rw [Nat.mod_mul, Nat.mod_mul, digit]
      exact Nat.add_le_add_right le _
    · intro x y digit
      exact Nat.le_of_lt (mod_mul_lt_of_digit_lt hm digit)
  · intro k
    have narrow : ∀ xs : List α, xs.filter (fun x => key x % (m * 256) = k) =
        (xs.filter (fun x => key x % m = k % m)).filter (fun x => key x / m % 256 = k / m) := by
      intro xs
      rw [List.filter_filter]
      apply List.filter_congr
      intro x _
      rw [← Bool.decide_and]
      exact decide_eq_decide.mpr ((mod_mul_eq_iff hm).trans and_comm)
    have kept : (RadixSort.pass (fun x => key x / m % 256) sorted).filter
        (fun x => key x % (m * 256) = k) = sorted.filter (fun x => key x % (m * 256) = k) := by
      apply filter_pass bounded
      intro x hx
      exact ((mod_mul_eq_iff hm).mp (of_decide_eq_true hx)).2
    rw [kept, narrow, narrow, h.stable]

/-! ### All passes -/

theorem byteAt_eq (place : Nat) (key : UInt32) :
    byteAt place key = key.toNat / 256 ^ place % 256 := by
  rw [byteAt, Nat.shiftRight_eq_div_pow, Nat.pow_mul]

theorem foldl_pass_stableSort (key : α → UInt32) (items : List α) (n : Nat) :
    StableSort (fun x => (key x).toNat % 256 ^ n) items
      ((List.range n).foldl (fun sorted place => pass (fun x => byteAt place (key x)) sorted)
        items) := by
  induction n with
  | zero => exact StableSort.refl_of_lt_one items fun x => by simp [Nat.mod_one]
  | succ n ih =>
      rw [List.range_succ, List.foldl_append, List.foldl_cons, List.foldl_nil, Nat.pow_succ]
      simp only [byteAt_eq]
      simp only [byteAt_eq] at ih
      exact ih.pass (Nat.pow_pos (by decide))

/-- The places end where no key has a byte any more. -/
theorem places_eq_range {largest : Nat} (h : largest < 2 ^ 32) :
    ∃ n, places largest = List.range n ∧ largest < 256 ^ n := by
  have test : ∀ place, decide (0 < largest >>> (8 * place)) = decide (256 ^ place ≤ largest) := by
    intro place
    rw [Nat.shiftRight_eq_div_pow, Nat.pow_mul]
    exact decide_eq_decide.mpr ((Nat.div_pos_iff).trans (and_iff_right (Nat.pow_pos (by decide))))
  have four : List.range 4 = [0, 1, 2, 3] := rfl
  simp only [places, test, four, List.takeWhile_cons, List.takeWhile_nil, decide_eq_true_eq]
  by_cases h0 : 256 ^ 0 ≤ largest
  · by_cases h1 : 256 ^ 1 ≤ largest
    · by_cases h2 : 256 ^ 2 ≤ largest
      · by_cases h3 : 256 ^ 3 ≤ largest
        · exact ⟨4, by rw [if_pos h0, if_pos h1, if_pos h2, if_pos h3]; rfl, h⟩
        · exact ⟨3, by rw [if_pos h0, if_pos h1, if_pos h2, if_neg h3]; rfl, Nat.not_le.mp h3⟩
      · exact ⟨2, by rw [if_pos h0, if_pos h1, if_neg h2]; rfl, Nat.not_le.mp h2⟩
    · exact ⟨1, by rw [if_pos h0, if_neg h1]; rfl, Nat.not_le.mp h1⟩
  · exact ⟨0, by rw [if_neg h0]; rfl, Nat.not_le.mp h0⟩

/-- The sort returns the items in ascending order of their keys and keeps the order among items
with equal keys. -/
theorem sortByKey_stableSort (key : α → UInt32) (items : List α) :
    StableSort (fun x => (key x).toNat) items (sortByKey key items) := by
  have bounded : items.foldl (fun bound x => max bound (key x).toNat) 0 < 2 ^ 32 := by
    have most := (foldl_max_le_iff (fun x => (key x).toNat) items 0 (2 ^ 32 - 1)).mpr
      ⟨Nat.zero_le _, fun x _ => Nat.le_sub_one_of_lt (key x).toNat_lt⟩
    omega
  obtain ⟨n, range, covers⟩ := places_eq_range bounded
  have sorted := foldl_pass_stableSort key items n
  rw [← range] at sorted
  apply sorted.congr
  intro x hx
  apply Nat.mod_eq_of_lt
  exact Nat.lt_of_le_of_lt (le_foldl_max (fun x => (key x).toNat) 0 hx) covers

end RunGrammar.RadixSort
