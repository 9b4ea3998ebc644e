import Mathlib
import RunGrammar.Text.CountingSort
import RunGrammar.Proofs.Text.RadixSort

/-!
# Counting finds the places

While the items are distributed, the buffer is made of buckets, one behind the
other, and each of them is made of the items that were written to it and of free
places (`layout`). The next free place of a bucket is the number of items before
the bucket and of those written to it. Writing an item there turns the first free
place of its bucket into the item. So every place is in the buffer, and
in the end it has the items of each bucket in order, which is what a pass of the
radix sort collects.

The passes go on while the largest key has a bit left, so they end when the keys
are sorted by all of their bytes. There is only one stable sort of some items,
hence both ways of distributing lead to the same answer.
-/

namespace RunGrammar

theorem countP_lt_succ {α : Type} (f : α → Nat) (items : List α) (n : Nat) :
    items.countP (f · < n + 1) = items.countP (f · < n) + items.countP (f · = n) := by
  induction items with
  | nil => rfl
  | cons x items ih =>
      simp only [List.countP_cons, decide_eq_true_eq, ih]
      split_ifs <;> omega

/-- What every step of a fold keeps, with the items before the step and those after it, holds in
the end. No step is refused. -/
theorem exists_foldlM_eq_some {α σ : Type} (Inv : List α → List α → σ → Prop)
    {f : σ → α → Option σ}
    (step : ∀ done x rest s, Inv done (x :: rest) s →
      ∃ s', f s x = some s' ∧ Inv (done ++ [x]) rest s')
    {done rest : List α} {s : σ} (start : Inv done rest s) :
    ∃ s', rest.foldlM f s = some s' ∧ Inv (done ++ rest) [] s' := by
  induction rest generalizing done s with
  | nil => exact ⟨s, rfl, by rwa [List.append_nil]⟩
  | cons x rest ih =>
      obtain ⟨s₁, first, inv⟩ := step done x rest s start
      obtain ⟨s₂, later, ended⟩ := ih inv
      refine ⟨s₂, ?_, by simpa using ended⟩
      rw [List.foldlM_cons, first]
      exact later

namespace RadixSort

variable {α : Type} {key : α → Nat} {items sorted : List α}

/-- There is only one stable sort of some items. -/
theorem StableSort.unique {other : List α} (h : StableSort key items sorted)
    (h' : StableSort key items other) : other = sorted := by
  -- Only the order of the two lists is needed, and what they have for each key.
  have same : ∀ k, other.filter (key · = k) = sorted.filter (key · = k) :=
    fun k => (h'.stable k).trans (h.stable k).symm
  have left := h'.ascending
  have right := h.ascending
  clear h h'
  induction other generalizing sorted with
  | nil =>
      cases sorted with
      | nil => rfl
      | cons y sorted => simpa using same (key y)
  | cons x other ih =>
      cases sorted with
      | nil => simpa using same (key x)
      | cons y sorted =>
          have le : ∀ {a b : α} {xs ys : List α}, (a :: xs).Pairwise (fun x y => key x ≤ key y) →
              (b :: ys).filter (key · = key b) = (a :: xs).filter (key · = key b) →
              key a ≤ key b := by
            intro a b xs ys ascending same
            have member : b ∈ (a :: xs).filter (key · = key b) := by
              rw [← same]
              simp
            obtain rfl | later := List.mem_cons.mp (List.mem_filter.mp member).1
            · exact Nat.le_refl _
            · exact (List.pairwise_cons.mp ascending).1 b later
          have keys : key x = key y :=
            Nat.le_antisymm (le left (same (key y)).symm) (le right (same (key x)))
          have heads := same (key x)
          simp only [List.filter_cons, keys, decide_true, if_true, List.cons.injEq] at heads
          obtain ⟨rfl, _⟩ := heads
          have rest : ∀ k, other.filter (key · = k) = sorted.filter (key · = k) := by
            intro k
            have tails := same k
            by_cases here : key x = k
            · simpa [here] using tails
            · simpa [here] using tails
          rw [ih rest left.of_cons right.of_cons]

end RadixSort

namespace CountingSort

open RadixSort (StableSort)

variable {α : Type} {bucketOf : α → Nat} {items done rest : List α} {x : α}

theorem put_of_lt {entries : Array α} {i : Nat} (h : i < entries.size) :
    put entries i x = some (entries.set i x h) := dif_pos h

/-! ### Counting -/

/-- The entry behind that of a bucket says how many of these items the bucket gets. -/
structure Counted (bucketOf : α → Nat) (items : List α) (counts : Array Nat) : Prop where
  size : counts.size = 257
  entry : ∀ i < 257, counts[i]? = some (items.countP (bucketOf · + 1 = i))

theorem Counted.tally (bounded : ∀ x, bucketOf x < 256) {counts : Array Nat}
    (h : Counted bucketOf items counts) (x : α) :
    ∃ counted, CountingSort.tally bucketOf counts x = some counted ∧
      Counted bucketOf (items ++ [x]) counted := by
  have inside : bucketOf x + 1 < 257 := Nat.succ_lt_succ (bounded x)
  have room : bucketOf x + 1 < counts.size := h.size ▸ inside
  have tallied : CountingSort.tally bucketOf counts x =
      some (counts.set (bucketOf x + 1)
        (items.countP (bucketOf · + 1 = bucketOf x + 1) + 1) room) := by
    simp only [CountingSort.tally, h.entry _ inside, Option.bind_eq_bind, Option.bind_some,
      put_of_lt room]
  refine ⟨_, tallied, by simp [h.size], ?_⟩
  intro i hi
  rw [Array.getElem?_set, h.entry i hi, List.countP_append, List.countP_singleton]
  obtain rfl | other := eq_or_ne (bucketOf x + 1) i
  · simp
  · simp [other]

theorem exists_count (bounded : ∀ x, bucketOf x < 256) (items : List α) :
    ∃ counts, count bucketOf items = some counts ∧ Counted bucketOf items counts := by
  have nothing : Counted bucketOf [] (Array.replicate 257 0) := ⟨by simp, fun i hi => by simp [hi]⟩
  exact exists_foldlM_eq_some (fun done _ counts => Counted bucketOf done counts)
    (fun _ x _ _ counted => counted.tally bounded x) nothing

/-- Up to this bucket, the entry of a bucket says how many of the items come before it. Behind it
the entries are counts of single buckets. -/
structure Accumulated (bucketOf : α → Nat) (items : List α) (last : Nat) (counts : Array Nat) :
    Prop where
  size : counts.size = 257
  done : ∀ b ≤ last, b < 257 → counts[b]? = some (items.countP (bucketOf · < b))
  left : ∀ i < 257, last < i → counts[i]? = some (items.countP (bucketOf · + 1 = i))

theorem Counted.accumulated {counts : Array Nat} (h : Counted bucketOf items counts) :
    Accumulated bucketOf items 0 counts where
  size := h.size
  done b none inside := by
    obtain rfl := Nat.le_zero.mp none
    simpa using h.entry 0 inside
  left i inside _ := h.entry i inside

theorem Accumulated.carry {last : Nat} {counts : Array Nat}
    (h : Accumulated bucketOf items last counts) (room : last + 1 < 257) :
    ∃ next, CountingSort.carry counts (last + 1) = some next ∧
      Accumulated bucketOf items (last + 1) next := by
  have inside : last + 1 < counts.size := h.size ▸ room
  have own := h.left _ room (Nat.lt_succ_self last)
  have before := h.done last (Nat.le_refl last) (Nat.lt_of_succ_lt room)
  have carried : CountingSort.carry counts (last + 1) =
      some (counts.set (last + 1)
        (items.countP (bucketOf · + 1 = last + 1) + items.countP (bucketOf · < last)) inside) := by
    simp only [CountingSort.carry, Nat.add_sub_cancel, own, before, Option.bind_eq_bind,
      Option.bind_some, put_of_lt inside]
  refine ⟨_, carried, by simp [h.size], ?_, ?_⟩
  · intro b upTo inTable
    rw [Array.getElem?_set]
    obtain rfl | other := eq_or_ne (last + 1) b
    · simp only [if_true, countP_lt_succ, Nat.add_right_cancel_iff, Nat.add_comm]
    · rw [if_neg other, h.done b (by omega) inTable]
  · intro i inTable beyond
    rw [Array.getElem?_set, if_neg (by omega), h.left i inTable (by omega)]

theorem exists_foldlM_carry {counts : Array Nat} (h : Counted bucketOf items counts) (last : Nat)
    (inside : last < 257) : ∃ starts, (List.range' 1 last).foldlM carry counts = some starts ∧
      Accumulated bucketOf items last starts := by
  induction last with
  | zero => exact ⟨counts, rfl, h.accumulated⟩
  | succ last ih =>
      obtain ⟨starts, done, accumulated⟩ := ih (Nat.lt_of_succ_lt inside)
      obtain ⟨next, carried, further⟩ := accumulated.carry inside
      refine ⟨next, ?_, further⟩
      rw [List.range'_1_concat, List.foldlM_append, done, Nat.add_comm 1 last]
      simpa using carried

/-! ### Writing -/

/-- What is in the buffer for one bucket: the items that were written, and the places for those that
are left. -/
def part (bucketOf : α → Nat) (free : α) (done rest : List α) (b : Nat) : List α :=
  done.filter (bucketOf · = b) ++ List.replicate (rest.countP (bucketOf · = b)) free

/-- What is in the buffer for the first `n` buckets. -/
def layout (bucketOf : α → Nat) (free : α) (done rest : List α) (n : Nat) : List α :=
  (List.range n).flatMap (part bucketOf free done rest)

variable {free : α} {n b : Nat}

theorem layout_succ (bucketOf : α → Nat) (free : α) (done rest : List α) (n : Nat) :
    layout bucketOf free done rest (n + 1) =
      layout bucketOf free done rest n ++ part bucketOf free done rest n := by
  rw [layout, List.range_succ, List.flatMap_append, List.flatMap_singleton, layout]

theorem length_part (bucketOf : α → Nat) (free : α) (done rest : List α) (b : Nat) :
    (part bucketOf free done rest b).length = (done ++ rest).countP (bucketOf · = b) := by
  rw [part, List.length_append, List.length_replicate, List.countP_append,
    ← List.countP_eq_length_filter]

theorem length_layout (bucketOf : α → Nat) (free : α) (done rest : List α) (n : Nat) :
    (layout bucketOf free done rest n).length = (done ++ rest).countP (bucketOf · < n) := by
  induction n with
  | zero => simp [layout]
  | succ n ih => rw [layout_succ, List.length_append, ih, length_part, countP_lt_succ]

/-- Writing an item does not matter to other buckets. -/
theorem part_of_ne (other : bucketOf x ≠ b) :
    part bucketOf free (done ++ [x]) rest b = part bucketOf free done (x :: rest) b := by
  simp [part, other]

/-- The first free place of a bucket gets the item. -/
theorem set_part (free : α) (done rest : List α) (x : α) :
    (part bucketOf free done (x :: rest) (bucketOf x)).set
      (done.countP (bucketOf · = bucketOf x)) x =
        part bucketOf free (done ++ [x]) rest (bucketOf x) := by
  simp [part, List.countP_eq_length_filter, List.replicate_succ]

theorem place_lt (done rest : List α) (inside : bucketOf x < n) :
    (done ++ x :: rest).countP (bucketOf · < bucketOf x) + done.countP (bucketOf · = bucketOf x) <
      (done ++ x :: rest).countP (bucketOf · < n) := by
  have upTo : (done ++ x :: rest).countP (bucketOf · < bucketOf x + 1) ≤
      (done ++ x :: rest).countP (bucketOf · < n) := by
    apply List.countP_mono_left
    intro y _ hy
    simp only [decide_eq_true_eq] at hy ⊢
    omega
  have own : done.countP (bucketOf · = bucketOf x) <
      (done ++ x :: rest).countP (bucketOf · = bucketOf x) := by
    simp only [List.countP_append, List.countP_cons, decide_true, if_true]
    omega
  rw [countP_lt_succ] at upTo
  omega

/-- Writing an item to the next free place of its bucket. -/
theorem set_layout (free : α) (inside : bucketOf x < n) :
    (layout bucketOf free done (x :: rest) n).set
      ((done ++ x :: rest).countP (bucketOf · < bucketOf x) +
        done.countP (bucketOf · = bucketOf x)) x =
      layout bucketOf free (done ++ [x]) rest n := by
  induction n with
  | zero => exact absurd inside (Nat.not_lt_zero _)
  | succ n ih =>
      rw [layout_succ, layout_succ]
      obtain earlier | last := Nat.lt_or_eq_of_le (Nat.le_of_lt_succ inside)
      · have place := place_lt done rest earlier
        rw [List.set_append_left _ _ (by rwa [length_layout]), ih earlier,
          part_of_ne (Nat.ne_of_lt earlier)]
      · subst last
        have before : layout bucketOf free (done ++ [x]) rest (bucketOf x) =
            layout bucketOf free done (x :: rest) (bucketOf x) := by
          apply List.flatMap_congr
          intro b hb
          exact part_of_ne (Nat.ne_of_gt (List.mem_range.mp hb))
        rw [List.set_append_right _ _ (by rw [length_layout]; omega), length_layout,
          Nat.add_sub_cancel_left, set_part, before]

/-- The places while `done` are written and `rest` is left. -/
structure Written (bucketOf : α → Nat) (free : α) (done rest : List α) (places : Places α) :
    Prop where
  size : places.next.size = 257
  next : ∀ b < 256, places.next[b]? =
    some ((done ++ rest).countP (bucketOf · < b) + done.countP (bucketOf · = b))
  buffer : places.buffer.toList = layout bucketOf free done rest 256

theorem Written.write (bounded : ∀ x, bucketOf x < 256) {places : Places α}
    (h : Written bucketOf free done (x :: rest) places) :
    ∃ places', CountingSort.write bucketOf places x = some places' ∧
      Written bucketOf free (done ++ [x]) rest places' := by
  have bucket := bounded x
  have inTable : bucketOf x < places.next.size := by
    have := h.size
    omega
  obtain ⟨place, is_place⟩ : ∃ place, place = (done ++ x :: rest).countP (bucketOf · < bucketOf x) +
      done.countP (bucketOf · = bucketOf x) := ⟨_, rfl⟩
  have inBuffer : place < places.buffer.size := by
    rw [is_place, ← Array.length_toList, h.buffer, length_layout]
    exact place_lt done rest bucket
  have found := h.next _ bucket
  rw [← is_place] at found
  have written : CountingSort.write bucketOf places x = some
      ⟨places.next.set (bucketOf x) (place + 1) inTable, places.buffer.set place x inBuffer⟩ := by
    simp only [CountingSort.write, found, Option.bind_eq_bind, Option.bind_some,
      put_of_lt inBuffer, put_of_lt inTable, Option.pure_def]
  refine ⟨_, written, by simp [h.size], ?_, ?_⟩
  · intro b hb
    have split : done ++ [x] ++ rest = done ++ x :: rest := by simp
    have more : (done ++ [x]).countP (bucketOf · = b) =
        done.countP (bucketOf · = b) + [x].countP (bucketOf · = b) := List.countP_append
    rw [Array.getElem?_set, split, more, List.countP_singleton]
    obtain rfl | other := eq_or_ne (bucketOf x) b
    · simp only [is_place, if_true, decide_true, Nat.add_assoc]
    · simp [other, h.next b hb]
  · rw [Array.toList_set, h.buffer, is_place, set_layout free bucket]

theorem exists_foldlM_write (bounded : ∀ x, bucketOf x < 256) {places : Places α}
    (h : Written bucketOf free [] items places) :
    ∃ written, items.foldlM (CountingSort.write bucketOf) places = some written ∧
      Written bucketOf free items [] written :=
  exists_foldlM_eq_some (Written bucketOf free) (fun _ _ _ _ written => written.write bounded) h

/-- The buffer is large enough for all buckets. -/
theorem layout_start (bounded : ∀ x, bucketOf x < 256) (free : α) (items : List α) :
    layout bucketOf free [] items 256 = List.replicate items.length free := by
  rw [List.eq_replicate_iff]
  constructor
  · rw [length_layout, List.nil_append, List.countP_eq_length]
    exact fun x _ => decide_eq_true (bounded x)
  · intro x hx
    obtain ⟨b, _, hx⟩ := List.mem_flatMap.mp hx
    have copy : (∃ y ∈ items, bucketOf y = b) ∧ x = free := by simpa [part] using hx
    exact copy.2

/-- In the end the buffer has the items of every bucket, and no free places. -/
theorem layout_end (bucketOf : α → Nat) (free : α) (items : List α) :
    layout bucketOf free items [] 256 = RadixSort.pass bucketOf items := by
  rw [RadixSort.pass_eq, layout]
  apply List.flatMap_congr
  intro b _
  simp [part]

/-- Counting distributes the items as buckets do, and no entry is missing on the way. -/
theorem pass_eq (bounded : ∀ x, bucketOf x < 256) (nonempty : items ≠ []) :
    pass bucketOf items = some (RadixSort.pass bucketOf items) := by
  obtain ⟨counts, counting, counted⟩ := exists_count bounded items
  obtain ⟨starts, adding, accumulated⟩ := exists_foldlM_carry counted 256 (by decide)
  obtain ⟨free, others, rfl⟩ := List.exists_cons_of_ne_nil nonempty
  have start : Written bucketOf free [] (free :: others)
      ⟨starts, Array.replicate (free :: others).length free⟩ := by
    refine ⟨accumulated.size, fun b hb => ?_, ?_⟩
    · simpa using accumulated.done b hb.le (by omega)
    · rw [layout_start bounded, Array.toList_replicate]
  obtain ⟨written, writing, filled⟩ := exists_foldlM_write bounded start
  simp only [pass, counting, accumulate, adding, List.head?_cons, writing, Option.bind_eq_bind,
    Option.bind_some, Option.pure_def, filled.buffer, layout_end]

/-! ### The passes -/

theorem shift_eq {shift : Nat} (inside : shift < 32) : (UInt32.ofNat shift).toNat % 32 = shift := by
  rw [UInt32.toNat_ofNat_of_lt' (Nat.lt_trans inside (by decide)), Nat.mod_eq_of_lt inside]

theorem digit_eq {shift : Nat} (inside : shift < 32) (k : UInt32) :
    digit shift k = k.toNat / 2 ^ shift % 256 := by
  have low : ∀ n, n &&& 255 = n % 256 := fun n => Nat.and_two_pow_sub_one_eq_mod n 8
  rw [digit, UInt32.toNat_and, UInt32.toNat_shiftRight, shift_eq inside,
    Nat.shiftRight_eq_div_pow]
  exact low _

/-- Where the largest key has no bit from a place on, no key has. -/
theorem lt_two_pow_of_not {largest k : UInt32} {shift : Nat} (le : k ≤ largest)
    (ended : ¬ (shift < 32 ∧ largest >>> UInt32.ofNat shift > 0)) : k.toNat < 2 ^ shift := by
  by_cases inside : shift < 32
  · have none : largest.toNat / 2 ^ shift = 0 := by
      have moved : (largest >>> UInt32.ofNat shift).toNat = largest.toNat / 2 ^ shift := by
        rw [UInt32.toNat_shiftRight, shift_eq inside, Nat.shiftRight_eq_div_pow]
      rw [← moved]
      by_contra some
      exact ended ⟨inside, UInt32.lt_iff_toNat_lt.mpr (Nat.pos_of_ne_zero some)⟩
    have small := (Nat.div_eq_zero_iff_lt (Nat.two_pow_pos shift)).mp none
    exact Nat.lt_of_le_of_lt (UInt32.le_iff_toNat_le.mp le) small
  · exact Nat.lt_of_lt_of_le k.toNat_lt (Nat.pow_le_pow_right (by decide) (Nat.not_lt.mp inside))

/-- Passes sort items on that are sorted by the bits of their keys below some place. -/
theorem exists_passes {key : α → UInt32} {largest : UInt32} {sorted : List α} {shift : Nat}
    (nonempty : items ≠ []) (most : ∀ x ∈ items, key x ≤ largest)
    (low : StableSort (fun x => (key x).toNat % 2 ^ shift) items sorted) :
    ∃ result, passes key largest shift sorted = some result ∧
      StableSort (fun x => (key x).toNat) items result := by
  fun_induction passes key largest shift sorted with
  | case1 shift sorted open' ih =>
      have bounded : ∀ x, digit shift (key x) < 256 := by
        intro x
        rw [digit_eq open'.1]
        exact Nat.mod_lt _ (by decide)
      have filled : sorted ≠ [] := by
        rintro rfl
        exact nonempty low.perm.nil_eq.symm
      have further := low.pass (Nat.two_pow_pos shift)
      have scale : 2 ^ (shift + 8) = 2 ^ shift * 256 := Nat.pow_add 2 shift 8
      rw [← scale] at further
      rw [pass_eq bounded filled]
      simp only [digit_eq open'.1]
      exact ih _ further
  | case2 shift sorted ended =>
      refine ⟨sorted, rfl, low.congr fun x hx => Nat.mod_eq_of_lt ?_⟩
      exact lt_two_pow_of_not (most x hx) ended

/-- The sort is answered, and it is the stable sort of the items. -/
theorem exists_sortByKey (key : α → UInt32) (items : List α) :
    ∃ sorted, sortByKey key items = some sorted ∧
      StableSort (fun x => (key x).toNat) items sorted := by
  unfold sortByKey
  split
  · next none =>
      obtain rfl : items = [] := by simpa using none
      exact ⟨[], rfl, .refl _, .nil, fun _ => rfl⟩
  · next largest found =>
      obtain ⟨member, most⟩ := List.max?_eq_some_iff.mp found
      have nonempty : items ≠ [] := by
        rintro rfl
        simp at member
      have unsorted : StableSort (fun x => (key x).toNat % 2 ^ 0) items items :=
        .refl_of_lt_one items fun x => by simp [Nat.mod_one]
      exact exists_passes nonempty (fun x hx => most _ (List.mem_map_of_mem hx)) unsorted

/-- Counting sorts as buckets do. -/
theorem sortByKey_eq (key : α → UInt32) (items : List α) :
    sortByKey key items = some (RadixSort.sortByKey key items) := by
  obtain ⟨sorted, answered, stable⟩ := exists_sortByKey key items
  rw [answered, (RadixSort.sortByKey_stableSort key items).unique stable]

end CountingSort

end RunGrammar
