import Mathlib
import RunGrammar.Partition.Table
import RunGrammar.Proofs.Partition.Invariance
import RunGrammar.Proofs.Text.Sharing

/-!
# The table of a partition

A table has the classes of the partition for all symbols of its range, and the
range has all symbols of the text. While the groups of adjacencies are placed,
table and upper class agree on that range (`Agrees`): a group reads the entries
of smaller symbols, and it writes one entry, that of a symbol which has not been
decided about.

Neither the range nor the entries nor the direction depend on how threads share the
work (`ofTextIn_eq`). Every reduction finds the extremes of the text, the sorts
agree, and every two neighbours are counted in one chunk.
-/

namespace RunGrammar

/-! ### The range -/

namespace Text

theorem foldl_widen (text : Text) (low high : Symbol) :
    text.foldl widen (some (low, high)) = some (text.foldl min low, text.foldl max high) := by
  induction text generalizing low high with
  | nil => rfl
  | cons c rest ih => exact ih (min low c) (max high c)

theorem bounds_eq (text : Text) : text.bounds = (text.min?.getD 0, text.max?.getD 0) := by
  cases text with
  | nil => rfl
  | cons c rest =>
      rw [bounds, List.foldl_cons, widen, foldl_widen]
      rfl

/-- Every symbol of a text is between its bounds. -/
theorem bounds_le {text : Text} {c : Symbol} (hc : c ∈ text) :
    text.bounds.1 ≤ c ∧ c ≤ text.bounds.2 := by
  have nonempty : text ≠ [] := List.ne_nil_of_mem hc
  obtain ⟨low, hlow⟩ := Option.ne_none_iff_exists'.mp (mt List.min?_eq_none_iff.mp nonempty)
  obtain ⟨high, hhigh⟩ := Option.ne_none_iff_exists'.mp (mt List.max?_eq_none_iff.mp nonempty)
  simp only [bounds_eq, hlow, hhigh, Option.getD_some]
  exact ⟨(List.min?_eq_some_iff.mp hlow).2 c hc, (List.max?_eq_some_iff.mp hhigh).2 c hc⟩

theorem bounds_fst_le_snd (text : Text) : text.bounds.1 ≤ text.bounds.2 := by
  cases text with
  | nil => exact UInt32.le_refl 0
  | cons c rest =>
      have first : c ∈ c :: rest := List.mem_cons_self
      exact UInt32.le_trans (bounds_le first).1 (bounds_le first).2

/-- All reductions find these bounds. -/
theorem boundsIn_eq (least : Reducer (Option.merge (min : Symbol → Symbol → Symbol)) none)
    (greatest : Reducer (Option.merge (max : Symbol → Symbol → Symbol)) none) (text : Text) :
    text.boundsIn least greatest = text.bounds := by
  rw [boundsIn, least.reduce_eq, greatest.reduce_eq, bounds_eq]
  cases text with
  | nil => rfl
  | cons c rest =>
      have low := foldl_merge_some (min : Symbol → Symbol → Symbol) c rest
      have high := foldl_merge_some (max : Symbol → Symbol → Symbol) c rest
      simp only [List.map_cons, List.foldl_cons, Option.merge_none_left, low, high]
      rfl

end Text

namespace ClassTable

/-! ### The entries -/

theorem index_inj {low a b : Symbol} (ha : low ≤ a) (hb : low ≤ b)
    (same : index low a = index low b) : a = b := by
  rw [UInt32.le_iff_toNat_le] at ha hb
  unfold index at same
  exact UInt32.toNat_inj.mp (by omega)

theorem index_lt {low high c : Symbol} (hc : c ≤ high) : index low c < index low high + 1 := by
  rw [UInt32.le_iff_toNat_le] at hc
  unfold index
  omega

/-- From `low` to `high`, the entries say which symbols are in the upper class. -/
structure Agrees (low high : Symbol) (sides : Array Bool) (upper : Std.TreeSet Symbol) :
    Prop where
  size : sides.size = index low high + 1
  side : ∀ c, low ≤ c → c ≤ high → sideIn low sides c = upper.contains c

theorem agrees_start (low high : Symbol) :
    Agrees low high (Array.replicate (index low high + 1) false) ∅ where
  size := Array.size_replicate
  side c _ _ := by simp [sideIn, Array.getD]

theorem sideIn_setIfInBounds {low high a : Symbol} {sides : Array Bool}
    (size : sides.size = index low high + 1) (ha : low ≤ a ∧ a ≤ high) (side : Bool) {c : Symbol}
    (hc : low ≤ c) : sideIn low (sides.setIfInBounds (index low a) side) c =
      if a = c then side else sideIn low sides c := by
  have inside : index low a < sides.size := size ▸ index_lt ha.2
  simp only [sideIn, Array.getD_eq_getD_getElem?, Array.getElem?_setIfInBounds, inside]
  by_cases same : a = c
  · simp [same]
  · have differ : index low a ≠ index low c := fun h => same (index_inj ha.1 hc h)
    simp [same, differ]

/-- A group is placed alike in the table and in the upper class. Its larger symbol is in the lower
class before, so the entry that is written needs to be compared with the decision only. -/
theorem Agrees.place {low high : Symbol} {sides : Array Bool} {upper : Std.TreeSet Symbol}
    (h : Agrees low high sides upper) {x : Adjacency} {group : List Adjacency} (hx : x ∈ group)
    (one : ∀ y ∈ group, y.larger = x.larger) (inside : low ≤ x.larger ∧ x.larger ≤ high)
    (below : ∀ y ∈ group, low ≤ y.smaller ∧ y.smaller ≤ high)
    (undecided : upper.contains x.larger = false) :
    Agrees low high (ClassTable.place low sides group) (Partition.place upper group) := by
  have same : ∀ y ∈ group, sideIn low sides y.smaller = upper.contains y.smaller :=
    fun y hy => h.side y.smaller (below y hy).1 (below y hy).2
  have written : ClassTable.place low sides group =
      sides.setIfInBounds (index low x.larger)
        (decide (Partition.above (sideIn low sides) group x.larger <
          Partition.below (sideIn low sides) group x.larger)) := by
    rw [Partition.above_eq_countP one, Partition.below_eq_countP one]
    obtain ⟨y, rest, rfl⟩ := List.exists_cons_of_ne_nil (List.ne_nil_of_mem hx)
    rw [← one y List.mem_cons_self]
    rfl
  constructor
  · rw [written, Array.size_setIfInBounds, h.size]
  · intro c hlow hhigh
    rw [written, sideIn_setIfInBounds h.size inside _ hlow, Partition.contains_place upper hx one,
      Partition.above_congr same, Partition.below_congr same]
    by_cases here : x.larger = c
    · subst here
      simp [undecided]
    · simp [here, h.side c hlow hhigh]

/-- The table agrees with the upper class group by group. -/
theorem Agrees.foldl_place {low high : Symbol} {groups : List (List Adjacency)}
    (grouped : Partition.Grouped groups)
    (inside : ∀ x ∈ groups.flatten,
      (low ≤ x.larger ∧ x.larger ≤ high) ∧ (low ≤ x.smaller ∧ x.smaller ≤ high))
    {sides : Array Bool} {upper : Std.TreeSet Symbol} (h : Agrees low high sides upper)
    (undecided : ∀ x ∈ groups.flatten, upper.contains x.larger = false) :
    Agrees low high (groups.foldl (ClassTable.place low) sides)
      (groups.foldl Partition.place upper) := by
  induction groups generalizing sides upper with
  | nil => exact h
  | cons group groups ih =>
      obtain ⟨x, hx, one, _, later⟩ := grouped.head
      have first : ∀ y ∈ group, y ∈ (group :: groups).flatten :=
        fun y hy => List.mem_append_left _ hy
      have rest : ∀ y ∈ groups.flatten, y ∈ (group :: groups).flatten :=
        fun y hy => List.mem_append_right _ hy
      refine ih grouped.tail (fun y hy => inside y (rest y hy))
        (h.place hx one (inside x (first x hx)).1 (fun y hy => (inside y (first y hy)).2)
          (undecided x (first x hx))) ?_
      intro y hy
      have differ : x.larger ≠ y.larger := UInt32.ne_of_lt (later y hy)
      rw [Partition.contains_place upper hx one, undecided y (rest y hy)]
      simp [differ]

theorem agrees_fill {low high : Symbol} {sorted : List Adjacency}
    (ascending : sorted.Pairwise fun x y => x.le y = true) (falls : Partition.Falls sorted)
    (inside : ∀ x ∈ sorted,
      (low ≤ x.larger ∧ x.larger ≤ high) ∧ (low ≤ x.smaller ∧ x.smaller ≤ high)) :
    Agrees low high (fill low high sorted) (Partition.upperClass sorted) := by
  refine (agrees_start low high).foldl_place (Partition.grouped_splitBy ascending falls) ?_
    (by simp)
  rwa [List.flatten_splitBy]

/-- The sorted adjacencies of a text have symbols of the text only. -/
theorem agrees_ofText {text : Text} (distinct : text.Distinct) :
    Agrees (ofText text).offset text.bounds.2 (ofText text).sides
      (Partition.ofText text).upper := by
  have perm := Adjacency.sort_perm (Adjacency.ofText text)
  refine agrees_fill (Adjacency.sort_ascending _)
    (fun x hx => Adjacency.falls_ofText distinct x (perm.mem_iff.mp hx)) ?_
  intro x hx
  obtain ⟨larger, smaller⟩ := Adjacency.symbols_mem_of_mem_ofText (perm.mem_iff.mp hx)
  exact ⟨Text.bounds_le larger, Text.bounds_le smaller⟩

/-- With the same classes for the symbols of a text, the crossings are the same. -/
theorem crossings_eq {low : Symbol} {sides : Array Bool} {upper : Std.TreeSet Symbol} {text : Text}
    (same : ∀ c ∈ text, sideIn low sides c = upper.contains c) :
    crossings low sides text = Partition.Crossings.ofText upper text := by
  have inside : ∀ x ∈ text.zip text.tail, x.1 ∈ text ∧ x.2 ∈ text := fun x hx =>
    ⟨(List.of_mem_zip hx).1, List.mem_of_mem_tail (List.of_mem_zip hx).2⟩
  simp only [crossings, Partition.Crossings.ofText_eq, Partition.Crossings.ofNeighbours,
    Partition.Crossings.mk.injEq]
  constructor <;>
  · apply List.countP_congr
    intro x hx
    simp only [same _ (inside x hx).1, same _ (inside x hx).2]

/-! ### The table and the partition -/

/-- A table with an entry for every symbol of a text. Its entries are the classes of a partition,
and the left class is that of the partition, too. -/
structure Tabulates (t : ClassTable) (p : Partition) (text : Text) : Prop where
  entry : ∀ c ∈ text, t.offset ≤ c ∧ index t.offset c < t.sides.size
  isUpper_eq : ∀ c, t.offset ≤ c → index t.offset c < t.sides.size → t.isUpper c = p.isUpper c
  leftIsUpper_eq : t.leftIsUpper = p.leftIsUpper

theorem Tabulates.eligible_eq {t : ClassTable} {p : Partition} {text : Text}
    (h : t.Tabulates p text) {a b : Symbol} (ha : a ∈ text) (hb : b ∈ text) :
    t.eligible a b = p.eligible a b := by
  have sideA := h.isUpper_eq a (h.entry a ha).1 (h.entry a ha).2
  have sideB := h.isUpper_eq b (h.entry b hb).1 (h.entry b hb).2
  simp only [eligible, Partition.eligible, Partition.isLeft, sideA, sideB, h.leftIsUpper_eq]

theorem tabulates_ofText {text : Text} (distinct : text.Distinct) :
    (ofText text).Tabulates (Partition.ofText text) text := by
  have agrees := agrees_ofText distinct
  have same : ∀ c ∈ text, sideIn (ofText text).offset (ofText text).sides c =
      (Partition.ofText text).upper.contains c := fun c hc =>
    agrees.side c (Text.bounds_le hc).1 (Text.bounds_le hc).2
  constructor
  · intro c hc
    exact ⟨(Text.bounds_le hc).1, agrees.size ▸ index_lt (Text.bounds_le hc).2⟩
  · intro c above inside
    refine agrees.side c above ?_
    -- The range is not empty, so an entry belongs to a symbol up to the largest one.
    rw [agrees.size] at inside
    rw [UInt32.le_iff_toNat_le] at above ⊢
    unfold index at inside
    have range : (ofText text).offset.toNat ≤ text.bounds.2.toNat :=
      UInt32.le_iff_toNat_le.mp (Text.bounds_fst_le_snd text)
    omega
  · have counts := crossings_eq same
    show decide ((crossings (ofText text).offset (ofText text).sides text).upwards <
      (crossings (ofText text).offset (ofText text).sides text).downwards) = _
    rw [counts]
    rfl

instance : Std.Associative Partition.Crossings.add where
  assoc x y z := by simp only [Partition.Crossings.add, Nat.add_assoc]

instance : Std.LawfulIdentity Partition.Crossings.add ⟨0, 0⟩ where
  left_id x := by simp only [Partition.Crossings.add, Nat.zero_add]
  right_id x := by simp only [Partition.Crossings.add, Nat.add_zero]

/-- Neither the number of chunks nor the schedule shows in the table. -/
theorem ofTextIn_eq (s : Schedule) (parts : Nat) (text : Text) :
    ofTextIn s parts text = ofText text := by
  have sorted := Adjacency.eq_sort (s.sorter.perm (Adjacency.ofText text))
    (s.sorter.ascending (Adjacency.ofText text))
  simp only [ofTextIn, ofText, Text.boundsIn_eq, sorted, s.total.reduce_eq, crossings,
    Partition.Crossings.foldl_add_split]

/-- However many threads share the work on a text without equal neighbours, and in whatever way they
do, they find the table that one thread finds: the same offset, entries and left class. The table
has an entry for every symbol of the text, its entries are the classes of the partition, for which
the threads do not matter either, and it makes the same neighbours eligible. -/
theorem threads_agree {text : Text} (distinct : text.Distinct) (s : Schedule) (threads : Nat) :
    ofTextIn s threads text = ofText text ∧
      Partition.ofTextIn threads text = Partition.ofText text ∧
      (ofTextIn s threads text).Tabulates (Partition.ofTextIn threads text) text ∧
      ∀ a ∈ text, ∀ b ∈ text, (ofTextIn s threads text).eligible a b =
        (Partition.ofTextIn threads text).eligible a b := by
  have tables := ofTextIn_eq s threads text
  have partitions := Partition.ofTextIn_eq_ofText threads text
  have tabulates : (ofTextIn s threads text).Tabulates (Partition.ofTextIn threads text) text := by
    simpa only [tables, partitions] using tabulates_ofText distinct
  exact ⟨tables, partitions, tabulates, fun _ ha _ hb => tabulates.eligible_eq ha hb⟩

/-- Three threads share five symbols in chunks of two, and the last chunk is short. -/
theorem threads_agree_short_chunk :
    Text.Distinct [9, 2, 7, 2, 9] ∧
      ofTextIn .sequential 3 [9, 2, 7, 2, 9] = ofText [9, 2, 7, 2, 9] ∧
      Partition.ofTextIn 3 [9, 2, 7, 2, 9] = Partition.ofText [9, 2, 7, 2, 9] := by
  have distinct : Text.Distinct [9, 2, 7, 2, 9] := by simp [Text.Distinct]
  obtain ⟨tables, partitions, _⟩ := threads_agree distinct .sequential 3
  exact ⟨distinct, tables, partitions⟩

end ClassTable

end RunGrammar
