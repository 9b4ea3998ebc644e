import Mathlib
import RunGrammar.Partition.Table
import RunGrammar.Proofs.Partition.Cut
import RunGrammar.Proofs.Text.Chunks

/-!
# What the partition does not depend on

Renaming the symbols of a text in ascending order changes no class and no
direction, so the same neighbours are eligible. Counting the crossings chunk by
chunk and sorting by comparison give the very same partition.
-/

namespace RunGrammar

/-- On the symbols of a text, the renaming keeps the order. -/
def AscendingOn (f : Symbol → Symbol) (text : Text) : Prop :=
  ∀ a ∈ text, ∀ b ∈ text, a < b → f a < f b

namespace AscendingOn

variable {f : Symbol → Symbol} {text : Text}

theorem lt_iff (h : AscendingOn f text) {a b : Symbol} (ha : a ∈ text) (hb : b ∈ text) :
    f a < f b ↔ a < b := by
  constructor
  · intro image
    by_contra notBefore
    obtain after | same := UInt32.lt_or_eq_of_le (UInt32.not_lt.mp notBefore)
    · exact UInt32.lt_asymm image (h b hb a ha after)
    · subst same
      exact UInt32.lt_irrefl _ image
  · exact h a ha b hb

theorem inj (h : AscendingOn f text) : ∀ a ∈ text, ∀ b ∈ text, f a = f b → a = b := by
  intro a ha b hb same
  by_contra differ
  obtain before | after := UInt32.lt_or_lt_of_ne differ
  · exact UInt32.ne_of_lt (h a ha b hb before) same
  · exact UInt32.ne_of_lt (h b hb a ha after) same.symm

theorem subset (h : AscendingOn f text) {part : Text} (inside : ∀ a ∈ part, a ∈ text) :
    AscendingOn f part :=
  fun a ha b hb => h a (inside a ha) b (inside b hb)

end AscendingOn

theorem Text.Distinct.map {f : Symbol → Symbol} {text : Text} (distinct : text.Distinct)
    (inj : ∀ a ∈ text, ∀ b ∈ text, f a = f b → a = b) : Text.Distinct (text.map f) := by
  unfold Text.Distinct
  rw [List.isChain_map]
  exact List.IsChain.imp_of_mem_imp (fun a b ha hb differ same => differ (inj a ha b hb same))
    distinct

namespace Adjacency

/-- The adjacency of the renamed symbols. -/
def rename (f : Symbol → Symbol) (x : Adjacency) : Adjacency := ⟨f x.larger, f x.smaller, x.rising⟩

theorem ofNeighbours_rename {f : Symbol → Symbol} {text : Text} (h : AscendingOn f text)
    {a b : Symbol} (ha : a ∈ text) (hb : b ∈ text) :
    ofNeighbours (f a) (f b) = (ofNeighbours a b).rename f := by
  unfold ofNeighbours
  by_cases falling : b < a
  · rw [if_pos falling, if_pos ((h.lt_iff hb ha).mpr falling)]
    rfl
  · rw [if_neg falling, if_neg (fun image => falling ((h.lt_iff hb ha).mp image))]
    rfl

theorem ofText_map {f : Symbol → Symbol} {text : Text} (h : AscendingOn f text) :
    ofText (text.map f) = (ofText text).map (rename f) := by
  induction text with
  | nil => rfl
  | cons a rest ih =>
      cases rest with
      | nil => rfl
      | cons b rest =>
          rw [List.map_cons, List.map_cons, ofText_cons_cons, ofText_cons_cons, List.map_cons,
            ofNeighbours_rename h (by simp) (by simp), ← List.map_cons,
            ih (h.subset fun c hc => List.mem_cons_of_mem a hc)]

theorem ofNeighbours_mem (a b : Symbol) :
    (ofNeighbours a b).larger ∈ [a, b] ∧ (ofNeighbours a b).smaller ∈ [a, b] := by
  unfold ofNeighbours
  split <;> simp

theorem symbols_mem_of_mem_ofText {text : Text} {x : Adjacency} (hx : x ∈ ofText text) :
    x.larger ∈ text ∧ x.smaller ∈ text := by
  rw [ofText, List.mem_iff_getElem?] at hx
  obtain ⟨i, hi⟩ := hx
  obtain ⟨a, b, ha, hb, rfl⟩ := List.getElem?_zipWith_eq_some.mp hi
  have ha : a ∈ text := List.mem_of_getElem? ha
  have hb : b ∈ text := List.mem_of_mem_tail (List.mem_of_getElem? hb)
  have inside : ∀ c ∈ [a, b], c ∈ text := by simp [ha, hb]
  exact ⟨inside _ (ofNeighbours_mem a b).1, inside _ (ofNeighbours_mem a b).2⟩

end Adjacency

namespace Partition

theorem above_rename {f : Symbol → Symbol} {adjacencies : List Adjacency}
    {upper upper' : Symbol → Bool} {c : Symbol}
    (sameKey : ∀ x ∈ adjacencies, f x.larger = f c → x.larger = c)
    (sameClass : ∀ x ∈ adjacencies, x.larger = c → upper' (f x.smaller) = upper x.smaller) :
    above upper' (adjacencies.map (Adjacency.rename f)) (f c) = above upper adjacencies c := by
  rw [above, List.countP_map]
  apply List.countP_congr
  intro x hx
  have key : f x.larger = f c ↔ x.larger = c := ⟨sameKey x hx, fun same => congrArg f same⟩
  simp only [Function.comp_apply, Adjacency.rename, Bool.and_eq_true, beq_iff_eq, key,
    and_congr_right_iff]
  intro here
  rw [sameClass x hx here]

/-- The greedy condition has one solution, up to a renaming that keeps symbols apart. -/
theorem IsGreedy.eq_of_rename {f : Symbol → Symbol} {letters : Text} {adjacencies : List Adjacency}
    {upper upper' : Symbol → Bool} (inj : ∀ a ∈ letters, ∀ b ∈ letters, f a = f b → a = b)
    (inside : ∀ x ∈ adjacencies, x.larger ∈ letters ∧ x.smaller ∈ letters)
    (falls : Falls adjacencies) (h : IsGreedy adjacencies upper)
    (h' : IsGreedy (adjacencies.map (Adjacency.rename f)) upper') {c : Symbol} (hc : c ∈ letters) :
    upper' (f c) = upper c := by
  induction hn : c.toNat using Nat.strongRecOn generalizing c with
  | ind n ih =>
      have sameKey : ∀ x ∈ adjacencies, f x.larger = f c → x.larger = c := fun x hx =>
        inj _ (inside x hx).1 _ hc
      -- Smaller neighbours are in the same class by induction.
      have sameClass : ∀ x ∈ adjacencies, x.larger = c →
          upper' (f x.smaller) = upper x.smaller := by
        intro x hx here
        have smaller := UInt32.lt_iff_toNat_lt.mp (falls x hx)
        rw [here, hn] at smaller
        exact ih _ smaller (inside x hx).2 rfl
      have otherClass : ∀ x ∈ adjacencies, x.larger = c →
          (!upper' (f x.smaller)) = !upper x.smaller := by
        intro x hx here
        rw [sameClass x hx here]
      rw [h', h, below_eq_above, below_eq_above, above_rename sameKey sameClass]
      have belows : above (fun s => !upper' s) (adjacencies.map (Adjacency.rename f)) (f c) =
          above (fun s => !upper s) adjacencies c := above_rename sameKey otherClass
      rw [belows]

theorem isUpper_ofText_map {f : Symbol → Symbol} {text : Text} (distinct : text.Distinct)
    (ascending : AscendingOn f text) {c : Symbol} (hc : c ∈ text) :
    (ofText (text.map f)).isUpper (f c) = (ofText text).isUpper c := by
  have image := isGreedy_ofText (distinct.map ascending.inj)
  rw [Adjacency.ofText_map ascending] at image
  exact IsGreedy.eq_of_rename ascending.inj (fun x hx => Adjacency.symbols_mem_of_mem_ofText hx)
    (Adjacency.falls_ofText distinct) (isGreedy_ofText distinct) image hc

theorem crossings_map {f : Symbol → Symbol} {text : Text} {upper upper' : Std.TreeSet Symbol}
    (same : ∀ c ∈ text, upper'.contains (f c) = upper.contains c) :
    Crossings.ofText upper' (text.map f) = Crossings.ofText upper text := by
  have zipped : (text.map f).zip (text.map f).tail =
      (text.zip text.tail).map (Prod.map f f) := by
    rw [← List.map_tail, List.zip_map]
  have inside : ∀ x ∈ text.zip text.tail, x.1 ∈ text ∧ x.2 ∈ text := fun x hx =>
    ⟨(List.of_mem_zip hx).1, List.mem_of_mem_tail (List.of_mem_zip hx).2⟩
  simp only [Crossings.ofText, zipped, List.countP_map, Crossings.mk.injEq]
  constructor <;>
  · apply List.countP_congr
    intro x hx
    simp only [Function.comp_apply, Prod.map, same _ (inside x hx).1, same _ (inside x hx).2]

/-- The same neighbours are eligible after a renaming in ascending order. -/
theorem eligible_ofText_map {f : Symbol → Symbol} {text : Text} (distinct : text.Distinct)
    (ascending : AscendingOn f text) {a b : Symbol} (ha : a ∈ text) (hb : b ∈ text) :
    (ofText (text.map f)).eligible (f a) (f b) = (ofText text).eligible a b := by
  have classes : ∀ c ∈ text, (ofText (text.map f)).isUpper (f c) = (ofText text).isUpper c :=
    fun c hc => isUpper_ofText_map distinct ascending hc
  have direction : (ofText (text.map f)).leftIsUpper = (ofText text).leftIsUpper := by
    have counts : Crossings.ofText (ofText (text.map f)).upper (text.map f) =
        Crossings.ofText (ofText text).upper text := crossings_map classes
    show decide ((Crossings.ofText (ofText (text.map f)).upper (text.map f)).upwards <
      (Crossings.ofText (ofText (text.map f)).upper (text.map f)).downwards) = _
    rw [counts]
    rfl
  simp only [eligible, isLeft, classes a ha, classes b hb, direction]

/-! ### Counting in chunks -/

namespace Crossings

theorem ofText_eq (upper : Std.TreeSet Symbol) (text : Text) :
    ofText upper text = ofNeighbours upper.contains (text.zip text.tail) := rfl

theorem ofNeighbours_append (upper : Symbol → Bool) (xs ys : List (Symbol × Symbol)) :
    ofNeighbours upper (xs ++ ys) = (ofNeighbours upper xs).add (ofNeighbours upper ys) := by
  simp [ofNeighbours, add, List.countP_append]

theorem foldl_add_ofNeighbours (upper : Symbol → Bool) (parts : List (List (Symbol × Symbol)))
    (front : List (Symbol × Symbol)) :
    (parts.map (ofNeighbours upper)).foldl add (ofNeighbours upper front) =
      ofNeighbours upper (front ++ parts.flatten) := by
  induction parts generalizing front with
  | nil => simp
  | cons part parts ih =>
      rw [List.map_cons, List.foldl_cons, ← ofNeighbours_append, ih, List.flatten_cons,
        List.append_assoc]

theorem zip_tail_take (xs : Text) (k : Nat) :
    (xs.take k).zip (xs.take k).tail = (xs.zip xs.tail).take (k - 1) := by
  induction xs generalizing k with
  | nil => simp
  | cons a rest ih =>
      cases k with
      | zero => simp
      | succ k =>
          cases rest with
          | nil => simp
          | cons b rest =>
              cases k with
              | zero => simp
              | succ k => simpa using ih (k + 1)

theorem zip_tail_drop (xs : Text) (k : Nat) :
    (xs.drop k).zip (xs.drop k).tail = (xs.zip xs.tail).drop k := by
  rw [List.zip_eq_zipWith, List.zip_eq_zipWith, List.drop_zipWith, List.tail_drop, List.drop_tail]

/-- The neighbours of a chunk that is widened by one position are those that start in the chunk. -/
theorem neighbours_widened {c : Chunk} {text : Text} (bound : c.stop ≤ text.length) :
    ((c.widened text.length).slice text.toArray).zip
        ((c.widened text.length).slice text.toArray).tail =
      ((text.zip text.tail).drop c.start).take (c.stop - c.start) := by
  have slice : (c.widened text.length).slice text.toArray =
      (text.drop c.start).take (min (c.stop + 1) text.length - c.start) := by
    simp [Chunk.slice, Chunk.widened]
  rw [slice, zip_tail_take, zip_tail_drop]
  -- At the end of the text both lengths reach past the last neighbours.
  rw [List.take_eq_take_iff, List.length_drop, List.length_zip, List.length_tail]
  omega

/-- What the chunks of a text count adds up to what the text counts. -/
theorem foldl_add_split (parts : Nat) (text : Text) (upper : Symbol → Bool) :
    ((Chunk.split text.length parts).map fun chunk =>
      ofNeighbours upper (((chunk.widened text.length).slice text.toArray).zip
        ((chunk.widened text.length).slice text.toArray).tail)).foldl add ⟨0, 0⟩ =
      ofNeighbours upper (text.zip text.tail) := by
  have tile := Chunk.tile_split text.length parts
  have joined := tile.flatMap_take_drop (text.zip text.tail)
  have all : (text.zip text.tail).take text.length = text.zip text.tail :=
    List.take_of_length_le (by simp)
  rw [List.drop_zero, Nat.sub_zero, all] at joined
  have each : (Chunk.split text.length parts).map (fun chunk =>
      ofNeighbours upper (((chunk.widened text.length).slice text.toArray).zip
        ((chunk.widened text.length).slice text.toArray).tail)) =
      ((Chunk.split text.length parts).map fun c =>
        ((text.zip text.tail).drop c.start).take (c.stop - c.start)).map (ofNeighbours upper) := by
    rw [List.map_map]
    apply List.map_congr_left
    intro c hc
    rw [neighbours_widened (tile.stop_le c hc)]
    rfl
  have none : (⟨0, 0⟩ : Crossings) = ofNeighbours upper [] := rfl
  rw [each, none, foldl_add_ofNeighbours, List.nil_append, ← List.flatMap_def, joined]

end Crossings

/-- The number of chunks does not show in the partition. -/
theorem ofTextIn_eq_ofText (parts : Nat) (text : Text) : ofTextIn parts text = ofText text := by
  simp only [ofTextIn, ofText, ← Adjacency.sort_eq_sortByComparison, List.size_toArray,
    Crossings.ofText_eq, Crossings.foldl_add_split]

end Partition

end RunGrammar
