import Mathlib
import RunGrammar.Text.Chunks

/-!
# Chunks tile a text

The chunks of a text follow each other without gaps, each has at least one
position, and the last one ends where the text ends. `Chunk.Tile` says this as
an induction over the list of chunks. Work that is cut up by chunks is joined
again by following that induction.
-/

namespace RunGrammar.Chunk

/-- The chunks cover the positions from `start` up to `stop`, one after the other. -/
inductive Tile : (start stop : Nat) → List Chunk → Prop where
  | nil (stop : Nat) : Tile stop stop []
  | cons {start middle stop : Nat} {rest : List Chunk} (nonempty : start < middle)
      (tile : Tile middle stop rest) : Tile start stop (⟨start, middle⟩ :: rest)

theorem Tile.le {start stop : Nat} {chunks : List Chunk} (t : Tile start stop chunks) :
    start ≤ stop := by
  induction t with
  | nil => exact Nat.le_refl _
  | cons nonempty _ ih => exact Nat.le_trans (Nat.le_of_lt nonempty) ih

theorem Tile.stop_le {start stop : Nat} {chunks : List Chunk} (t : Tile start stop chunks) :
    ∀ c ∈ chunks, c.stop ≤ stop := by
  induction t with
  | nil => simp
  | cons _ tile ih =>
      intro c hc
      obtain rfl | later := List.mem_cons.mp hc
      · exact tile.le
      · exact ih c later

/-- A chunk ends before the next one begins. -/
theorem Tile.pairwise {start stop : Nat} {chunks : List Chunk} (t : Tile start stop chunks) :
    chunks.Pairwise fun a b => a.stop ≤ b.start := by
  have start_le : ∀ {start stop : Nat} {chunks : List Chunk}, Tile start stop chunks →
      ∀ c ∈ chunks, start ≤ c.start := by
    intro start stop chunks t
    induction t with
    | nil => simp
    | cons nonempty _ ih =>
        intro c hc
        obtain rfl | later := List.mem_cons.mp hc
        · exact Nat.le_refl _
        · exact Nat.le_trans (Nat.le_of_lt nonempty) (ih c later)
  induction t with
  | nil => exact .nil
  | cons _ tile ih => exact .cons (start_le tile) ih

/-- Every position is in a chunk. -/
theorem Tile.exists_mem {start stop : Nat} {chunks : List Chunk} (t : Tile start stop chunks)
    {p : Nat} (from' : start ≤ p) (before : p < stop) :
    ∃ c ∈ chunks, c.start ≤ p ∧ p < c.stop := by
  induction t with
  | nil => omega
  | @cons start middle stop rest nonempty tile ih =>
      obtain here | later := Nat.lt_or_ge p middle
      · exact ⟨_, List.mem_cons_self, from', here⟩
      · obtain ⟨c, hc, within⟩ := ih later before
        exact ⟨c, List.mem_cons_of_mem _ hc, within⟩

/-- The chunks from the `k`-th one on tile what the first `k` leave over. -/
theorem tile_from {n size : Nat} (hs : 0 < size) (count k : Nat)
    (hk : k + count = (n + size - 1) / size) :
    Tile (min (k * size) n) n
      ((List.range' k count).map fun k => ⟨k * size, min ((k + 1) * size) n⟩) := by
  induction count generalizing k with
  | zero =>
      have covered : n ≤ k * size := by
        have below := Nat.lt_div_mul_add hs (a := n + size - 1)
        rw [← hk] at below
        simp only [Nat.add_zero] at below
        omega
      rw [Nat.min_eq_right covered]
      exact .nil n
  | succ count ih =>
      have inside : k * size < n := by
        have above := Nat.div_mul_le_self (n + size - 1) size
        have : (k + 1) * size ≤ (n + size - 1) / size * size := Nat.mul_le_mul_right _ (by omega)
        rw [Nat.succ_mul] at this
        omega
      rw [List.range'_succ, List.map_cons, Nat.min_eq_left (Nat.le_of_lt inside)]
      refine .cons ?_ (ih (k + 1) (by omega))
      rw [Nat.succ_mul]
      omega

theorem tile_ofSize (n : Nat) {size : Nat} (positive : 0 < size) : Tile 0 n (ofSize n size) := by
  have all := tile_from (n := n) positive ((n + size - 1) / size) 0 (Nat.zero_add _)
  rwa [Nat.zero_mul, Nat.min_eq_left (Nat.zero_le n), ← List.range_eq_range'] at all

theorem tile_split (n parts : Nat) : Tile 0 n (split n parts) := tile_ofSize n (sizeFor_pos n parts)

/-- Cut into chunks, a sequence is put together again by concatenation. -/
theorem Tile.flatMap_take_drop {α : Type} {start stop : Nat} {chunks : List Chunk}
    (t : Tile start stop chunks) (xs : List α) :
    (chunks.flatMap fun c => (xs.drop c.start).take (c.stop - c.start)) =
      (xs.drop start).take (stop - start) := by
  induction t with
  | nil => simp
  | @cons start middle stop rest nonempty tile ih =>
      have split : stop - start = (middle - start) + (stop - middle) := by
        have := tile.le
        omega
      have skipped : start + (middle - start) = middle := by omega
      rw [List.flatMap_cons, ih, split, List.take_add, List.drop_drop, skipped]

theorem flatMap_slice_split (parts : Nat) (text : Text) :
    (split text.length parts).flatMap (fun c => c.slice text.toArray) = text := by
  have slices : (fun c : Chunk => c.slice text.toArray) =
      fun c => (text.drop c.start).take (c.stop - c.start) := by
    funext c
    simp [slice]
  rw [slices, (tile_split text.length parts).flatMap_take_drop, List.drop_zero, Nat.sub_zero,
    List.take_length]

end RunGrammar.Chunk
