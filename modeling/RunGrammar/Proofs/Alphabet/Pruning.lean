import Mathlib
import RunGrammar.Proofs.Alphabet.Tables

/-!
# What pruning keeps

A mapping need not be ascending to be pruned; it is enough that every symbol of
the text has an entry. Then the entries of the symbols that occur are kept, in
the order in which they were, no other entry is, and every symbol still has the
entry that it had. By a table the same is found.
-/

namespace RunGrammar.Alphabet

variable {d : Dense}

/-- Whether the text has a symbol for entry `i` of the mapping. -/
def Dense.uses (d : Dense) (i : Nat) : Bool := d.text.any (·.toNat == i)

/-- The entries that the text uses, in the order of the mapping. -/
def Dense.usedEntries (d : Dense) : List Symbol :=
  (d.mapping.toList.zipIdx.filter fun entry => d.uses entry.2).map (·.1)

theorem map_fst_filter_zipIdx {α : Type} (xs : List α) (p : Nat → Bool) :
    (xs.zipIdx.filter fun x => p x.2).map (·.1) =
      ((List.range xs.length).filter p).filterMap (xs[·]?) := by
  induction xs using List.reverseRecOn with
  | nil => rfl
  | append_singleton xs x ih =>
      have before : ((List.range xs.length).filter p).filterMap ((xs ++ [x])[·]?) =
          ((List.range xs.length).filter p).filterMap (xs[·]?) := by
        apply List.filterMap_congr
        intro i hi
        exact List.getElem?_append_left (List.mem_range.mp (List.mem_of_mem_filter hi))
      by_cases kept : p xs.length = true
      · simp [List.zipIdx_append, List.range_succ, kept, ih, before]
      · simp [List.zipIdx_append, List.range_succ, kept, ih, before]

namespace Dense

variable (inside : ∀ c ∈ d.text, c.toNat < d.mapping.size)

include inside

theorem entries_eq : d.entries = d.plainText.map some := by
  rw [entries, plainText, List.map_map]
  apply List.map_congr_left
  intro c hc
  exact getElem?_of_inside (inside c hc)

theorem entries_prune : (prune d).entries = d.entries := by
  rw [entries_eq (inside_prune inside), plainText_prune inside, ← entries_eq inside]

/-- After pruning no entry is without a symbol that leads to it. -/
theorem mem_prune_iff {v : Symbol} : v ∈ (prune d).mapping ↔ some v ∈ (prune d).entries := by
  rw [entries_prune inside, entries_eq inside, ← Array.mem_toList_iff, mapping_prune inside,
    plainText]
  simp only [List.mem_map, mem_letters, Option.some.injEq, exists_eq_right]

/-- The letters of the text are the places of the used entries. -/
theorem letters_eq_filter_uses :
    (letters d.text).toList = ((List.range d.mapping.size).filter d.uses).map .ofNat := by
  have marked : (Marks.ofText d.mapping.size d.text).below d.mapping.size =
      (List.range d.mapping.size).filter d.uses := by
    apply List.filter_congr
    intro i hi
    rw [Bool.eq_iff_iff, Marks.has_ofText (List.mem_range.mp hi)]
    simp [uses]
  rw [← marked, Marks.map_below_ofText inside]

/-- The mapping keeps the used entries and nothing else. -/
theorem mapping_prune_eq_usedEntries : (prune d).mapping.toList = d.usedEntries := by
  have entry : ∀ i ∈ (List.range d.mapping.size).filter d.uses,
      d.mapping[(UInt32.ofNat i).toNat]? = d.mapping.toList[i]? := by
    intro i hi
    obtain ⟨c, _, same⟩ := List.any_eq_true.mp (List.mem_filter.mp hi).2
    obtain rfl := beq_iff_eq.mp same
    rw [UInt32.ofNat_toNat, Array.getElem?_toList]
  calc
    (prune d).mapping.toList = (letters d.text).toList.filterMap (d.mapping[·.toNat]?) :=
      Array.toList_filterMap
    _ = ((List.range d.mapping.size).filter d.uses).filterMap
        fun i => d.mapping[(UInt32.ofNat i).toNat]? := by
      rw [letters_eq_filter_uses inside, List.filterMap_map]
      rfl
    _ = ((List.range d.mapping.size).filter d.uses).filterMap (d.mapping.toList[·]?) :=
      List.filterMap_congr entry
    _ = d.usedEntries := by
      rw [usedEntries, map_fst_filter_zipIdx, Array.length_toList]

/-- Pruning by a table is pruning. -/
theorem pruneByTable_eq : pruneByTable d = prune d := by
  have mapping : ((letters d.text).map (letter d.mapping)).toList = (prune d).mapping.toList := by
    rw [Array.toList_map, mapping_prune inside]
  calc
    pruneByTable d = ⟨d.text.map fun c =>
        (Marks.ofText d.mapping.size d.text).ranks.2.getD c.toNat c,
      (Marks.ofText d.mapping.size d.text).ranks.1.map (letter d.mapping)⟩ := rfl
    _ = ⟨d.text.map (rank (letters d.text)), (letters d.text).map (letter d.mapping)⟩ := by
      rw [Marks.map_place_ofText inside, Marks.present_ofText inside]
    _ = prune d := congrArg _ (Array.toList_inj.mp mapping)

end Dense

end RunGrammar.Alphabet
