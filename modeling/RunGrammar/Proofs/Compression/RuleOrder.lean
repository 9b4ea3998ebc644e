import Mathlib
import RunGrammar.Proofs.Compression.Naming
import RunGrammar.Proofs.Text.Groups

/-!
# Rules in ascending order

Rules are compared by their two fields, so a pair and a block with the same
fields are not told apart. All rules of a phase are of one kind, and among these
the order is strict. Then there is only one ascending list of a phase's rules,
and every way of sorting and grouping them finds it.
-/

namespace RunGrammar

namespace Rule

/-- The fields of one rule come before those of the other. -/
def Before (r s : Rule) : Prop :=
  r.first.toNat < s.first.toNat ∨
    (r.first.toNat = s.first.toNat ∧ r.second.toNat < s.second.toNat)

/-- All rules are pairs, or all are blocks. -/
def Uniform (rs : List Rule) : Prop := ∀ r ∈ rs, ∀ s ∈ rs, r.isBlock = s.isBlock

variable {r s : Rule} {rs xs : List Rule}

theorem before_irrefl (r : Rule) : ¬ r.Before r := by
  unfold Before
  omega

theorem before_trans (r s t : Rule) (h : r.Before s) (h' : s.Before t) : r.Before t := by
  unfold Before at *
  omega

theorem not_le_iff : (!s.le r) = true ↔ r.Before s := by
  rw [Bool.not_eq_true', ← Bool.not_eq_true, le_iff, Before]
  omega

theorem eq_of_fields (kind : r.isBlock = s.isBlock) (first : r.first = s.first)
    (second : r.second = s.second) : r = s := by
  cases r <;> cases s <;> simp_all [Rule.first, Rule.second]

/-- Among rules of one kind, the order is strict. -/
theorem eq_or_before_of_le (kind : r.isBlock = s.isBlock) (h : r.le s = true) :
    r = s ∨ r.Before s := by
  rw [le_iff] at h
  obtain lt | ⟨first, second⟩ := h
  · exact .inr (.inl lt)
  · obtain lt | same := Nat.lt_or_eq_of_le second
    · exact .inr (.inr ⟨first, lt⟩)
    · exact .inl (eq_of_fields kind (UInt32.toNat_inj.mp first) (UInt32.toNat_inj.mp same))

theorem Uniform.sublist (u : Uniform rs) (inside : ∀ r ∈ xs, r ∈ rs) : Uniform xs :=
  fun r hr s hs => u r (inside r hr) s (inside s hs)

theorem before_antisymm (r s : Rule) (h : r.Before s) (h' : s.Before r) : r = s :=
  absurd (before_trans r s r h h') (before_irrefl r)

theorem nodup_of_pairwise_before (h : xs.Pairwise Before) : xs.Nodup := by
  apply h.imp
  intro r s before
  rintro rfl
  exact before_irrefl r before

/-- In ascending order, rules of one kind are equal or in order. -/
theorem pairwise_of_ascending (u : Uniform xs)
    (ascending : xs.Pairwise fun r s => r.le s = true) :
    xs.Pairwise fun r s => r = s ∨ r.Before s :=
  ascending.imp_of_mem fun hr hs => eq_or_before_of_le (u _ hr _ hs)

/-- Sorted by a comparison, rules of one kind are equal or in order. -/
theorem pairwise_mergeSort {α : Type} (key : α → Rule) (items : List α)
    (u : Uniform (items.map key)) :
    (items.mergeSort fun x y => (key x).le (key y)).Pairwise fun x y =>
      key x = key y ∨ (key x).Before (key y) := by
  have sorted : (items.mergeSort fun x y => (key x).le (key y)).Pairwise fun x y =>
      (key x).le (key y) = true :=
    List.pairwise_mergeSort (fun x y z => le_trans (key x) (key y) (key z))
      (fun x y => le_total (key x) (key y)) items
  refine sorted.imp_of_mem fun {x y} hx hy h => eq_or_before_of_le (u _ ?_ _ ?_) h
  · exact List.mem_map_of_mem (List.mem_mergeSort.mp hx)
  · exact List.mem_map_of_mem (List.mem_mergeSort.mp hy)

end Rule

namespace Naming

variable {rs xs : List Rule}

theorem pairwise_sorted (u : Rule.Uniform rs) : (sorted rs).Pairwise Rule.Before := by
  have order := Rule.pairwise_mergeSort id rs (by rwa [List.map_id])
  have kept := order.sublist (List.dedup_sublist _)
  apply (kept.and (List.nodup_dedup (rs.mergeSort Rule.le))).imp
  intro r s h
  exact h.1.resolve_left h.2

/-- There is one ascending list of rules. -/
theorem eq_sorted (u : Rule.Uniform rs) (ascending : xs.Pairwise Rule.Before)
    (mem : ∀ r, r ∈ xs ↔ r ∈ rs) : xs = sorted rs := by
  have nodup := Rule.nodup_of_pairwise_before ascending
  have perm : xs.Perm (sorted rs) :=
    (List.perm_ext_iff_of_nodup nodup (List.nodup_dedup _)).mpr
      fun r => (mem r).trans (mem_sorted rs r).symm
  exact perm.eq_of_pairwise (fun r s _ _ => Rule.before_antisymm r s) ascending (pairwise_sorted u)

theorem mem_appearance (rs : List Rule) (r : Rule) : r ∈ appearance rs ↔ r ∈ rs :=
  firstSeen.mem_order rs r

/-- In order of appearance, rules are sorted by their first place. -/
theorem pairwise_appearance (rs : List Rule) :
    (appearance rs).Pairwise fun r s => rs.idxOf r < rs.idxOf s := by
  induction rs using List.reverseRecOn with
  | nil => exact List.Pairwise.nil
  | append_singleton rs x ih =>
      have grown : appearance (rs ++ [x]) = meet (appearance rs) x := List.foldl_append
      -- The places of rules that were met before stay as they are.
      have same : ∀ r ∈ appearance rs, (rs ++ [x]).idxOf r = rs.idxOf r := fun r hr =>
        List.idxOf_append_of_mem ((mem_appearance rs r).mp hr)
      have old : (appearance rs).Pairwise fun r s =>
          (rs ++ [x]).idxOf r < (rs ++ [x]).idxOf s := by
        refine ih.imp_of_mem fun {r s} hr hs before => ?_
        simpa only [same r hr, same s hs] using before
      rw [grown, meet]
      split
      · exact old
      · next new =>
          refine List.pairwise_append.mpr ⟨old, List.pairwise_singleton _ x, ?_⟩
          intro r hr s hs
          have member := (mem_appearance rs r).mp hr
          have missing : x ∉ rs := fun h => new ((mem_appearance rs x).mpr h)
          have last : (rs ++ [x]).idxOf x = rs.length := by
            simp [List.idxOf_append_of_notMem missing]
          rw [List.mem_singleton.mp hs, same r hr, last]
          exact List.idxOf_lt_length_iff.mpr member

end Naming

/-! ### The rules of one phase -/

theorem Text.uniform_runPieces (text : Text) :
    Rule.Uniform (text.runPieces.filterMap Piece.rule?) := by
  have block : ∀ r ∈ text.runPieces.filterMap Piece.rule?, r.isBlock = true := fun _ hr =>
    isBlock_of_mem_runPieces (Piece.mem_filterMap_rule?_iff.mp hr)
  exact fun r hr s hs => (block r hr).trans (block s hs).symm

theorem Partition.uniform_pairPieces (p : Partition) (text : Text) :
    Rule.Uniform ((p.pairPieces text).filterMap Piece.rule?) := by
  have pair : ∀ r ∈ (p.pairPieces text).filterMap Piece.rule?, r.isBlock = false := fun _ hr =>
    isBlock_of_mem_pairPieces (Piece.mem_filterMap_rule?_iff.mp hr)
  exact fun r hr s hs => (pair r hr).trans (pair s hs).symm

end RunGrammar
