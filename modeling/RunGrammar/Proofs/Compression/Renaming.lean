import Mathlib
import RunGrammar.Proofs.Compression.RuleOrder
import RunGrammar.Proofs.Partition.Invariance

/-!
# Renaming the rules of a phase

An ascending renaming of the letters of a text takes the pieces of the text to
those of the renamed text, and the rules of the pieces along with them. Different
rules stay different, and rules of one kind stay in order. So the order in which
a phase names its rules does not depend on what the letters are called, be it
the ascending order or that of appearance.
-/

namespace RunGrammar

namespace Rule

variable {f : Symbol → Symbol} {r s : Rule}

theorem rename_inj {letters : Text} (inj : ∀ a ∈ letters, ∀ b ∈ letters, f a = f b → a = b)
    (hr : ∀ a ∈ r.operands, a ∈ letters) (hs : ∀ a ∈ s.operands, a ∈ letters)
    (same : r.rename f = s.rename f) : r = s := by
  cases r with
  | pair a b =>
      cases s with
      | pair c d =>
          simp only [rename, pair.injEq] at same
          rw [inj a (hr a left_mem_operands) c (hs c left_mem_operands) same.1,
            inj b (hr b right_mem_operands) d (hs d right_mem_operands) same.2]
      | block c n => cases same
  | block a m =>
      cases s with
      | pair c d => cases same
      | block c n =>
          simp only [rename, block.injEq] at same
          rw [inj a (hr a copied_mem_operands) c (hs c copied_mem_operands) same.1, same.2]

/-- An ascending renaming keeps rules of one kind in order. -/
theorem Before.rename {letters : Text} (ascending : AscendingOn f letters)
    (kind : r.isBlock = s.isBlock) (hr : ∀ a ∈ r.operands, a ∈ letters)
    (hs : ∀ a ∈ s.operands, a ∈ letters) (h : r.Before s) : (r.rename f).Before (s.rename f) := by
  have image : ∀ a ∈ letters, ∀ b ∈ letters, a.toNat < b.toNat → (f a).toNat < (f b).toNat := by
    intro a ha b hb lt
    rw [← UInt32.lt_iff_toNat_lt] at lt ⊢
    exact ascending a ha b hb lt
  cases r with
  | pair a b =>
      cases s with
      | pair c d =>
          obtain lt | ⟨same, lt⟩ := h
          · exact .inl (image a (hr a left_mem_operands) c (hs c left_mem_operands) lt)
          · refine .inr ⟨congrArg (fun a => (f a).toNat) (UInt32.toNat_inj.mp same), ?_⟩
            exact image b (hr b right_mem_operands) d (hs d right_mem_operands) lt
      | block c n => cases kind
  | block a m =>
      cases s with
      | pair c d => cases kind
      | block c n =>
          obtain lt | ⟨same, lt⟩ := h
          · exact .inl (image a (hr a copied_mem_operands) c (hs c copied_mem_operands) lt)
          · exact .inr ⟨congrArg (fun a => (f a).toNat) (UInt32.toNat_inj.mp same), lt⟩

theorem Uniform.map_rename {rs : List Rule} (u : Uniform rs) (f : Symbol → Symbol) :
    Uniform (rs.map (Rule.rename f)) := by
  intro r hr s hs
  obtain ⟨r', hr', rfl⟩ := List.mem_map.mp hr
  obtain ⟨s', hs', rfl⟩ := List.mem_map.mp hs
  rw [isBlock_rename, isBlock_rename]
  exact u r' hr' s' hs'

end Rule

namespace Piece

theorem filterMap_rule?_rename (f : Symbol → Symbol) (pieces : List Piece) :
    (pieces.map (rename f)).filterMap rule? = (pieces.filterMap rule?).map (Rule.rename f) := by
  rw [List.filterMap_map, List.map_filterMap]
  apply List.filterMap_congr
  intro piece _
  cases piece <;> rfl

theorem foldedCount_rename (f : Symbol → Symbol) (pieces : List Piece) :
    foldedCount (pieces.map (rename f)) = foldedCount pieces := by
  rw [← length_filterMap_rule?, filterMap_rule?_rename, List.length_map, length_filterMap_rule?]

end Piece

theorem idxOf_map {α β : Type} [BEq α] [LawfulBEq α] [BEq β] [LawfulBEq β] {f : α → β} {xs : List α}
    {x : α} (hx : x ∈ xs) (inj : ∀ y ∈ xs, f y = f x → y = x) :
    (xs.map f).idxOf (f x) = xs.idxOf x := by
  induction xs with
  | nil => cases hx
  | cons y xs ih =>
      by_cases same : y = x
      · subst same
        simp
      · have differ : f y ≠ f x := fun h => same (inj y (by simp) h)
        have later : x ∈ xs := (List.mem_cons.mp hx).resolve_left (Ne.symm same)
        rw [List.map_cons, List.idxOf_cons_ne _ differ, List.idxOf_cons_ne _ same,
          ih later fun z hz => inj z (by simp [hz])]

namespace Naming

variable {f : Symbol → Symbol} {letters : Text} {rs : List Rule}

/-- Sorting commutes with an ascending renaming. -/
theorem sorted_map_rename (uniform : Rule.Uniform rs) (ascending : AscendingOn f letters)
    (operands : ∀ r ∈ rs, ∀ a ∈ r.operands, a ∈ letters) :
    sorted (rs.map (Rule.rename f)) = (sorted rs).map (Rule.rename f) := by
  symm
  apply eq_sorted (uniform.map_rename f)
  · rw [List.pairwise_map]
    apply (pairwise_sorted uniform).imp_of_mem
    intro r s hr hs before
    have hr := (mem_sorted rs r).mp hr
    have hs := (mem_sorted rs s).mp hs
    exact before.rename ascending (uniform r hr s hs) (operands r hr) (operands s hs)
  · intro r
    simp only [List.mem_map, mem_sorted]

/-- The order of appearance commutes with a renaming that keeps the rules apart. -/
theorem foldl_meet_map {g : Rule → Rule} {all rs met : List Rule}
    (inj : ∀ r ∈ all, ∀ s ∈ all, g r = g s → r = s) (hrs : ∀ r ∈ rs, r ∈ all)
    (hmet : ∀ r ∈ met, r ∈ all) :
    (rs.map g).foldl meet (met.map g) = (rs.foldl meet met).map g := by
  induction rs generalizing met with
  | nil => rfl
  | cons r rs ih =>
      have hr : r ∈ all := hrs r (by simp)
      have step : meet (met.map g) (g r) = (meet met r).map g := by
        have old : g r ∈ met.map g ↔ r ∈ met := by
          refine ⟨fun h => ?_, fun h => List.mem_map_of_mem h⟩
          obtain ⟨s, hs, same⟩ := List.mem_map.mp h
          exact inj s (hmet s hs) r hr same ▸ hs
        by_cases h : r ∈ met
        · rw [meet, if_pos (old.mpr h), meet, if_pos h]
        · rw [meet, if_neg (mt old.mp h), meet, if_neg h, List.map_append]
          rfl
      have hmet' : ∀ s ∈ meet met r, s ∈ all := by
        intro s hs
        obtain earlier | rfl := mem_meet.mp hs
        · exact hmet s earlier
        · exact hr
      rw [List.map_cons, List.foldl_cons, List.foldl_cons, step]
      exact ih (fun s hs => hrs s (by simp [hs])) hmet'

theorem appearance_map_rename (ascending : AscendingOn f letters)
    (operands : ∀ r ∈ rs, ∀ a ∈ r.operands, a ∈ letters) :
    appearance (rs.map (Rule.rename f)) = (appearance rs).map (Rule.rename f) := by
  have inj : ∀ r ∈ rs, ∀ s ∈ rs, r.rename f = s.rename f → r = s := fun r hr s hs =>
    Rule.rename_inj ascending.inj (operands r hr) (operands s hs)
  show (rs.map (Rule.rename f)).foldl meet ([].map (Rule.rename f)) = _
  exact foldl_meet_map inj (fun _ h => h) fun _ h => absurd h List.not_mem_nil

/-- What the letters are called does not matter for the order in which rules are named. -/
def Natural (n : Naming) : Prop :=
  ∀ (f : Symbol → Symbol) (letters : Text) (rs : List Rule), Rule.Uniform rs →
    AscendingOn f letters → (∀ r ∈ rs, ∀ a ∈ r.operands, a ∈ letters) →
      n.order (rs.map (Rule.rename f)) = (n.order rs).map (Rule.rename f)

theorem natural_ascending : ascending.Natural := fun _ _ _ => sorted_map_rename

theorem natural_firstSeen : firstSeen.Natural := fun _ _ _ _ => appearance_map_rename

end Naming

end RunGrammar
