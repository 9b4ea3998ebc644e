import Mathlib
import RunGrammar.Text.Runs
import RunGrammar.Proofs.Text.Groups

/-!
# The runs of a text

The runs of a text are the only sequence of runs that spells the text, has no
empty run and never two neighbours with the same symbol. Everything else follows
from this: how runs are found from left to right, and that renaming the symbols
without identifying any of them renames the runs.
-/

namespace RunGrammar

/-- No run is empty, and neighbouring runs differ in their symbols. -/
structure Run.Maximal (runs : List Run) : Prop where
  nonempty : ∀ r ∈ runs, 0 < r.length
  differ : runs.IsChain fun x y => x.symbol ≠ y.symbol

/-- A run of the image of a text. -/
def Run.rename (f : Symbol → Symbol) (r : Run) : Run := ⟨f r.symbol, r.length⟩

namespace Text

variable {text : Text}

theorem run_text_of_mem_splitBy {group : List Symbol} (hg : group ∈ text.splitBy (· == ·)) :
    ∃ c, group.head? = some c ∧ (Run.mk c group.length).text = group := by
  obtain ⟨c, rest, rfl⟩ := List.exists_cons_of_ne_nil (List.ne_nil_of_mem_splitBy hg)
  refine ⟨c, rfl, ?_⟩
  symm
  rw [Run.text, List.eq_replicate_iff]
  refine ⟨rfl, ?_⟩
  intro d hd
  have group : c :: rest ∈ text.splitBy fun x y => id x == id y := hg
  exact key_eq_of_mem_splitBy group hd (List.mem_cons_self)

theorem map_text_runs (text : Text) : text.runs.map Run.text = text.splitBy (· == ·) := by
  have each : ∀ groups : List (List Symbol), (∀ group ∈ groups, group ∈ text.splitBy (· == ·)) →
      (groups.filterMap fun group => group.head?.map fun c => (⟨c, group.length⟩ : Run)).map
        Run.text = groups := by
    intro groups member
    induction groups with
    | nil => rfl
    | cons group groups ih =>
        obtain ⟨c, head, spelled⟩ := run_text_of_mem_splitBy (member group (by simp))
        have rest := ih fun other h => member other (by simp [h])
        rw [List.filterMap_cons, head]
        simp only [Option.map_some, List.map_cons, spelled, rest]
  exact each _ fun _ h => h

/-- Concatenated, the runs give the text back. -/
theorem flatMap_text_runs (text : Text) : text.runs.flatMap Run.text = text := by
  rw [List.flatMap_def, map_text_runs, List.flatten_splitBy]

theorem run_text_ne_nil {r : Run} (h : 0 < r.length) : r.text ≠ [] := by
  simp [Run.text]
  omega

theorem splitBy_flatMap_text {runs : List Run} (maximal : Run.Maximal runs) :
    (runs.flatMap Run.text).splitBy (· == ·) = runs.map Run.text := by
  rw [List.flatMap_def]
  apply List.splitBy_flatten
  · intro h
    obtain ⟨r, hr, empty⟩ := List.mem_map.mp h
    exact run_text_ne_nil (maximal.nonempty r hr) empty
  · intro group hg
    obtain ⟨r, _, rfl⟩ := List.mem_map.mp hg
    exact List.isChain_replicate_of_rel _ (by simp)
  · rw [List.isChain_map]
    refine List.IsChain.imp_of_mem_imp ?_ maximal.differ
    intro x y hx hy differ
    refine ⟨run_text_ne_nil (maximal.nonempty x hx), run_text_ne_nil (maximal.nonempty y hy), ?_⟩
    simpa [Run.text] using differ

/-- A text has only one sequence of maximal runs. -/
theorem runs_flatMap_text {runs : List Run} (maximal : Run.Maximal runs) :
    Text.runs (runs.flatMap Run.text) = runs := by
  unfold Text.runs
  rw [splitBy_flatMap_text maximal, List.filterMap_map]
  have each : ∀ r ∈ runs, ((fun group => group.head?.map fun c => (⟨c, group.length⟩ : Run)) ∘
      Run.text) r = some r := by
    intro r hr
    obtain ⟨k, hk⟩ := Nat.exists_eq_succ_of_ne_zero (Nat.pos_iff_ne_zero.mp (maximal.nonempty r hr))
    obtain ⟨c, n⟩ := r
    simp only at hk
    subst hk
    simp [Run.text, List.replicate_succ]
  rw [List.filterMap_congr each, List.filterMap_some]

theorem maximal_runs (text : Text) : Run.Maximal text.runs := by
  constructor
  · intro r hr
    have member : r.text ∈ text.splitBy (· == ·) := by
      rw [← map_text_runs]
      exact List.mem_map_of_mem hr
    have nonempty := List.ne_nil_of_mem_splitBy member
    by_contra none
    have : r.length = 0 := by omega
    simp [Run.text, this] at nonempty
  · have chain := List.isChain_getLast_head_splitBy (· == ·) text
    rw [← map_text_runs, List.isChain_map] at chain
    apply chain.imp
    intro x y h
    obtain ⟨_, _, differ⟩ := h
    simpa [Run.text] using differ

theorem runs_eq_iff {runs : List Run} :
    text.runs = runs ↔ runs.flatMap Run.text = text ∧ Run.Maximal runs := by
  constructor
  · rintro rfl
    exact ⟨flatMap_text_runs text, maximal_runs text⟩
  · rintro ⟨rfl, maximal⟩
    exact runs_flatMap_text maximal

theorem head?_eq_head?_runs (text : Text) : text.head? = text.runs.head?.map (·.symbol) := by
  have spelled := flatMap_text_runs text
  have nonempty := (maximal_runs text).nonempty
  cases found : text.runs with
  | nil =>
      rw [found] at spelled
      simp [← spelled]
  | cons r rest =>
      rw [found] at spelled nonempty
      obtain ⟨k, hk⟩ := Nat.exists_eq_succ_of_ne_zero
        (Nat.pos_iff_ne_zero.mp (nonempty r (by simp)))
      rw [← spelled, List.flatMap_cons, Run.text, hk]
      rfl

/-- The first run, and then the runs of the rest. -/
theorem runs_replicate_append {c : Symbol} {n : Nat} (hn : 0 < n) {rest : Text}
    (ends : rest.head? ≠ some c) :
    Text.runs (List.replicate n c ++ rest) = ⟨c, n⟩ :: Text.runs rest := by
  rw [runs_eq_iff]
  refine ⟨by simp [flatMap_text_runs, Run.text], ?_, ?_⟩
  · intro r hr
    obtain rfl | hr := List.mem_cons.mp hr
    · exact hn
    · exact (maximal_runs rest).nonempty r hr
  · rw [List.isChain_cons]
    refine ⟨fun y hy same => ends ?_, (maximal_runs rest).differ⟩
    rw [head?_eq_head?_runs, Option.mem_def.mp hy]
    simp [← same]

theorem symbol_mem_of_mem_runs {r : Run} (hr : r ∈ text.runs) : r.symbol ∈ text := by
  have positive := (maximal_runs text).nonempty r hr
  rw [← flatMap_text_runs text]
  refine List.mem_flatMap.mpr ⟨r, hr, ?_⟩
  rw [Run.text, List.mem_replicate]
  exact ⟨Nat.ne_of_gt positive, rfl⟩

/-- Renaming symbols renames the runs, if different symbols of the text stay different. -/
theorem runs_map {f : Symbol → Symbol} (inj : ∀ a ∈ text, ∀ b ∈ text, f a = f b → a = b) :
    Text.runs (text.map f) = text.runs.map (Run.rename f) := by
  rw [runs_eq_iff]
  refine ⟨?_, ?_, ?_⟩
  · rw [List.flatMap_map]
    conv_rhs => rw [← flatMap_text_runs text, List.map_flatMap]
    simp [Run.rename, Run.text]
  · intro r hr
    obtain ⟨x, hx, rfl⟩ := List.mem_map.mp hr
    exact (maximal_runs text).nonempty x hx
  · rw [List.isChain_map]
    refine List.IsChain.imp_of_mem_imp ?_ (maximal_runs text).differ
    intro x y hx hy differ same
    exact differ (inj _ (symbol_mem_of_mem_runs hx) _ (symbol_mem_of_mem_runs hy) same)

end Text

end RunGrammar
