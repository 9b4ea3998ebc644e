import Mathlib
import RunGrammar.Proofs.Compression.Pieces
import RunGrammar.Proofs.Partition.Greedy

/-!
# The quality of the partition

The greedy classes cut at least half of the adjacencies of a text without equal
neighbours, since every symbol sees at least half of its smaller neighbours in
the other class. The left class is chosen for the more frequent direction, so at
least a quarter of the adjacencies are eligible. In particular a text of two or
more symbols has an eligible pair: pair compression never stalls.
-/

namespace RunGrammar

/-- No two neighbours are equal. -/
def Text.Distinct (text : Text) : Prop := text.IsChain (· ≠ ·)

namespace Adjacency

theorem smaller_lt_larger {a b : Symbol} (h : a ≠ b) :
    (ofNeighbours a b).smaller < (ofNeighbours a b).larger := by
  unfold ofNeighbours
  split
  · assumption
  · next falling =>
      rw [UInt32.lt_iff_toNat_lt] at falling ⊢
      have : a.toNat ≠ b.toNat := fun same => h (UInt32.toNat_inj.mp same)
      dsimp only
      omega

theorem ofText_cons_cons (a b : Symbol) (rest : Text) :
    ofText (a :: b :: rest) = ofNeighbours a b :: ofText (b :: rest) := rfl

theorem falls_ofText {text : Text} (distinct : text.Distinct) : Partition.Falls (ofText text) := by
  induction distinct with
  | nil => simp [Partition.Falls, ofText]
  | singleton a => simp [Partition.Falls, ofText]
  | cons_cons differ _ ih =>
      intro x hx
      rw [ofText_cons_cons] at hx
      obtain rfl | later := List.mem_cons.mp hx
      · exact smaller_lt_larger differ
      · exact ih x later

end Adjacency

namespace Partition

/-- An adjacency leads from one class into the other. -/
def crosses (upper : Symbol → Bool) (x : Adjacency) : Bool := upper x.larger != upper x.smaller

section Keys

variable {α : Type} (key : α → Symbol)

/-- The items with another key. -/
def without (c : Symbol) (items : List α) : List α := items.filter fun y => !(key y == c)

theorem countP_eq_add_without (c : Symbol) (test : α → Bool) (items : List α) :
    items.countP test =
      (items.countP fun y => key y == c && test y) + (without key c items).countP test := by
  rw [List.countP_eq_countP_filter_add items test (key · == c), List.countP_filter]
  congr 1
  apply List.countP_congr
  intro y _
  simp [and_comm]

theorem countP_without_self (c : Symbol) (items : List α) :
    (without key c items).countP (key · == c) = 0 := by
  rw [List.countP_eq_zero]
  intro y hy
  simpa [without] using (List.mem_filter.mp hy).2

theorem countP_without_of_ne {c d : Symbol} (h : c ≠ d) (test : α → Bool) (items : List α) :
    ((without key c items).countP fun y => key y == d && test y) =
      items.countP fun y => key y == d && test y := by
  rw [without, List.countP_filter]
  apply List.countP_congr
  intro y _
  have other : key y = d → key y ≠ c := fun hd hc => h (hc.symm.trans hd)
  simp only [Bool.and_eq_true, beq_iff_eq, Bool.not_eq_true', beq_eq_false_iff_ne]
  tauto

/-- What holds of half of the items with each key holds of half of all items. -/
theorem length_le_two_mul_countP (test : α → Bool) (items : List α)
    (half : ∀ c, items.countP (key · == c) ≤ 2 * items.countP fun x => key x == c && test x) :
    items.length ≤ 2 * items.countP test := by
  induction hn : items.length using Nat.strongRecOn generalizing items with
  | ind n ih =>
      cases items with
      | nil => simp at hn; omega
      | cons x rest =>
          -- Split off the items with the key of the first one.
          have parts := countP_eq_add_without key (key x) (fun _ => true) (x :: rest)
          have tests := countP_eq_add_without key (key x) test (x :: rest)
          simp only [Bool.and_true, List.countP_true] at parts
          have first : 0 < (x :: rest).countP (key · == key x) := by
            rw [List.countP_pos_iff]
            exact ⟨x, by simp, by simp⟩
          have others : ∀ c, (without key (key x) (x :: rest)).countP (key · == c) ≤
              2 * (without key (key x) (x :: rest)).countP fun y => key y == c && test y := by
            intro c
            by_cases same : key x = c
            · subst same
              rw [countP_without_self]
              exact Nat.zero_le _
            · have kept := countP_without_of_ne key same (fun _ => true) (x :: rest)
              simp only [Bool.and_true] at kept
              rw [kept, countP_without_of_ne key same]
              exact half c
          have smaller := ih _ (by omega) _ others rfl
          have := half (key x)
          omega

end Keys

/-- Of a symbol's smaller neighbours, those in the other class are cut off from it. -/
theorem countP_crosses_at (upper : Symbol → Bool) (adjacencies : List Adjacency) (c : Symbol) :
    (adjacencies.countP fun x => x.larger == c && crosses upper x) =
      if upper c then below upper adjacencies c else above upper adjacencies c := by
  have here : ∀ x : Adjacency, (x.larger == c && crosses upper x) =
      (x.larger == c && (upper c != upper x.smaller)) := by
    intro x
    rw [Bool.eq_iff_iff, Bool.and_eq_true, Bool.and_eq_true, beq_iff_eq]
    apply and_congr_right
    rintro rfl
    rfl
  simp only [here]
  cases upper c with
  | true => simp [below]
  | false => simp [above]

/-- A greedy partition cuts at least half of the adjacencies. -/
theorem IsGreedy.length_le_two_mul_crosses {adjacencies : List Adjacency} {upper : Symbol → Bool}
    (h : IsGreedy adjacencies upper) :
    adjacencies.length ≤ 2 * adjacencies.countP (crosses upper) := by
  apply length_le_two_mul_countP Adjacency.larger
  intro c
  have parts : adjacencies.countP (·.larger == c) =
      above upper adjacencies c + below upper adjacencies c := by
    rw [List.countP_eq_countP_filter_add adjacencies _ (fun x => upper x.smaller),
      List.countP_filter, List.countP_filter]
    rfl
  have greedy := h c
  rw [countP_crosses_at, parts]
  cases side : upper c with
  | true =>
      rw [side] at greedy
      have := of_decide_eq_true greedy.symm
      rw [if_pos rfl]
      omega
  | false =>
      rw [side] at greedy
      have := of_decide_eq_false greedy.symm
      rw [if_neg Bool.false_ne_true]
      omega

/-! ### The better direction -/

theorem isGreedy_ofText {text : Text} (distinct : text.Distinct) :
    IsGreedy (Adjacency.ofText text) (ofText text).isUpper := by
  have falls := Adjacency.falls_ofText distinct
  have sorted : Falls (Adjacency.sort (Adjacency.ofText text)) := fun x hx =>
    falls x ((Adjacency.sort_perm _).mem_iff.mp hx)
  exact (isGreedy_upperClass (Adjacency.sort_ascending _) sorted).perm (Adjacency.sort_perm _)

theorem crosses_ofNeighbours (upper : Symbol → Bool) (a b : Symbol) :
    crosses upper (Adjacency.ofNeighbours a b) = (upper a != upper b) := by
  unfold Adjacency.ofNeighbours crosses
  split
  · rfl
  · exact Bool.xor_comm _ _

theorem countP_crosses_eq (upper : Std.TreeSet Symbol) (text : Text) :
    (Adjacency.ofText text).countP (crosses upper.contains) =
      (Crossings.ofText upper text).upwards + (Crossings.ofText upper text).downwards := by
  induction text with
  | nil => rfl
  | cons a rest ih =>
      cases rest with
      | nil => rfl
      | cons b rest =>
          rw [Adjacency.ofText_cons_cons, List.countP_cons, ih, crosses_ofNeighbours]
          simp only [Crossings.ofText, List.tail_cons, List.zip_cons_cons, List.countP_cons]
          cases upper.contains a <;> cases upper.contains b <;> simp <;> omega

theorem eligibleCount_choose (upper : Std.TreeSet Symbol) (text : Text) :
    (choose upper (Crossings.ofText upper text)).eligibleCount text =
      max (Crossings.ofText upper text).upwards (Crossings.ofText upper text).downwards := by
  unfold eligibleCount
  by_cases down : (Crossings.ofText upper text).upwards < (Crossings.ofText upper text).downwards
  · rw [Nat.max_eq_right (Nat.le_of_lt down)]
    apply List.countP_congr
    rintro ⟨a, b⟩ _
    simp [eligible, isLeft, isUpper, choose, down]
  · rw [Nat.max_eq_left (Nat.not_lt.mp down)]
    apply List.countP_congr
    rintro ⟨a, b⟩ _
    simp [eligible, isLeft, isUpper, choose, down]

theorem length_ofText (text : Text) : (Adjacency.ofText text).length = text.length - 1 := by
  simp [Adjacency.ofText]

/-- The number of neighbours that are in different classes. -/
def cutCount (p : Partition) (text : Text) : Nat :=
  (text.zip text.tail).countP fun (a, b) => p.isUpper a != p.isUpper b

theorem countP_crosses_ofText (p : Partition) (text : Text) :
    (Adjacency.ofText text).countP (crosses p.isUpper) = p.cutCount text := by
  have zipped : Adjacency.ofText text =
      (text.zip text.tail).map fun (a, b) => Adjacency.ofNeighbours a b := by
    simp [Adjacency.ofText, List.zip, List.map_zipWith]
  simp only [zipped, cutCount, List.countP_map]
  apply List.countP_congr
  rintro ⟨a, b⟩ _
  simp [crosses_ofNeighbours]

/-- At least half of the neighbours of a text are in different classes. -/
theorem length_le_two_mul_cutCount {text : Text} (distinct : text.Distinct) :
    text.length - 1 ≤ 2 * (ofText text).cutCount text := by
  have cut := (isGreedy_ofText distinct).length_le_two_mul_crosses
  simpa only [length_ofText, countP_crosses_ofText] using cut

/-- At least a quarter of the neighbours of a text are eligible. -/
theorem length_le_four_mul_eligibleCount {text : Text} (distinct : text.Distinct) :
    text.length - 1 ≤ 4 * (ofText text).eligibleCount text := by
  have cut := (isGreedy_ofText distinct).length_le_two_mul_crosses
  have crossings := countP_crosses_eq (ofText text).upper text
  have chosen := eligibleCount_choose (ofText text).upper text
  rw [length_ofText] at cut
  change _ ≤ 2 * (Adjacency.ofText text).countP (crosses (ofText text).upper.contains) at cut
  change (ofText text).eligibleCount text = _ at chosen
  omega

theorem eligibleCount_pos {text : Text} (distinct : text.Distinct) (long : 1 < text.length) :
    0 < (ofText text).eligibleCount text := by
  have := length_le_four_mul_eligibleCount distinct
  omega

/-- The partition of a text without equal neighbours puts at least half of its neighbours into
different classes and makes at least a quarter of them eligible. In a text of two or more symbols
some pair is eligible, and eligible pairs never share a symbol. -/
theorem quality_ofText {text : Text} (long : 2 ≤ text.length) (distinct : text.Distinct) :
    text.length - 1 ≤ 2 * (ofText text).cutCount text ∧
      text.length - 1 ≤ 4 * (ofText text).eligibleCount text ∧
      1 ≤ (ofText text).eligibleCount text ∧
      ∀ (i : Nat) (a b c : Symbol),
        text[i]? = some a → text[i + 1]? = some b → text[i + 2]? = some c →
        ¬ ((ofText text).eligible a b = true ∧ (ofText text).eligible b c = true) := by
  refine ⟨length_le_two_mul_cutCount distinct, length_le_four_mul_eligibleCount distinct,
    eligibleCount_pos distinct long, ?_⟩
  rintro i a b c _ _ _ ⟨first, second⟩
  simp [not_eligible_of_eligible first c] at second

/-- Letters that are far apart, each with neighbours on both sides. -/
theorem quality_ofText_gaps :
    2 ≤ ([9, 2, 700, 2, 9, 700] : Text).length ∧ Text.Distinct [9, 2, 700, 2, 9, 700] ∧
      5 ≤ 2 * (ofText [9, 2, 700, 2, 9, 700]).cutCount [9, 2, 700, 2, 9, 700] ∧
      5 ≤ 4 * (ofText [9, 2, 700, 2, 9, 700]).eligibleCount [9, 2, 700, 2, 9, 700] := by
  have long : 2 ≤ ([9, 2, 700, 2, 9, 700] : Text).length := by decide
  have distinct : Text.Distinct [9, 2, 700, 2, 9, 700] := by simp [Text.Distinct]
  obtain ⟨cut, eligible, _⟩ := quality_ofText long distinct
  exact ⟨long, distinct, cut, eligible⟩

end Partition

end RunGrammar
