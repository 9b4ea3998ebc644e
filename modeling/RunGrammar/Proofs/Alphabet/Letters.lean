import Mathlib
import RunGrammar.Proofs.Alphabet.Bound
import RunGrammar.Proofs.Partition.Invariance
import RunGrammar.Proofs.Text.Ascending

/-!
# Dense texts stand for plain ones

The mapping of a dense text is strictly ascending and has an entry for each of
its symbols. So going back to letters keeps the order of the symbols, and making
a text dense, or pruning one, leaves what it stands for as it was.
-/

namespace RunGrammar.Alphabet

variable {text : Text} {xs : List Symbol} {c : Symbol}

theorem pairwise_toArray (s : Std.TreeSet Symbol) : s.toArray.toList.Pairwise (· < ·) := by
  rw [Std.TreeSet.toList_toArray]
  exact s.ordered_toList.imp fun h => Std.compare_eq_lt.mp h

theorem pairwise_letters (text : Text) : (letters text).toList.Pairwise (· < ·) := by
  rw [letters]
  exact pairwise_toArray _

theorem mem_letters : c ∈ (letters text).toList ↔ c ∈ text := by
  rw [letters, Std.TreeSet.toList_toArray, Std.TreeSet.mem_toList, Std.TreeSet.mem_ofList]
  simp

/-- In a strictly ascending sequence no symbol is smaller than its place. -/
theorem le_of_getElem?_ascending (ascending : xs.Pairwise (· < ·)) {i : Nat}
    (found : xs[i]? = some c) : i ≤ c.toNat := by
  induction i generalizing c with
  | zero => exact Nat.zero_le _
  | succ i ih =>
      obtain ⟨inside, rfl⟩ := List.getElem?_eq_some_iff.mp found
      have before := ih (List.getElem?_eq_getElem (Nat.lt_of_succ_lt inside))
      have step := List.pairwise_iff_getElem.mp ascending i (i + 1) (by omega) inside (by omega)
      rw [UInt32.lt_iff_toNat_lt] at step
      omega

/-- The rank of a letter is its place. -/
theorem toNat_rank (ascending : xs.Pairwise (· < ·)) (member : c ∈ xs) :
    (rank xs.toArray c).toNat = xs.idxOf c := by
  have place : frontLength (· < c) xs.toArray = xs.idxOf c := by
    refine frontLength_eq_idxOf ascending member (fun y _ h => by simpa using h) (by simp)
      fun y _ h => ?_
    have : ¬ y < c := fun h' => UInt32.lt_asymm h h'
    simpa using this
  have small := le_of_getElem?_ascending ascending (List.getElem?_idxOf member)
  rw [rank, place, UInt32.toNat_ofNat']
  exact Nat.mod_eq_of_lt (Nat.lt_of_le_of_lt small c.toNat_lt)

theorem letter_eq {mapping : Array Symbol} {v : Symbol} (found : mapping[c.toNat]? = some v) :
    letter mapping c = v := by
  rw [letter, Array.getD_eq_getD_getElem?, found]
  rfl

theorem getElem?_of_inside {mapping : Array Symbol} (inside : c.toNat < mapping.size) :
    mapping[c.toNat]? = some (letter mapping c) := by
  have found := Array.getElem?_eq_getElem inside
  rw [found, letter_eq found]

/-- A letter is found again by its rank. -/
theorem getElem?_rank (ascending : xs.Pairwise (· < ·)) (member : c ∈ xs) :
    xs[(rank xs.toArray c).toNat]? = some c := by
  rw [toNat_rank ascending member]
  exact List.getElem?_idxOf member

namespace Dense

/-- The mapping is ascending, and every symbol of the text has an entry. -/
structure Fits (d : Dense) : Prop where
  ascending : d.mapping.toList.Pairwise (· < ·)
  inside : ∀ c ∈ d.text, c.toNat < d.mapping.size

variable {d : Dense}

theorem Fits.getElem?_eq (f : d.Fits) (hc : c ∈ d.text) :
    d.mapping[c.toNat]? = some (letter d.mapping c) :=
  getElem?_of_inside (f.inside c hc)

theorem Fits.letter_mem (f : d.Fits) (hc : c ∈ d.text) : letter d.mapping c ∈ d.mapping :=
  Array.mem_of_getElem? (f.getElem?_eq hc)

theorem letter_lt_letter {mapping : Array Symbol} (ascending : mapping.toList.Pairwise (· < ·))
    {a b : Symbol} (hb : b.toNat < mapping.size) (h : a < b) :
    letter mapping a < letter mapping b := by
  have h := UInt32.lt_iff_toNat_lt.mp h
  have ha : a.toNat < mapping.size := by omega
  rw [letter_eq (Array.getElem?_eq_getElem ha), letter_eq (Array.getElem?_eq_getElem hb)]
  exact List.pairwise_iff_getElem.mp ascending a.toNat b.toNat (by simpa using ha)
    (by simpa using hb) h

/-- Going back to letters keeps the order. -/
theorem Fits.ascendingOn (f : d.Fits) : AscendingOn (letter d.mapping) d.text :=
  fun _ _ b hb h => letter_lt_letter f.ascending (f.inside b hb) h

/-! ### Pruning -/

section Pruning

variable (inside : ∀ c ∈ d.text, c.toNat < d.mapping.size)

include inside

theorem mapping_prune :
    (prune d).mapping.toList = (letters d.text).toList.map (letter d.mapping) := by
  have entries : ∀ used : List Symbol, (∀ c ∈ used, c ∈ d.text) →
      used.filterMap (fun c => d.mapping[c.toNat]?) = used.map (letter d.mapping) := by
    intro used occur
    induction used with
    | nil => rfl
    | cons c used ih =>
        have found := getElem?_of_inside (inside c (occur c (by simp)))
        rw [List.filterMap_cons, found, List.map_cons, ih fun b hb => occur b (by simp [hb])]
  rw [prune, Array.toList_filterMap]
  exact entries _ fun c hc => mem_letters.mp hc

theorem inside_prune : ∀ c ∈ (prune d).text, c.toNat < (prune d).mapping.size := by
  intro c hc
  obtain ⟨b, hb, rfl⟩ := List.mem_map.mp hc
  have member : b ∈ (letters d.text).toList := mem_letters.mpr hb
  have place := toNat_rank (pairwise_letters d.text) member
  have index := List.idxOf_lt_length_iff.mpr member
  rw [Array.toArray_toList] at place
  rwa [place, ← Array.length_toList, mapping_prune inside, List.length_map]

/-- Pruning drops entries that nothing stands for. -/
theorem plainText_prune : (Alphabet.prune d).plainText = d.plainText := by
  rw [plainText, plainText, Alphabet.prune, List.map_map]
  apply List.map_congr_left
  intro c hc
  have found := getElem?_rank (pairwise_letters d.text) (mem_letters.mpr hc)
  rw [Array.toArray_toList] at found
  apply letter_eq
  show (Alphabet.prune d).mapping[(rank (letters d.text) c).toNat]? = _
  rw [← Array.getElem?_toList, mapping_prune inside, List.getElem?_map, found]
  rfl

end Pruning

theorem Fits.prune (f : d.Fits) : (prune d).Fits := by
  refine ⟨?_, inside_prune f.inside⟩
  rw [mapping_prune f.inside, List.pairwise_map]
  apply (pairwise_letters d.text).imp_of_mem
  intro a b _ hb h
  exact letter_lt_letter f.ascending (f.inside b (mem_letters.mp hb)) h

theorem mem_of_mem_prune (f : d.Fits) {v : Symbol} (hv : v ∈ (Alphabet.prune d).mapping) :
    v ∈ d.mapping := by
  rw [← Array.mem_toList_iff, mapping_prune f.inside] at hv
  obtain ⟨c, hc, rfl⟩ := List.mem_map.mp hv
  exact f.letter_mem (mem_letters.mp hc)

end Dense

/-! ### Making a text dense -/

/-- The dense form of a text. -/
def dense (text : Text) : Dense := ⟨text.map (rank (letters text)), letters text⟩

theorem replaceLetters_of_below {size : Nat} (below : ∀ c ∈ text, c.toNat < size) :
    replaceLetters text size = .ok (dense text) := by
  rw [replaceLetters, check_of_below below]
  rfl

theorem replaceLetters_of_find? {size : Nat} (h : text.find? (fun c => size ≤ c.toNat) = some c) :
    replaceLetters text size = .error (.outsideAlphabet c.toNat size) := by
  rw [replaceLetters, check_of_find? h]
  rfl

theorem fits_dense (text : Text) : (dense text).Fits := by
  refine ⟨pairwise_letters text, ?_⟩
  intro c hc
  obtain ⟨b, hb, rfl⟩ := List.mem_map.mp hc
  have member : b ∈ (letters text).toList := mem_letters.mpr hb
  have place := toNat_rank (pairwise_letters text) member
  rw [Array.toArray_toList] at place
  rw [place, dense, ← Array.length_toList]
  exact List.idxOf_lt_length_iff.mpr member

/-- A dense text stands for the text it was made from. -/
theorem plainText_dense (text : Text) : (dense text).plainText = text := by
  rw [Dense.plainText, dense, List.map_map]
  conv_rhs => rw [← List.map_id text]
  apply List.map_congr_left
  intro c hc
  apply letter_eq
  have found := getElem?_rank (pairwise_letters text) (mem_letters.mpr hc)
  rwa [Array.toArray_toList, Array.getElem?_toList] at found

end RunGrammar.Alphabet
