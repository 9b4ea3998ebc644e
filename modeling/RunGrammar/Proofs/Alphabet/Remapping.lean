import Mathlib
import RunGrammar.Proofs.Alphabet.Letters

/-!
# The dense form of a text

A dense text with its mapping is the dense form of a text if the mapping lists
the letters of the text in ascending order and leads from every symbol back to
the one that was in its place. There is one dense form of every text, so whatever
has these properties is what `replaceLetters` answers, and `replaceLettersIn` with any
number of chunks. A text that is dense already is its own dense form.
-/

namespace RunGrammar.Alphabet

variable {text : Text} {c : Symbol}

/-- There is one ascending list of given symbols. -/
theorem ascending_unique {xs ys : List Symbol} (hx : xs.Pairwise (· < ·)) (hy : ys.Pairwise (· < ·))
    (same : ∀ c, c ∈ xs ↔ c ∈ ys) : xs = ys := by
  have perm : xs.Perm ys := (List.perm_ext_iff_of_nodup hx.nodup hy.nodup).mpr same
  exact perm.eq_of_pairwise (fun a b _ _ h h' => absurd h' (UInt32.lt_asymm h)) hx hy

/-- There are no more symbols than ids in an ascending sequence. -/
theorem length_le_of_ascending {xs : List Symbol} (ascending : xs.Pairwise (· < ·)) :
    xs.length ≤ idSpace := by
  by_contra long
  have inside : idSpace < xs.length := Nat.not_le.mp long
  have small := le_of_getElem?_ascending ascending (List.getElem?_eq_getElem inside)
  have bound : (xs[idSpace]).toNat < idSpace := Symbol.toNat_lt_idSpace _
  omega

/-- In an ascending sequence a symbol has one place. -/
theorem toNat_rank_of_getElem? {mapping : Array Symbol}
    (ascending : mapping.toList.Pairwise (· < ·)) {i : Nat} (found : mapping[i]? = some c) :
    (rank mapping c).toNat = i := by
  have place : mapping.toList[i]? = some c := by simpa using found
  obtain ⟨inside, rfl⟩ := List.getElem?_eq_some_iff.mp place
  have value := toNat_rank ascending (List.getElem_mem inside)
  simpa only [Array.toArray_toList, ascending.nodup.idxOf_getElem] using value

namespace Dense

/-- What the symbols of the text lead to. -/
def entries (d : Dense) : List (Option Symbol) := d.text.map fun c => d.mapping[c.toNat]?

theorem entry_mem {d : Dense} (hc : c ∈ d.text) : d.mapping[c.toNat]? ∈ d.entries :=
  List.mem_map_of_mem hc

theorem mem_entries {d : Dense} {v : Symbol} :
    some v ∈ d.entries ↔ ∃ c ∈ d.text, d.mapping[c.toNat]? = some v :=
  List.mem_map

/-- `d` is the dense form of this text. -/
structure Remaps (d : Dense) (text : Text) : Prop where
  ascending : d.mapping.toList.Pairwise (· < ·)
  /-- The entries of the mapping are the letters of the text. -/
  mem_iff : ∀ c, c ∈ d.mapping ↔ c ∈ text
  /-- Each symbol has an entry, which is the symbol that the text has in the same place. -/
  spells : d.entries = text.map some

variable {d : Dense}

theorem Remaps.exists_entry (r : d.Remaps text) (hc : c ∈ d.text) :
    ∃ v ∈ text, d.mapping[c.toNat]? = some v := by
  have member : d.mapping[c.toNat]? ∈ text.map some := r.spells ▸ entry_mem hc
  obtain ⟨v, hv, entry⟩ := List.mem_map.mp member
  exact ⟨v, hv, entry.symm⟩

theorem Remaps.fits (r : d.Remaps text) : d.Fits where
  ascending := r.ascending
  inside c hc := by
    obtain ⟨v, _, entry⟩ := r.exists_entry hc
    exact (Array.getElem?_eq_some_iff.mp entry).1

/-- Every text has one dense form. -/
theorem Remaps.eq_dense (r : d.Remaps text) : d = dense text := by
  have mapping : d.mapping = letters text := by
    apply Array.toList_inj.mp
    apply ascending_unique r.ascending (pairwise_letters text)
    intro c
    rw [Array.mem_toList_iff, r.mem_iff, mem_letters]
  -- The entry of a symbol has this symbol as its rank.
  have back : ∀ c ∈ d.text, rank d.mapping (d.mapping[c.toNat]?.getD 0) = c := by
    intro c hc
    obtain ⟨v, _, entry⟩ := r.exists_entry hc
    rw [entry, Option.getD_some]
    exact UInt32.toNat_inj.mp (toNat_rank_of_getElem? r.ascending entry)
  have symbols : d.text = text.map (rank d.mapping) := by
    calc
      d.text = d.text.map fun c => rank d.mapping (d.mapping[c.toNat]?.getD 0) :=
        ((List.map_congr_left back).trans (List.map_id' _)).symm
      _ = d.entries.map fun v => rank d.mapping (v.getD 0) := by
        simp only [entries, List.map_map, Function.comp_def]
      _ = text.map (rank d.mapping) := by
        simp only [r.spells, List.map_map, Function.comp_def, Option.getD_some]
  obtain ⟨symbolsOf, entries⟩ := d
  subst mapping
  exact congrArg (Dense.mk · (letters text)) symbols

end Dense

theorem remaps_dense (text : Text) : (dense text).Remaps text where
  ascending := pairwise_letters text
  mem_iff c := by
    rw [← Array.mem_toList_iff]
    exact mem_letters
  spells := by
    simp only [Dense.entries, dense, List.map_map]
    apply List.map_congr_left
    intro c hc
    have found := getElem?_rank (pairwise_letters text) (mem_letters.mpr hc)
    change (letters text)[(rank (letters text) c).toNat]? = some c
    simpa only [Array.toArray_toList, Array.getElem?_toList] using found

/-- The mapping that leaves the symbols below `k` as they are. -/
def identity (k : Nat) : Array Symbol := (Array.range k).map .ofNat

theorem getElem?_identity {k : Nat} (h : c.toNat < k) : (identity k)[c.toNat]? = some c := by
  simp [identity, h]

theorem mem_identity {k : Nat} (small : k ≤ idSpace) : c ∈ identity k ↔ c.toNat < k := by
  constructor
  · intro member
    obtain ⟨i, hi, rfl⟩ : ∃ i < k, UInt32.ofNat i = c := by simpa [identity] using member
    rwa [UInt32.toNat_ofNat_of_lt' (Nat.lt_of_lt_of_le hi small)]
  · intro inside
    exact Array.mem_of_getElem? (getElem?_identity inside)

theorem pairwise_identity {k : Nat} (small : k ≤ idSpace) :
    (identity k).toList.Pairwise (· < ·) := by
  have entries : (identity k).toList = (List.range k).map .ofNat := by simp [identity]
  rw [entries, List.pairwise_map]
  apply List.pairwise_lt_range.imp_of_mem
  intro i j hi hj less
  have hi' : i < idSpace := Nat.lt_of_lt_of_le (List.mem_range.mp hi) small
  have hj' : j < idSpace := Nat.lt_of_lt_of_le (List.mem_range.mp hj) small
  rwa [UInt32.lt_iff_toNat_lt, UInt32.toNat_ofNat_of_lt' hi', UInt32.toNat_ofNat_of_lt' hj']

/-- A dense text uses all symbols below the number of its letters, so it is its own dense form. -/
theorem Dense.Remaps.again {d : Dense} (r : d.Remaps text) :
    (Dense.mk d.text (identity d.mapping.size)).Remaps d.text := by
  have small : d.mapping.size ≤ idSpace := by
    simpa only [Array.length_toList] using length_le_of_ascending r.ascending
  refine ⟨pairwise_identity small, ?_, ?_⟩
  · intro c
    rw [mem_identity small]
    constructor
    · intro inside
      -- The letter with this number occurs, and no other symbol stands for it.
      have entry := Array.getElem?_eq_getElem inside
      have member := (r.mem_iff _).mp (Array.getElem_mem inside)
      have stands : some d.mapping[c.toNat] ∈ d.entries := r.spells ▸ List.mem_map_of_mem member
      obtain ⟨b, hb, same⟩ := Dense.mem_entries.mp stands
      have place : b.toNat = c.toNat := by
        rw [← toNat_rank_of_getElem? r.ascending same, toNat_rank_of_getElem? r.ascending entry]
      exact UInt32.toNat_inj.mp place ▸ hb
    · exact r.fits.inside c
  · apply List.map_congr_left
    intro c hc
    exact getElem?_identity (r.fits.inside c hc)

/-! ### Chunks -/

theorem mem_unite {s t : Std.TreeSet Symbol} : c ∈ unite s t ↔ c ∈ s ∨ c ∈ t := by
  rw [unite, Std.TreeSet.mem_insertMany_list]
  simp

theorem mem_foldl_unite (parts : List (Std.TreeSet Symbol)) (found : Std.TreeSet Symbol) :
    c ∈ parts.foldl unite found ↔ c ∈ found ∨ ∃ part ∈ parts, c ∈ part := by
  induction parts generalizing found with
  | nil => simp
  | cons part parts ih => simp [ih, mem_unite, or_assoc]

/-- The letters of some chunks are those of the symbols in them. -/
theorem lettersIn_eq (chunks : List Chunk) (symbols : Array Symbol) :
    lettersIn chunks symbols = letters (chunks.flatMap (·.slice symbols)) := by
  apply Array.toList_inj.mp
  apply ascending_unique (pairwise_toArray _) (pairwise_letters _)
  intro c
  rw [mem_letters, Std.TreeSet.toList_toArray, Std.TreeSet.mem_toList, mem_foldl_unite]
  simp

/-- The number of chunks does not show in the answer, which may be a failure. -/
theorem replaceLettersIn_eq (parts : Nat) (text : Text) (size : Nat) :
    replaceLettersIn parts text size = replaceLetters text size := by
  have checked := checkIn_split parts text size
  have found : lettersIn (Chunk.split text.length parts) text.toArray = letters text := by
    rw [lettersIn_eq, Chunk.flatMap_slice_split]
  simp only [replaceLettersIn, replaceLetters, List.size_toArray, checked, found]

end RunGrammar.Alphabet
