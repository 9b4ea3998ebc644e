import Mathlib
import RunGrammar.Alphabet
import RunGrammar.Proofs.Failing
import RunGrammar.Proofs.Text.Chunks

/-!
# Texts over an alphabet

The test of a text passes when all of its symbols are below the bound, and else
it reports the first one that is not. Chunk after chunk the test finds the same
symbol. Only where a text has several different symbols outside the alphabet can
the order of the chunks matter.
-/

namespace RunGrammar.Alphabet

variable {text : Text} {size : Nat}

theorem check_of_below (below : ∀ c ∈ text, c.toNat < size) : check text size = .ok () := by
  have none : text.find? (fun c => size ≤ c.toNat) = none := by
    rw [List.find?_eq_none]
    intro c hc
    simpa using below c hc
  simp only [check, none]

/-- The first symbol outside the alphabet is reported. -/
theorem check_of_find? {c : Symbol} (h : text.find? (fun c => size ≤ c.toNat) = some c) :
    check text size = .error (.outsideAlphabet c.toNat size) := by
  simp only [check, h]

theorem exists_find?_of_outside (outside : ∃ c ∈ text, size ≤ c.toNat) :
    ∃ c ∈ text, size ≤ c.toNat ∧ text.find? (fun c => size ≤ c.toNat) = some c := by
  obtain ⟨d, hd, high⟩ := outside
  have some : (text.find? fun c => size ≤ c.toNat).isSome := by
    rw [List.find?_isSome]
    exact ⟨d, hd, by simpa using high⟩
  obtain ⟨c, found⟩ := Option.isSome_iff_exists.mp some
  exact ⟨c, List.mem_of_find?_eq_some found, by simpa using List.find?_some found, found⟩

theorem check_append (text rest : Text) (size : Nat) :
    check (text ++ rest) size = check text size >>= fun _ => check rest size := by
  unfold check
  rw [List.find?_append]
  cases text.find? fun c => size ≤ c.toNat with
  | none => rfl
  | some c => rfl

theorem check_flatten (parts : List Text) (size : Nat) :
    check parts.flatten size = parts.forM fun part => check part size := by
  induction parts with
  | nil => rfl
  | cons part parts ih => rw [List.flatten_cons, check_append, ih, Failing.forM_cons]

theorem checkIn_eq (chunks : List Chunk) (symbols : Array Symbol) (size : Nat) :
    checkIn chunks symbols size = check (chunks.flatMap (·.slice symbols)) size := by
  rw [List.flatMap_def, check_flatten, Failing.forM_map, checkIn]

/-- Chunks of a text that is cut up, from left to right, report the same symbol. -/
theorem checkIn_split (parts : Nat) (text : Text) (size : Nat) :
    checkIn (Chunk.split text.length parts) text.toArray size = check text size := by
  rw [checkIn_eq, Chunk.flatMap_slice_split]

/-- If at most one symbol lies outside the alphabet, the chunks may report in any order. -/
theorem checkIn_perm {chunks chunks' : List Chunk} (perm : chunks'.Perm chunks)
    {symbols : Array Symbol} (one : ∀ c ∈ chunks.flatMap (·.slice symbols),
      ∀ d ∈ chunks.flatMap (·.slice symbols), size ≤ c.toNat → size ≤ d.toNat → c = d) :
    checkIn chunks' symbols size = checkIn chunks symbols size := by
  have mem : ∀ c, c ∈ chunks'.flatMap (·.slice symbols) ↔ c ∈ chunks.flatMap (·.slice symbols) :=
    fun c => (perm.flatMap_right _).mem_iff
  rw [checkIn_eq, checkIn_eq]
  by_cases outside : ∃ c ∈ chunks.flatMap (·.slice symbols), size ≤ c.toNat
  · obtain ⟨c, hc, high, found⟩ := exists_find?_of_outside outside
    obtain ⟨d, hd, high', found'⟩ := exists_find?_of_outside ⟨c, (mem c).mpr hc, high⟩
    rw [check_of_find? found, check_of_find? found', one c hc d ((mem d).mp hd) high high']
  · push Not at outside
    rw [check_of_below outside, check_of_below fun c hc => outside c ((mem c).mp hc)]

end RunGrammar.Alphabet
