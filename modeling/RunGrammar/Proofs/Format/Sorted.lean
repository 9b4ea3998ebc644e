import Mathlib
import RunGrammar.Format.Choice
import RunGrammar.Proofs.Bits.Codes
import RunGrammar.Proofs.Format.Header
import RunGrammar.Proofs.Grammar.Unordered

/-!
# The format that sorts the rules

Storing a grammar in the sorted format renumbers it once, and reading it
renumbers it again, so what comes back is the grammar with other symbols for its
rules. Three things have to fit together for this. The reader gets pairs and
blocks apart by their number only, so in storage all pairs must come first. The
fields are stored as differences, each of which has to be a word with a sign.
And the stored rules must still have an order in which operands come first: they
have the one in which the grammar had them.
-/

namespace RunGrammar.SortedFormat

/-! ### The order of storage -/

section Order

theorem stored_eq_true_iff {r s : Rule} : stored r s = true ↔
    if r.isBlock = s.isBlock then
      r.first.toNat < s.first.toNat ∨
        r.first.toNat = s.first.toNat ∧ r.second.toNat ≤ s.second.toNat
    else s.isBlock = true := by
  unfold stored Rule.le
  split
  · simp [UInt32.lt_iff_toNat_lt, UInt32.le_iff_toNat_le, UInt32.toNat_inj]
  · rfl

theorem stored_trans {r s u : Rule} (first : stored r s) (second : stored s u) : stored r u := by
  rw [stored_eq_true_iff] at first second ⊢
  cases hr : r.isBlock <;> cases hs : s.isBlock <;> cases hu : u.isBlock <;>
    simp [hr, hs, hu] at first second ⊢ <;> omega

theorem stored_total (r s : Rule) : stored r s || stored s r := by
  rw [Bool.or_eq_true, stored_eq_true_iff, stored_eq_true_iff]
  cases hr : r.isBlock <;> cases hs : s.isBlock <;> simp <;> omega

/-- Pairs come before blocks. -/
theorem isBlock_of_stored {r s : Rule} (h : stored r s) (block : r.isBlock) : s.isBlock := by
  by_contra pair
  simp [stored, block, pair] at h

theorem exhausts_storageOrder (rules : List Rule) :
    Grammar.Exhausts (storageOrder rules) rules.length := by
  have sorted := (List.mergeSort_perm rules.zipIdx fun x y => stored x.1 y.1).map Prod.snd
  rwa [List.zipIdx_map_snd, ← List.range_eq_range'] at sorted

/-- A list in which the members of one kind come last falls into its two kinds. -/
theorem filter_not_append_filter {α : Type} {p : α → Bool} {xs : List α}
    (last : xs.Pairwise fun x y => p x → p y) :
    xs.filter (fun x => !p x) ++ xs.filter p = xs := by
  induction xs with
  | nil => rfl
  | cons x xs ih =>
      obtain ⟨after, rest⟩ := List.pairwise_cons.mp last
      by_cases kind : p x
      · have all : ∀ y ∈ xs, p y = true := fun y hy => after y hy kind
        have none : xs.filter (fun y => !p y) = [] := by simpa using all
        simp [kind, none, List.filter_eq_self.mpr all]
      · simp [kind, ih rest]

variable {g : Grammar}

theorem storedRules_eq_arranged (g : Grammar) :
    storedRules g = Grammar.arranged (Grammar.renumber g.terminals (storageIds g))
      g.bareRules.toArray (storageOrder g.bareRules) := rfl

theorem storedRules_eq_map (g : Grammar) :
    storedRules g = (g.bareRules.zipIdx.mergeSort fun x y => stored x.1 y.1).map fun x =>
      x.1.rename (Grammar.renumber g.terminals (storageIds g)) := by
  have found : ∀ x ∈ g.bareRules.zipIdx.mergeSort (fun x y => stored x.1 y.1),
      g.bareRules.toArray[x.2]? = some x.1 := by
    intro x hx
    rw [List.mem_mergeSort, List.mem_zipIdx_iff_getElem?] at hx
    simpa using hx
  rw [storedRules_eq_arranged, Grammar.arranged, storageOrder, List.filterMap_map,
    ← List.filterMap_eq_map]
  apply List.filterMap_congr
  intro x hx
  show (g.bareRules.toArray[x.2]?).map _ = some _
  rw [found x hx]
  rfl

/-- In storage, the pairs are followed by the blocks. -/
theorem pairs_append_blocks (g : Grammar) :
    (storedRules g).filter (fun r => !r.isBlock) ++ (storedRules g).filter (·.isBlock) =
      storedRules g := by
  apply filter_not_append_filter
  rw [storedRules_eq_map, List.pairwise_map]
  have sorted : (g.bareRules.zipIdx.mergeSort fun x y => stored x.1 y.1).Pairwise
      fun x y : Rule × Nat => stored x.1 y.1 := by
    apply List.pairwise_mergeSort
    · exact fun _ _ _ => stored_trans
    · exact fun x y => stored_total x.1 y.1
  apply sorted.imp
  intro x y before
  rw [Rule.isBlock_rename, Rule.isBlock_rename]
  exact isBlock_of_stored before

end Order

/-! ### Differences -/

/-- The fields of a rule, and what the reader starts from, are symbols or numbers of copies. -/
def IsField (x : Int) : Prop := 0 ≤ x ∧ x < 2 ^ 32

theorem isField_toNat (v : UInt32) : IsField v.toNat :=
  ⟨Int.natCast_nonneg _, by exact_mod_cast v.toNat_lt⟩

theorem isField_zero : IsField 0 := ⟨Int.le_refl 0, by decide⟩

/-- A field is read back as its difference from another one. -/
theorem reads_readField {previous value : Int} (hp : IsField previous) (hv : IsField value) :
    Reads (readField previous) (Bits.signed (value - previous)) value := by
  obtain ⟨lowP, highP⟩ := hp
  obtain ⟨lowV, highV⟩ := hv
  have difference : Bits.isSignedWord (value - previous) = true :=
    Bits.isSignedWord_iff.mpr (by omega)
  have word : Bits.isSignedWord value = true := Bits.isSignedWord_iff.mpr (by omega)
  have sum : previous + (value - previous) = value := by omega
  apply (Reads.signed difference).bind_nil
  intro position rest
  simp only [sum, word, Int.not_lt.mpr lowV]
  rfl

theorem four_mul_length_le (previous : Int × Int) (values : List (Int × Int)) :
    4 * values.length ≤ (differenceBits previous values).length := by
  induction values generalizing previous with
  | nil => exact Nat.le_refl 0
  | cons x xs ih =>
      have first := Bits.two_le_length_signed (x.1 - previous.1)
      have second := Bits.two_le_length_signed (x.2 - previous.2)
      have rest := ih x
      simp only [differenceBits, List.length_append, List.length_cons]
      omega

/-- Rules of one kind are read back as the differences of their fields. -/
theorem reads_readRules {make : Nat → Nat → Except Failure Rule} {rules : List Rule}
    (made : ∀ r ∈ rules, make r.first.toNat r.second.toNat = .ok r) {previous : Int × Int}
    (hp : IsField previous.1 ∧ IsField previous.2) (done : Array Rule) :
    Reads (readRules make rules.length previous done)
      (differenceBits previous (rules.map fields)) (done ++ rules.toArray) := by
  induction rules generalizing previous done with
  | nil => simpa [readRules, differenceBits] using Reads.pure done
  | cons r rules ih =>
      have first := reads_readField hp.1 (isField_toNat r.first)
      have second := reads_readField hp.2 (isField_toNat r.second)
      have here : make (fields r).1.toNat (fields r).2.toNat = .ok r := made r (by simp)
      have next : IsField (fields r).1 ∧ IsField (fields r).2 :=
        ⟨isField_toNat r.first, isField_toNat r.second⟩
      have rest := ih (fun s hs => made s (by simp [hs])) next (done.push r)
      have behind : done.push r ++ rules.toArray = done ++ (r :: rules).toArray := by simp
      rw [behind] at rest
      rw [List.map_cons, differenceBits, List.append_assoc]
      apply first.bind
      apply second.bind
      exact (Reads.ofExcept here).bind rest

theorem makePair_eq {r : Rule} (pair : r.isBlock = false) :
    makePair r.first.toNat r.second.toNat = .ok r := by
  cases r with
  | pair a b =>
      simp only [makePair, Rule.first, Rule.second, symbolOfNat_toNat]
      rfl
  | block a n => cases pair

theorem makeBlock_eq {r : Rule} (block : r.isBlock = true) :
    makeBlock r.first.toNat r.second.toNat = .ok r := by
  cases r with
  | pair a b => cases block
  | block a n =>
      simp only [makeBlock, Rule.first, Rule.second, symbolOfNat_toNat, countOfNat_toNat]
      rfl

/-! ### The whole format -/

variable {g : Grammar}

theorem reads_readHeader {h : Header} (terminals : h.terminals < wordSpace - 1)
    (size : h.size < wordSpace - 1) (blocks : h.blocks < wordSpace - 1)
    (root : h.root < wordSpace - 1) : Reads readHeader (headerBits h) h := by
  have fields := (Reads.bit h.isEmpty).bind
    (f := fun isEmpty => do
      let terminals ← Read.gammaFromZero
      let size ← Read.gammaFromZero
      let blocks ← Read.gammaFromZero
      let root ← Read.gammaFromZero
      return ({ isEmpty, size, terminals, root, blocks } : Header)) <|
    (Reads.gammaFromZero terminals).bind <|
    (Reads.gammaFromZero size).bind <|
    (Reads.gammaFromZero blocks).bind <|
    (Reads.gammaFromZero root).map
  simpa [headerBits, readHeader] using fields

/-- What the stored rules and the stored root make up, if their order does not count. -/
def storedGrammar (g : Grammar) : Grammar :=
  .loose g.terminals (storedRules g) (g.root.map (Grammar.renumber g.terminals (storageIds g)))

theorem renumbers_storedGrammar (fits : g.terminals + g.size ≤ idSpace) :
    ∃ σ, Grammar.Renumbers σ g (storedGrammar g) := by
  have all : Grammar.Exhausts (storageOrder g.bareRules) g.size :=
    g.length_bareRules ▸ exhausts_storageOrder g.bareRules
  exact ⟨_, Grammar.renumbers_numbering all fits rfl Grammar.bareRules_loose rfl⟩

/-- The rules that were stored make up a grammar. -/
theorem ofUnordered_storedRules (valid : g.validate = .ok ())
    (fits : g.terminals + g.size ≤ idSpace) :
    ∃ h, Grammar.ofUnordered g.terminals (storedRules g) (storedGrammar g).root = .ok h ∧
      Grammar.Settles g.terminals (storedRules g) (storedGrammar g).root h := by
  obtain ⟨o, known⟩ := Grammar.validate_eq_ok_iff.mp valid
  obtain ⟨σ, ren⟩ := renumbers_storedGrammar fits
  have count : (storedRules g).length = g.size := by
    rw [← ren.size, storedGrammar, Grammar.size_loose]
  obtain made | ⟨e, _, reason⟩ :=
    Grammar.ofUnordered_answers g.terminals (storedRules g) (storedGrammar g).root
  · exact made
  · refine absurd ⟨count ▸ fits, ?_, ?_⟩ reason
    · have orderable := ren.orderable o (by rwa [ren.size, ren.terminals])
      rwa [storedGrammar, Grammar.bareRules_loose] at orderable
    · intro v hv
      rw [ren.root, Option.map_eq_some_iff] at hv
      obtain ⟨u, hu, rfl⟩ := hv
      rw [count, ← ren.size]
      exact ren.known (known u hu)

theorem reads_storedHeader (fits : g.terminals + g.size ≤ idSpace) :
    Reads readHeader (headerBits (storedHeader g)) (storedHeader g) := by
  have space : idSpace < wordSpace - 1 := by decide
  have blocks := g.blocks_le_size
  apply reads_readHeader
  · show g.terminals < wordSpace - 1
    omega
  · show g.size < wordSpace - 1
    omega
  · show g.blocks < wordSpace - 1
    omega
  · refine Nat.lt_trans ?_ space
    cases found : g.root with
    | none => simp [storedHeader, found, idSpace]
    | some v => simpa [storedHeader, found] using Symbol.toNat_lt_idSpace _

theorem rootSymbol_storedHeader (g : Grammar) :
    (storedHeader g).rootSymbol = .ok (storedGrammar g).root := by
  cases found : g.root with
  | none =>
      simp [Header.rootSymbol, storedHeader, Header.ofGrammar, Grammar.isEmpty, storedGrammar,
        found]
  | some v =>
      have small := Symbol.toNat_lt_idSpace (Grammar.renumber g.terminals (storageIds g) v)
      simp [Header.rootSymbol, storedHeader, Header.ofGrammar, Grammar.isEmpty, storedGrammar,
        found, small]

/-- Reading what was stored ends with putting the stored rules into order. -/
theorem reads_read {h : Grammar} (fits : g.terminals + g.size ≤ idSpace)
    (made : Grammar.ofUnordered g.terminals (storedRules g) (storedGrammar g).root = .ok h) :
    Reads read (bits g) h := by
  obtain ⟨σ, ren⟩ := renumbers_storedGrammar fits
  let pairs := (storedRules g).filter fun r => !r.isBlock
  let blocks := (storedRules g).filter (·.isBlock)
  have both : pairs ++ blocks = storedRules g := pairs_append_blocks g
  have count : (storedRules g).length = g.size := by
    rw [← ren.size, storedGrammar, Grammar.size_loose]
  have blockCount : blocks.length = g.blocks := by
    rw [← ren.blocks, Grammar.blocks_eq_countP, storedGrammar, Grammar.bareRules_loose,
      List.countP_eq_length_filter]
  have pairCount : pairs.length = g.size - g.blocks := by
    have := congrArg List.length both
    rw [List.length_append] at this
    omega
  have start : IsField (0, 0).1 ∧ IsField (0, 0).2 := ⟨isField_zero, isField_zero⟩
  have readPairs : Reads (readRules makePair pairs.length (0, 0) #[])
      (differenceBits (0, 0) (pairs.map fields)) (#[] ++ pairs.toArray) :=
    reads_readRules (fun r hr => makePair_eq (by simpa using (List.mem_filter.mp hr).2)) start #[]
  have readBlocks : Reads (readRules makeBlock blocks.length (0, 0) (#[] ++ pairs.toArray))
      (differenceBits (0, 0) (blocks.map fields)) (#[] ++ pairs.toArray ++ blocks.toArray) :=
    reads_readRules (fun r hr => makeBlock_eq (List.mem_filter.mp hr).2) start _
  -- A stored rule takes at least four bits, so the size that the header states is one the bits can
  -- hold and the reader goes on.
  have room : (storedHeader g).size * 4 ≤ (differenceBits (0, 0) (pairs.map fields) ++
      differenceBits (0, 0) (blocks.map fields)).length := by
    have first := four_mul_length_le (0, 0) (pairs.map fields)
    have second := four_mul_length_le (0, 0) (blocks.map fields)
    have size : (storedHeader g).size = g.size := rfl
    rw [List.length_map] at first second
    rw [List.length_append, size]
    omega
  have blocksFit : ¬ (storedHeader g).size < (storedHeader g).blocks :=
    Nat.not_lt.mpr g.blocks_le_size
  rw [bits, List.append_assoc]
  apply (reads_storedHeader fits).bind
  rw [if_neg blocksFit]
  refine Header.reads_checkSize ?_ room
  rw [pairCount] at readPairs
  rw [blockCount] at readBlocks
  apply readPairs.bind
  apply readBlocks.bind_nil
  apply Reads.ofExcept
  have collected : (#[] ++ pairs.toArray ++ blocks.toArray).toList = storedRules g := by
    simpa using both
  rw [collected, rootSymbol_storedHeader]
  exact made

end RunGrammar.SortedFormat

namespace RunGrammar

/-- A sound grammar with its own lengths comes back from the sorted format with other symbols for
its rules: a permutation of the symbols that keeps the terminals takes each rule and the root to
where they are now, and every symbol derives what it derived before, with the same length on
record. -/
theorem sorted_decode_encode {g : Grammar} (valid : g.validate = .ok ())
    (fits : g.terminals + g.size ≤ idSpace) (computed : g.computeLengths = g) :
    ∃ (h : Grammar) (σ : Equiv.Perm Symbol),
      Format.sorted.decode (Format.sorted.encode g) = .ok h ∧
      h.terminals = g.terminals ∧ h.size = g.size ∧ h.blocks = g.blocks ∧
      h.isEmpty = g.isEmpty ∧ h.validate = .ok () ∧
      (∀ v, v.toNat < g.terminals → σ v = v) ∧
      (∀ v, h.rule? (σ v) = (g.rule? v).map (Rule.rename σ)) ∧
      h.root = g.root.map σ ∧
      ∀ v, g.Known v → h.expand (σ v) = g.expand v ∧ h.length (σ v) = g.length v := by
  have o := (Grammar.validate_eq_ok_iff.mp valid).1
  have sized := (Grammar.computeLengths_eq_self_iff o).mp computed
  obtain ⟨σ, stored⟩ := SortedFormat.renumbers_storedGrammar fits
  obtain ⟨h, made, settled⟩ := SortedFormat.ofUnordered_storedRules valid fits
  obtain ⟨τ, ordered⟩ := settled.renumbers
  have o' := (Grammar.validate_eq_ok_iff.mp settled.valid).1
  have ren : Grammar.Renumbers (σ.trans τ) g h := stored.trans ordered
  exact ⟨h, σ.trans τ, (SortedFormat.reads_read fits made).run_pack, ren.terminals, ren.size,
    ren.blocks, ren.isEmpty, settled.valid, ren.fixes, ren.rule?, ren.root,
    fun v known => ⟨ren.expand o o' known, ren.length o o' sized settled.sized known⟩⟩

/-- The pair of this grammar is stored before the blocks that it needs. -/
theorem sorted_decode_encode_saturated :
    saturated.validate = .ok () ∧ saturated.terminals + saturated.size ≤ idSpace ∧
      saturated.computeLengths = saturated ∧
      ∃ (h : Grammar) (σ : Equiv.Perm Symbol),
        Format.sorted.decode (Format.sorted.encode saturated) = .ok h ∧
        h.terminals = saturated.terminals ∧ h.size = saturated.size ∧
        h.blocks = saturated.blocks ∧ h.isEmpty = saturated.isEmpty ∧ h.validate = .ok () ∧
        (∀ v, v.toNat < saturated.terminals → σ v = v) ∧
        (∀ v, h.rule? (σ v) = (saturated.rule? v).map (Rule.rename σ)) ∧
        h.root = saturated.root.map σ ∧
        ∀ v, saturated.Known v →
          h.expand (σ v) = saturated.expand v ∧ h.length (σ v) = saturated.length v := by
  have valid : saturated.validate = .ok () := by rfl
  have fits : saturated.terminals + saturated.size ≤ idSpace := by decide
  have computed : saturated.computeLengths = saturated := by decide
  exact ⟨valid, fits, computed, sorted_decode_encode valid fits computed⟩

end RunGrammar
