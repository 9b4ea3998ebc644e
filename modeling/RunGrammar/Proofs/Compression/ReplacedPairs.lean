import Mathlib
import RunGrammar.Proofs.Compression.Phases

/-!
# What is left of pairs

The phase that replaces pairs reads the text from left to right and skips a
symbol behind every pair that it replaces. What it leaves can be said without an
order: every position looks at its neighbours only. Where an eligible pair
starts there is the symbol of the pair, where one ends there is nothing, and
everywhere else the symbol stays (`Partition.substitute`). The two agree because
no eligible pair starts where another one ends.

`Compressor.replacePairs_specified` states this of every strategy and of every
text without equal neighbours and grammar for which a compressor is ready.
-/

namespace RunGrammar

namespace Partition

variable {p : Partition} {name : Symbol → Symbol → Symbol} {a b : Symbol} {text rest : Text}

/-- Whether an eligible pair starts at a position. -/
def startsAt (p : Partition) (text : Text) (i : Nat) : Bool :=
  (text.zip text.tail)[i]?.any fun (a, b) => p.eligible a b

/-- Whether an eligible pair ends at a position. -/
def endsAt (p : Partition) (text : Text) : Nat → Bool
  | 0 => false
  | i + 1 => p.startsAt text i

/-- What a position leaves when eligible pairs become the symbols that `name` gives them. -/
def leftAt (p : Partition) (name : Symbol → Symbol → Symbol) (text : Text) (i : Nat) : Text :=
  if p.startsAt text i then ((text.zip text.tail)[i]?.map fun (a, b) => name a b).toList
  else if p.endsAt text i then []
  else text[i]?.toList

/-- The text in which all eligible pairs have become symbols. -/
def substitute (p : Partition) (name : Symbol → Symbol → Symbol) (text : Text) : Text :=
  (List.range text.length).flatMap (p.leftAt name text)

/-- The rules of the eligible pairs, from left to right. -/
def pairRules (p : Partition) (text : Text) : List Rule :=
  ((text.zip text.tail).filter fun (a, b) => p.eligible a b).map fun (a, b) => .pair a b

/-! ### Replacing all pairs at once -/

@[simp] theorem startsAt_zero (p : Partition) (a b : Symbol) (rest : Text) :
    p.startsAt (a :: b :: rest) 0 = p.eligible a b := rfl

theorem startsAt_cons_succ (p : Partition) (a : Symbol) (text : Text) (i : Nat) :
    p.startsAt (a :: text) (i + 1) = p.startsAt text i := by
  cases text <;> simp [startsAt]

/-- Where an eligible pair ends, no other one starts. -/
theorem startsAt_eq_false_of_endsAt {i : Nat} (h : p.endsAt text i = true) :
    p.startsAt text i = false := by
  induction i generalizing text with
  | zero => cases h
  | succ i ih =>
      cases text with
      | nil => rfl
      | cons a text =>
          rw [startsAt_cons_succ]
          cases i with
          | zero =>
              match text, h with
              | [], _ => rfl
              | [b], _ => rfl
              | b :: c :: rest, h => exact not_eligible_of_eligible h c
          | succ i =>
              have before : p.endsAt text (i + 1) = true := by
                rwa [endsAt, startsAt_cons_succ] at h
              exact ih before

/-- One symbol further on, a position looks at the same neighbours. -/
theorem leftAt_cons_succ (p : Partition) (name : Symbol → Symbol → Symbol) {a : Symbol}
    {text : Text} {i : Nat} (ends : p.startsAt (a :: text) i = p.endsAt text i) :
    p.leftAt name (a :: text) (i + 1) = p.leftAt name text i := by
  have zipped : ((a :: text).zip (a :: text).tail)[i + 1]? = (text.zip text.tail)[i]? := by
    cases text <;> simp
  have ended : p.endsAt (a :: text) (i + 1) = p.endsAt text i := ends
  simp only [leftAt, startsAt_cons_succ, ended, zipped, List.getElem?_cons_succ]

theorem range_flatMap_succ (n : Nat) (f : Nat → Text) :
    (List.range (n + 1)).flatMap f = f 0 ++ (List.range n).flatMap fun i => f (i + 1) := by
  rw [List.range_succ_eq_map, List.flatMap_cons, List.flatMap_map]

@[simp] theorem substitute_nil (p : Partition) (name : Symbol → Symbol → Symbol) :
    p.substitute name [] = [] := rfl

@[simp] theorem substitute_singleton (p : Partition) (name : Symbol → Symbol → Symbol)
    (a : Symbol) : p.substitute name [a] = [a] := rfl

theorem substitute_of_not_eligible (h : p.eligible a b = false) (rest : Text) :
    p.substitute name (a :: b :: rest) = a :: p.substitute name (b :: rest) := by
  have first : p.leftAt name (a :: b :: rest) 0 = [a] := by simp [leftAt, endsAt, h]
  have others : (fun i => p.leftAt name (a :: b :: rest) (i + 1)) = p.leftAt name (b :: rest) := by
    funext i
    apply leftAt_cons_succ
    cases i with
    | zero => exact h
    | succ i => exact p.startsAt_cons_succ a (b :: rest) i
  rw [substitute, List.length_cons, range_flatMap_succ, first, others]
  rfl

theorem substitute_of_eligible (h : p.eligible a b = true) (rest : Text) :
    p.substitute name (a :: b :: rest) = name a b :: p.substitute name rest := by
  have ends : p.endsAt (a :: b :: rest) 1 = true := h
  have starts := startsAt_eq_false_of_endsAt ends
  have first : p.leftAt name (a :: b :: rest) 0 = [name a b] := by simp [leftAt, h]
  have second : p.leftAt name (a :: b :: rest) 1 = [] := by simp [leftAt, starts, ends]
  -- Further on the pair is not seen, as its second symbol starts no other one.
  have others : (fun i => p.leftAt name (a :: b :: rest) (i + 1 + 1)) = p.leftAt name rest := by
    funext i
    rw [leftAt_cons_succ p name (p.startsAt_cons_succ a (b :: rest) i)]
    apply leftAt_cons_succ
    cases i with
    | zero => exact (p.startsAt_cons_succ a (b :: rest) 0).symm.trans starts
    | succ i => exact p.startsAt_cons_succ b rest i
  rw [substitute, List.length_cons, List.length_cons, range_flatMap_succ, range_flatMap_succ, first,
    second, others]
  rfl

/-- Reading pairs from left to right replaces them all at once. -/
theorem map_pairPieces (f : Piece → Symbol) (kept : ∀ c, f (.kept c) = c) (text : Text) :
    (p.pairPieces text).map f = p.substitute (fun a b => f (.folded (.pair a b))) text := by
  induction text using p.pairs_induction with
  | nil => rfl
  | single a => simp [kept]
  | pair a b rest h ih =>
      rw [pairPieces_of_eligible h, List.map_cons, ih, substitute_of_eligible h]
  | skip a b rest h ih =>
      rw [pairPieces_of_not_eligible h, List.map_cons, kept, ih, substitute_of_not_eligible h]

/-! ### The rules and the length -/

theorem pairRules_cons_cons (p : Partition) (a b : Symbol) (rest : Text) :
    p.pairRules (a :: b :: rest) =
      if p.eligible a b then .pair a b :: p.pairRules (b :: rest) else p.pairRules (b :: rest) := by
  cases h : p.eligible a b <;> simp [pairRules, h]

theorem pairRules_cons_of_eligible (h : p.eligible a b = true) (rest : Text) :
    p.pairRules (b :: rest) = p.pairRules rest := by
  cases rest with
  | nil => rfl
  | cons c rest => simp [pairRules_cons_cons, not_eligible_of_eligible h c]

/-- There are no more pairs than symbols. -/
theorem length_dedup_pairRules_le (p : Partition) (text : Text) :
    (p.pairRules text).dedup.length ≤ text.length :=
  calc (p.pairRules text).dedup.length
    _ ≤ (p.pairRules text).length := (List.dedup_sublist _).length_le
    _ ≤ (text.zip text.tail).length := by
      rw [pairRules, List.length_map]
      exact List.length_filter_le _ _
    _ ≤ text.length := by simp

/-- The rules of the phase are those of the eligible pairs. -/
theorem filterMap_rule?_pairPieces (p : Partition) (text : Text) :
    (p.pairPieces text).filterMap Piece.rule? = p.pairRules text := by
  induction text using p.pairs_induction with
  | nil => rfl
  | single a => rfl
  | pair a b rest h ih =>
      rw [pairPieces_of_eligible h, pairRules_cons_cons, if_pos h, pairRules_cons_of_eligible h,
        ← ih]
      rfl
  | skip a b rest h ih =>
      rw [pairPieces_of_not_eligible h, pairRules_cons_cons, h, ← ih]
      rfl

/-- Every eligible pair saves one symbol. -/
theorem length_pairPieces (p : Partition) (text : Text) :
    (p.pairPieces text).length + p.eligibleCount text = text.length := by
  induction text using p.pairs_induction with
  | nil => rfl
  | single a => rfl
  | pair a b rest h ih =>
      have count := p.eligibleCount_cons_cons a b rest
      rw [if_pos h, eligibleCount_cons_of_eligible h] at count
      rw [pairPieces_of_eligible h, List.length_cons, List.length_cons, List.length_cons]
      omega
  | skip a b rest h ih =>
      have count := p.eligibleCount_cons_cons a b rest
      rw [h] at count
      rw [pairPieces_of_not_eligible h, List.length_cons, List.length_cons]
      simp only [Bool.false_eq_true, if_false] at count
      omega

end Partition

namespace Compressor

variable {c : Compressor} {g : Grammar} {text : Text} {count : Nat}

/-- The pairs of a text that are eligible in a partition are replaced, and so many they were. -/
structure PairsReplaced (c : Compressor) (g : Grammar) (text : Text) (part : Partition)
    (count : Nat) (p : Progress) : Prop where
  /-- Every eligible pair has become the new symbol that has got its rule, and nothing else has
  changed. -/
  symbols : ∃ name : Symbol → Symbol → Symbol,
    (∀ a b, (a, b) ∈ (c.read text).zip (c.read text).tail → part.eligible a b = true →
      ¬ g.Known (name a b) ∧ p.grammar.rule? (name a b) = some (.pair a b)) ∧
    p.read = part.substitute name (c.read text)
  apart : ∀ i, part.endsAt (c.read text) i = true → part.startsAt (c.read text) i = false
  count_eq : count = part.eligibleCount (c.read text)
  length_add : p.read.length + count = (c.read text).length
  expands : p.read.flatMap p.grammar.expand = (c.read text).flatMap g.expand
  appended : ∃ rules, c.Appended (part.pairRules (c.read text)) rules g p.grammar
  ready : p.compressor.Ready p.grammar p.text

theorem pairsReplaced_of_replaced {part : Partition} {p : Progress} (ready : c.Ready g text)
    (h : c.Replaced g text (part.pairPieces (c.read text)) count p) :
    c.PairsReplaced g text part count p where
  symbols := by
    refine ⟨fun a b => Naming.symbolOf g (c.newRules (part.pairPieces (c.read text)))
      (.folded (.pair a b)), ?_, ?_⟩
    · intro a b neighbours eligible
      -- An eligible pair is one of the keys, so some piece is folded by its rule.
      have key : Rule.pair a b ∈ part.pairRules (c.read text) :=
        List.mem_map.mpr ⟨(a, b), List.mem_filter.mpr ⟨neighbours, eligible⟩, rfl⟩
      rw [← Partition.filterMap_rule?_pairPieces] at key
      have folded := Piece.mem_filterMap_rule?_iff.mp key
      rw [h.grammar_eq]
      exact ⟨h.replacement.not_known_symbolOf folded, h.replacement.rule?_symbolOf folded⟩
    · rw [h.read_eq]
      exact Partition.map_pairPieces _ (fun _ => rfl) _
  apart i ends := Partition.startsAt_eq_false_of_endsAt ends
  count_eq := by rw [h.count_eq, Partition.foldedCount_pairPieces]
  length_add := by
    rw [h.read_eq, h.count_eq, Partition.foldedCount_pairPieces, List.length_map,
      Partition.length_pairPieces]
  expands := h.expands
  appended := by
    have appended := h.appended (part.uniform_pairPieces (c.read text))
    rw [Partition.filterMap_rule?_pairPieces] at appended
    exact ⟨_, appended⟩
  ready := h.ready ready

/-- Whatever the strategy, replacing the pairs of a text without equal neighbours replaces all pairs
that are eligible in the partition of the text, each by the new symbol of its rule, and leaves the
other symbols in order. The answer is the number of these pairs, by which the text is shorter, and
the text stands for what it stood for. The new rules are the pairs, each once, in order of
appearance or in ascending order. The phase goes through exactly if there are ids for these rules.
If there are not, only the strategy that names rules as they appear may have appended some of
them. -/
theorem replacePairs_specified (ready : c.Ready g text) (distinct : (c.read text).Distinct) :
    (c.replacePairs g text).compressor.strategy = c.strategy ∧
    (∀ count, (c.replacePairs g text).result = .ok count →
      c.PairsReplaced g text (.ofText (c.read text)) count (c.replacePairs g text)) ∧
    ((∃ count, (c.replacePairs g text).result = .ok count) ↔
      g.terminals + g.size +
        ((Partition.ofText (c.read text)).pairRules (c.read text)).dedup.length ≤ idSpace) ∧
    ∀ e, (c.replacePairs g text).result = .error e → c.strategy ≠ .firstSeen →
      (c.replacePairs g text).grammar = g := by
  have follows := replacePairs_follows ready distinct
  have spells := (Partition.ofText (c.read text)).spells_pairPieces (c.read text)
  refine ⟨strategy_runPhase _ c g text, ?_, ?_, ?_⟩
  · intro count done
    exact pairsReplaced_of_replaced ready (replaced_of_follows ready spells follows done)
  · rw [exists_ok_iff_of_follows ready follows, length_newRules,
      Partition.filterMap_rule?_pairPieces]
  · intro e failed ahead
    exact grammar_replacePairs_of_error ahead failed

/-- The dense text stands for `1 6 1 6 4`, where `6` is the second rule of the grammar. -/
theorem replacePairs_specified_dense :
    (dense #[1, 4, 6]).Ready nested [0, 2, 0, 2, 1] ∧
    ((dense #[1, 4, 6]).read [0, 2, 0, 2, 1]).Distinct ∧
    ∃ count, ((dense #[1, 4, 6]).replacePairs nested [0, 2, 0, 2, 1]).result = .ok count ∧
      (dense #[1, 4, 6]).PairsReplaced nested [0, 2, 0, 2, 1]
        (.ofText ((dense #[1, 4, 6]).read [0, 2, 0, 2, 1])) count
        ((dense #[1, 4, 6]).replacePairs nested [0, 2, 0, 2, 1]) := by
  have ready : (dense #[1, 4, 6]).Ready nested [0, 2, 0, 2, 1] :=
    ready_nested (by decide) (by simp)
  have distinct : ((dense #[1, 4, 6]).read [0, 2, 0, 2, 1]).Distinct := by
    show [(1 : Symbol), 6, 1, 6, 4].IsChain (· ≠ ·)
    simp
  obtain ⟨_, replaced, goes, _⟩ := replacePairs_specified ready distinct
  have few := Partition.length_dedup_pairRules_le
    (.ofText ((dense #[1, 4, 6]).read [0, 2, 0, 2, 1])) ((dense #[1, 4, 6]).read [0, 2, 0, 2, 1])
  have room : nested.terminals + nested.size + 5 ≤ idSpace := by decide
  obtain ⟨count, done⟩ := goes.mpr (Nat.le_trans (Nat.add_le_add_left few _) room)
  exact ⟨ready, distinct, count, done, replaced count done⟩

end Compressor

end RunGrammar
