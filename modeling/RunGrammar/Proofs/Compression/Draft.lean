import Mathlib
import RunGrammar.Compression.Dense
import RunGrammar.Proofs.Alphabet.Letters
import RunGrammar.Proofs.Compression.Stage
import RunGrammar.Proofs.Compression.RuleOrder

/-!
# Writing new dense symbols

A draft starts with a placeholder at each position that is to be replaced, and
the groups of occurrences are enrolled one by one. What it holds in between is
determined by the rules enrolled so far: they are in the grammar, each has an
entry at the end of the mapping, and its positions hold the symbol of this
entry. In the end no placeholder is left.
-/

namespace RunGrammar

theorem Rule.rename_congr {f f' : Symbol → Symbol} {r : Rule} (h : ∀ a ∈ r.operands, f a = f' a) :
    r.rename f = r.rename f' := by
  cases r with
  | pair a b => simp [rename, h a left_mem_operands, h b right_mem_operands]
  | block a n => simp [rename, h a copied_mem_operands]

namespace DenseAlphabet

open Alphabet (letter letter_eq)

/-! ### Occurrences -/

theorem mem_occurrences {pieces : List Piece} {x : Occurrence} :
    x ∈ occurrences pieces ↔ pieces[x.position]? = some (.folded x.rule) := by
  rw [occurrences, List.mem_filterMap]
  constructor
  · rintro ⟨⟨piece, position⟩, member, found⟩
    obtain ⟨r, rule, rfl⟩ := Option.map_eq_some_iff.mp found
    cases piece with
    | kept c => cases rule
    | folded s =>
        cases rule
        exact List.mem_zipIdx_iff_getElem?.mp member
  · intro found
    exact ⟨(.folded x.rule, x.position), List.mem_zipIdx_iff_getElem?.mpr found, rfl⟩

theorem map_rule_occurrences (pieces : List Piece) :
    (occurrences pieces).map (·.rule) = pieces.filterMap Piece.rule? := by
  have from' : ∀ start : Nat, ((pieces.zipIdx start).filterMap fun x =>
      x.1.rule?.map (⟨·, x.2⟩ : Rule → Occurrence)).map (·.rule) =
        pieces.filterMap Piece.rule? := by
    induction pieces with
    | nil => simp
    | cons piece pieces ih =>
        intro start
        rw [List.zipIdx_cons, List.filterMap_cons, List.filterMap_cons]
        cases piece with
        | kept c => exact ih (start + 1)
        | folded r => exact congrArg (r :: ·) (ih (start + 1))
  exact from' 0

/-- All occurrences of one rule among the pieces. -/
structure IsGroup (pieces : List Piece) (r : Rule) (group : List Occurrence) : Prop where
  nonempty : group ≠ []
  mem_iff : ∀ x, x ∈ group ↔ x.rule = r ∧ pieces[x.position]? = some (.folded r)

theorem IsGroup.head {pieces : List Piece} {r : Rule} {group : List Occurrence}
    (h : IsGroup pieces r group) : ∃ x rest, group = x :: rest ∧ x.rule = r := by
  obtain ⟨x, rest, rfl⟩ := List.exists_cons_of_ne_nil h.nonempty
  exact ⟨x, rest, rfl, ((h.mem_iff x).mp (by simp)).1⟩

variable {pieces : List Piece}

theorem pairwise_found (uniform : Rule.Uniform (pieces.filterMap Piece.rule?)) :
    ((occurrences pieces).mergeSort fun x y => x.rule.le y.rule).Pairwise fun x y =>
      x.rule = y.rule ∨ x.rule.Before y.rule :=
  Rule.pairwise_mergeSort (fun x : Occurrence => x.rule) _ (by rwa [map_rule_occurrences])

/-- Sorted, the occurrences of a rule stand together. -/
theorem isGroup_of_mem_groups (uniform : Rule.Uniform (pieces.filterMap Piece.rule?))
    {group : List Occurrence} (hg : group ∈ groups (occurrences pieces)) :
    ∃ r, IsGroup pieces r group := by
  obtain ⟨x, rest, rfl⟩ := List.exists_cons_of_ne_nil (List.ne_nil_of_mem_splitBy hg)
  refine ⟨x.rule, List.cons_ne_nil _ _, ?_⟩
  intro y
  rw [mem_group_iff Rule.before_irrefl Rule.before_trans (pairwise_found uniform) hg
    (List.mem_cons_self), List.mem_mergeSort, mem_occurrences, and_comm]
  apply and_congr_right
  intro same
  rw [same]

/-- The rules of the groups, in order. -/
abbrev rulesOf (grouped : List (List Occurrence)) : List Rule :=
  groupKeys (fun x : Occurrence => x.rule) grouped

theorem mem_rulesOf_groups {r : Rule} :
    r ∈ rulesOf (groups (occurrences pieces)) ↔ .folded r ∈ pieces := by
  rw [rulesOf, groups, mem_groupKeys_splitBy, ← Piece.mem_filterMap_rule?_iff,
    ← map_rule_occurrences, List.mem_map]
  simp only [List.mem_mergeSort]

theorem pairwise_rulesOf_groups (uniform : Rule.Uniform (pieces.filterMap Piece.rule?)) :
    (rulesOf (groups (occurrences pieces))).Pairwise Rule.Before :=
  pairwise_groupKeys (pairwise_splitBy Rule.before_trans (pairwise_found uniform))

theorem length_rulesOf {grouped : List (List Occurrence)} (h : ∀ group ∈ grouped, group ≠ []) :
    (rulesOf grouped).length = grouped.length := by
  induction grouped with
  | nil => rfl
  | cons group grouped ih =>
      obtain ⟨x, rest, rfl⟩ := List.exists_cons_of_ne_nil (h group (by simp))
      have tail := ih fun other ho => h other (by simp [ho])
      exact congrArg (· + 1) tail

/-! ### Drafts -/

/-- The symbol that a draft has for a piece, after these rules have been enrolled. -/
def draftSymbol (size : Nat) (done : List Rule) : Piece → Symbol
  | .kept c => c
  | .folded r => if r ∈ done then .ofNat (size + done.idxOf r) else r.first

/-- The draft after these rules, in dense symbols, have been enrolled. -/
structure Draft.Shows (g : Grammar) (mapping : Array Symbol) (pieces : List Piece)
    (done : List Rule) (d : Draft) : Prop where
  grammar_eq : d.grammar = g.pushAll (done.map (Rule.rename (letter mapping)))
  mapping_eq : d.mapping.toList =
    mapping.toList ++ (List.range done.length).map fun i => g.ruleId (g.size + i)
  text_eq : d.text.toList = pieces.map (draftSymbol mapping.size done)

theorem getElem?_foldl_setIfInBounds (group : List Occurrence) (text : Array Symbol) (v : Symbol)
    (p : Nat) :
    (group.foldl (fun text y => text.setIfInBounds y.position v) text)[p]? =
      if ∃ y ∈ group, y.position = p then text[p]?.map fun _ => v else text[p]? := by
  induction group generalizing text with
  | nil => simp
  | cons x group ih =>
      rw [List.foldl_cons, ih]
      by_cases here : x.position = p
      · subst here
        by_cases inside : x.position < text.size
        · simp [inside]
        · simp [inside]
      · have same : (text.setIfInBounds x.position v)[p]? = text[p]? := by simp [here]
        simp [same, here]

namespace Draft

variable {g : Grammar} {mapping : Array Symbol} {done : List Rule} {d : Draft}

theorem shows_start (g : Grammar) (mapping : Array Symbol) (pieces : List Piece) :
    (start g mapping pieces).Shows g mapping pieces [] := by
  refine ⟨rfl, by simp [start], ?_⟩
  simp only [start]
  apply List.map_congr_left
  intro piece _
  cases piece <;> simp [Piece.first, draftSymbol]

theorem Shows.size_mapping (shown : d.Shows g mapping pieces done) :
    d.mapping.size = mapping.size + done.length := by
  rw [← Array.length_toList, shown.mapping_eq]
  simp

theorem Shows.letter_old (shown : d.Shows g mapping pieces done) {c : Symbol}
    (old : c.toNat < mapping.size) : letter d.mapping c = letter mapping c := by
  have found := Array.getElem?_eq_getElem old
  rw [letter_eq found]
  apply letter_eq
  rw [← Array.getElem?_toList, shown.mapping_eq, List.getElem?_append_left (by simpa using old),
    Array.getElem?_toList, found]

theorem Shows.letter_new (shown : d.Shows g mapping pieces done) {i : Nat} (hi : i < done.length)
    (small : mapping.size + done.length ≤ idSpace) :
    letter d.mapping (.ofNat (mapping.size + i)) = g.ruleId (g.size + i) := by
  have value : (UInt32.ofNat (mapping.size + i)).toNat = mapping.size + i := by
    rw [UInt32.toNat_ofNat']
    apply Nat.mod_eq_of_lt
    show _ < idSpace
    omega
  apply letter_eq
  rw [value, ← Array.getElem?_toList, shown.mapping_eq,
    List.getElem?_append_right (by simp)]
  simp [hi]

theorem draftSymbol_append {size : Nat} {r : Rule} (new : r ∉ done) (piece : Piece) :
    draftSymbol size (done ++ [r]) piece =
      if piece = .folded r then .ofNat (size + done.length) else draftSymbol size done piece := by
  cases piece with
  | kept c => simp [draftSymbol]
  | folded s =>
      by_cases same : s = r
      · subst same
        simp [draftSymbol, List.idxOf_append_of_notMem new]
      · by_cases old : s ∈ done
        · simp [draftSymbol, same, old, List.idxOf_append_of_mem old]
        · simp [draftSymbol, same, old]

/-- Writing at all positions of a group changes the symbols of its rule, and no others. -/
theorem write_group {size : Nat} {text : Array Symbol} {r : Rule} {group : List Occurrence}
    (isGroup : IsGroup pieces r group) (new : r ∉ done)
    (before : text.toList = pieces.map (draftSymbol size done)) :
    (group.foldl (fun text y => text.setIfInBounds y.position (.ofNat (size + done.length)))
      text).toList = pieces.map (draftSymbol size (done ++ [r])) := by
  apply List.ext_getElem?
  intro p
  have here : (∃ y ∈ group, y.position = p) ↔ pieces[p]? = some (.folded r) := by
    constructor
    · rintro ⟨y, hy, rfl⟩
      exact ((isGroup.mem_iff y).mp hy).2
    · intro found
      exact ⟨⟨r, p⟩, (isGroup.mem_iff ⟨r, p⟩).mpr ⟨rfl, found⟩, rfl⟩
  rw [Array.getElem?_toList, getElem?_foldl_setIfInBounds, ← Array.getElem?_toList, before,
    List.getElem?_map, List.getElem?_map]
  simp only [here]
  cases pieces[p]? with
  | none => simp
  | some piece =>
      rw [Option.map_some, Option.map_some, Option.map_some, draftSymbol_append new]
      by_cases same : piece = .folded r <;> simp [same]

/-- Enrolling a group puts its rule behind those enrolled before. -/
theorem Shows.enrol (shown : d.Shows g mapping pieces done) {r : Rule} {group : List Occurrence}
    (isGroup : IsGroup pieces r group) (new : r ∉ done)
    (operands : ∀ a ∈ r.operands, a.toNat < mapping.size) :
    (d.enrol group).Shows g mapping pieces (done ++ [r]) := by
  obtain ⟨x, rest, rfl, rule⟩ := isGroup.head
  have id : d.grammar.nextId = g.ruleId (g.size + done.length) := by
    rw [shown.grammar_eq, Grammar.nextId, Grammar.terminals_pushAll, Grammar.size_pushAll,
      List.length_map, Grammar.ruleId]
  have renamed : r.rename (letter d.mapping) = r.rename (letter mapping) := by
    apply Rule.rename_congr
    intro a ha
    exact shown.letter_old (operands a ha)
  refine ⟨?_, ?_, ?_⟩
  · show d.grammar.push (x.rule.rename (letter d.mapping)) = _
    rw [rule, renamed, shown.grammar_eq, List.map_append, Grammar.pushAll, Grammar.pushAll,
      List.foldl_append]
    rfl
  · show (d.mapping.push d.grammar.nextId).toList = _
    rw [Array.toList_push, shown.mapping_eq, id, List.length_append, List.length_singleton,
      List.range_succ, List.map_append, List.append_assoc]
    rfl
  · have written := write_group isGroup new shown.text_eq
    rw [← shown.size_mapping] at written
    exact written

/-- Enrolling all groups, one after the other, enrols their rules. -/
theorem Shows.foldl_enrol (grouped : List (List Occurrence))
    (shown : d.Shows g mapping pieces done)
    (isGroup : ∀ group ∈ grouped, ∃ r, IsGroup pieces r group)
    (operands : ∀ r, .folded r ∈ pieces → ∀ a ∈ r.operands, a.toNat < mapping.size)
    (nodup : (done ++ rulesOf grouped).Nodup) :
    (grouped.foldl Draft.enrol d).Shows g mapping pieces (done ++ rulesOf grouped) := by
  induction grouped generalizing d done with
  | nil => simpa [rulesOf, groupKeys] using shown
  | cons group grouped ih =>
      obtain ⟨r, hr⟩ := isGroup group (by simp)
      obtain ⟨x, rest, rfl, rule⟩ := hr.head
      have keys : rulesOf ((x :: rest) :: grouped) = r :: rulesOf grouped := by
        simp [rulesOf, groupKeys, rule]
      rw [keys, List.append_cons] at nodup ⊢
      have new : r ∉ done := by
        have := (List.nodup_append.mp nodup).1
        rw [List.nodup_append] at this
        exact fun old => this.2.2 r old r (by simp) rfl
      have occurs : .folded r ∈ pieces :=
        List.mem_of_getElem? ((hr.mem_iff x).mp (by simp)).2
      exact ih (shown.enrol hr new (operands r occurs))
        (fun other ho => isGroup other (by simp [ho])) nodup

end Draft

end DenseAlphabet

end RunGrammar
