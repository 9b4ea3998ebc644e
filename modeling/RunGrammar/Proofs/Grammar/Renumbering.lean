import Mathlib
import RunGrammar.Grammar.Renumbering
import RunGrammar.Proofs.Grammar.Lengths

/-!
# Renumbered grammars

A grammar is renumbered by a permutation of the symbols that fixes the
terminals. Each rule gets the new symbol of its old one, and its operands get
theirs; a symbol keeps its meaning under its new name. Nothing in this needs the
rules to be in order, so it also relates rules as they are stored with the rules
they come from.

An order of the rules gives such a permutation: the rule that comes first gets
the first symbol, and so on.
-/

namespace RunGrammar

theorem finite_symbol : Finite Symbol :=
  Finite.of_injective UInt32.toBitVec fun _ _ h => UInt32.eq_of_toBitVec_eq h

namespace Rule

variable {r : Rule}

theorem rename_rename (f f' : Symbol → Symbol) (r : Rule) :
    (r.rename f).rename f' = r.rename (f' ∘ f) := by
  cases r <;> rfl

@[simp] theorem rename_symm_rename (σ : Equiv.Perm Symbol) (r : Rule) :
    (r.rename σ).rename σ.symm = r := by
  cases r <;> simp [rename]

end Rule

namespace Grammar

/-- `h` is `g` with other symbols for its rules. -/
structure Renumbers (σ : Equiv.Perm Symbol) (g h : Grammar) : Prop where
  terminals : h.terminals = g.terminals
  fixes : ∀ v : Symbol, v.toNat < g.terminals → σ v = v
  /-- The rule of a renumbered symbol is the renumbered rule. -/
  rule? : ∀ v, h.rule? (σ v) = (g.rule? v).map (Rule.rename σ)
  /-- There are no other rules. -/
  perm : h.bareRules.Perm (g.bareRules.map (Rule.rename σ))
  root : h.root = g.root.map σ

namespace Renumbers

variable {σ τ : Equiv.Perm Symbol} {g h k : Grammar} {v : Symbol}

theorem refl (g : Grammar) : Renumbers (Equiv.refl Symbol) g g := by
  have same : Rule.rename id = id := funext Rule.rename_id
  exact ⟨rfl, fun _ _ => rfl, by simp [same], by simp [same], by simp⟩

theorem trans (first : Renumbers σ g h) (second : Renumbers τ h k) : Renumbers (σ.trans τ) g k where
  terminals := second.terminals.trans first.terminals
  fixes v hv := by
    rw [Equiv.trans_apply, first.fixes v hv, second.fixes v (first.terminals ▸ hv)]
  rule? v := by
    rw [Equiv.trans_apply, second.rule?, first.rule?, Option.map_map]
    congr 1
    funext r
    exact Rule.rename_rename σ τ r
  perm := by
    have both := second.perm.trans (first.perm.map (Rule.rename τ))
    rw [List.map_map] at both
    convert both using 2
    funext r
    exact (Rule.rename_rename σ τ r).symm
  root := by
    rw [second.root, first.root, Option.map_map]
    rfl

/-- The old symbols are a renumbering of the new ones. -/
theorem symm (ren : Renumbers σ g h) : Renumbers σ.symm h g where
  terminals := ren.terminals.symm
  fixes v hv := (Equiv.symm_apply_eq σ).mpr (ren.fixes v (ren.terminals ▸ hv)).symm
  rule? v := by
    have moved := ren.rule? (σ.symm v)
    rw [Equiv.apply_symm_apply] at moved
    simp [moved, Function.comp_def]
  perm := by
    have back := (ren.perm.map (Rule.rename σ.symm)).symm
    simpa [Function.comp_def] using back
  root := by simp [ren.root]

theorem size (ren : Renumbers σ g h) : h.size = g.size := by
  rw [← length_bareRules, ren.perm.length_eq, List.length_map, length_bareRules]

theorem blocks (ren : Renumbers σ g h) : h.blocks = g.blocks := by
  rw [blocks_eq_countP, blocks_eq_countP, ren.perm.countP_eq, List.countP_map]
  simp [Function.comp_def]

theorem isEmpty (ren : Renumbers σ g h) : h.isEmpty = g.isEmpty := by
  rw [Grammar.isEmpty, Grammar.isEmpty, ren.root, Option.isNone_map]

theorem known (ren : Renumbers σ g h) (known : g.Known v) : h.Known (σ v) := by
  by_cases terminal : v.toNat < g.terminals
  · rw [ren.fixes v terminal]
    show v.toNat < h.terminals + h.size
    rw [ren.terminals]
    omega
  · have some : (g.rule? v).isSome := rule?_isSome_iff.mpr ⟨Nat.not_lt.mp terminal, known⟩
    obtain ⟨r, found⟩ := Option.isSome_iff_exists.mp some
    have moved := ren.rule? v
    rw [found, Option.map_some] at moved
    exact known_of_rule? moved

/-- Under its new name a symbol stands for the same text. -/
theorem expand (ren : Renumbers σ g h) (o : g.Ordered) (o' : h.Ordered) (known : g.Known v) :
    h.expand (σ v) = g.expand v := by
  induction v using o.symbol_induction with
  | leaf v found =>
      have terminal := terminal_of_rule?_none known found
      rw [ren.fixes v terminal, expand_of_terminal terminal,
        expand_of_terminal (ren.terminals.symm ▸ terminal)]
  | node v r found sound ih =>
      have moved := ren.rule? v
      rw [found, Option.map_some] at moved
      have operand : ∀ a ∈ r.operands, h.expand (σ a) = g.expand a := fun a ha =>
        ih a ha (Nat.lt_trans (sound.operand_lt ha) known)
      rw [expand_of_rule? o found, expand_of_rule? o' moved]
      cases r with
      | pair a b =>
          simp only [Rule.rename, expandRule, operand a Rule.left_mem_operands,
            operand b Rule.right_mem_operands]
      | block a n =>
          simp only [Rule.rename, expandRule, operand a Rule.copied_mem_operands]

/-- The root derives the same text. -/
theorem flatMap_expand_root (ren : Renumbers σ g h) (o : g.Ordered) (o' : h.Ordered)
    (known : ∀ v, g.root = some v → g.Known v) :
    h.root.toList.flatMap h.expand = g.root.toList.flatMap g.expand := by
  cases root : g.root with
  | none => simp [ren.root, root]
  | some v => simp [ren.root, root, ren.expand o o' (known v root)]

/-- If both record their lengths right, they record the same. -/
theorem length (ren : Renumbers σ g h) (o : g.Ordered) (o' : h.Ordered) (sized : g.Sized)
    (sized' : h.Sized) (known : g.Known v) : h.length (σ v) = g.length v := by
  rw [sized'.length_eq o' (ren.known known), ren.expand o o' known, sized.length_eq o known]

end Renumbers

/-! ### Symbols in the order of their rules -/

variable {t n : Nat} {order : Array Nat}

theorem getElem?_foldl_number (t : Nat) {ks : List Nat} (distinct : ks.Nodup) (start : Nat)
    (ids : Array Symbol) (k : Nat) :
    ((ks.zipIdx start).foldl (fun ids x => ids.setIfInBounds x.1 (.ofNat (t + x.2))) ids)[k]? =
      if k ∈ ks then ids[k]?.map fun _ => .ofNat (t + (start + ks.idxOf k)) else ids[k]? := by
  induction ks generalizing start ids with
  | nil => simp
  | cons j ks ih =>
      obtain ⟨new, distinct⟩ := List.nodup_cons.mp distinct
      rw [List.zipIdx_cons, List.foldl_cons, ih distinct]
      by_cases here : k = j
      · subst here
        by_cases inside : k < ids.size <;> simp [new, inside]
      · have same : (ids.setIfInBounds j (.ofNat (t + start)))[k]? = ids[k]? := by
          simp [Ne.symm here]
        have later : (j :: ks).idxOf k = ks.idxOf k + 1 := List.idxOf_cons_ne _ (Ne.symm here)
        rw [same, later]
        simp only [List.mem_cons, here, false_or, Nat.add_assoc, Nat.add_comm 1]

/-- An order in which each of the rules comes exactly once. -/
def Exhausts (order : Array Nat) (n : Nat) : Prop := order.toList.Perm (List.range n)

namespace Exhausts

theorem nodup (all : Exhausts order n) : order.toList.Nodup :=
  all.nodup_iff.mpr List.nodup_range

theorem mem_iff (all : Exhausts order n) (k : Nat) : k ∈ order.toList ↔ k < n :=
  (List.Perm.mem_iff all).trans List.mem_range

theorem idxOf_lt (all : Exhausts order n) {k : Nat} (hk : k < n) : order.toList.idxOf k < n := by
  have inside := List.idxOf_lt_length_iff.mpr ((all.mem_iff k).mpr hk)
  rwa [all.length_eq, List.length_range] at inside

theorem getElem?_idxOf (all : Exhausts order n) {k : Nat} (hk : k < n) :
    order.toList[order.toList.idxOf k]? = some k :=
  List.getElem?_idxOf ((all.mem_iff k).mpr hk)

end Exhausts

theorem getElem?_newIds (all : Exhausts order n) (k : Nat) :
    (newIds t n order)[k]? = if k < n then some (.ofNat (t + order.toList.idxOf k)) else none := by
  have ids := getElem?_foldl_number t all.nodup 0 (Array.replicate n 0) k
  rw [Nat.zero_add] at ids
  refine Eq.trans ids ?_
  simp only [all.mem_iff]
  by_cases inside : k < n <;> simp [inside]

theorem size_newIds (t n : Nat) (order : Array Nat) : (newIds t n order).size = n := by
  have kept (xs : List (Nat × Nat)) (ids : Array Symbol) :
      (xs.foldl (fun ids x => ids.setIfInBounds x.1 (.ofNat (t + x.2))) ids).size = ids.size := by
    induction xs generalizing ids with
    | nil => rfl
    | cons x xs ih => rw [List.foldl_cons, ih, Array.size_setIfInBounds]
  exact (kept _ _).trans Array.size_replicate

theorem renumber_of_terminal {v : Symbol} {ids : Array Symbol} (h : v.toNat < t) :
    renumber t ids v = v := if_pos h

/-- The symbol of a rule becomes that of its place in the order. -/
theorem toNat_renumber (all : Exhausts order n) (fits : t + n ≤ idSpace) {v : Symbol} {k : Nat}
    (hk : k < n) (hv : v.toNat = t + k) :
    (renumber t (newIds t n order) v).toNat = t + order.toList.idxOf k := by
  have place := all.idxOf_lt hk
  rw [renumber, if_neg (by omega), hv, Nat.add_sub_cancel_left, Array.getD_eq_getD_getElem?,
    getElem?_newIds all, if_pos hk, Option.getD_some, UInt32.toNat_ofNat']
  exact Nat.mod_eq_of_lt (Nat.lt_of_lt_of_le (by omega) fits)

theorem renumber_of_unknown (all : Exhausts order n) {v : Symbol} (h : t + n ≤ v.toNat) :
    renumber t (newIds t n order) v = v := by
  rw [renumber, if_neg (by omega), Array.getD_eq_getD_getElem?, getElem?_newIds all,
    if_neg (by omega), Option.getD_none]

theorem renumber_injective (all : Exhausts order n) (fits : t + n ≤ idSpace) :
    Function.Injective (renumber t (newIds t n order)) := by
  -- A symbol is a terminal, the symbol of a rule, or unknown, and stays what it is.
  have cases' : ∀ v : Symbol,
      renumber t (newIds t n order) v = v ∧ (v.toNat < t ∨ t + n ≤ v.toNat) ∨
      ∃ k, k < n ∧ v.toNat = t + k ∧
        (renumber t (newIds t n order) v).toNat = t + order.toList.idxOf k := by
    intro v
    by_cases terminal : v.toNat < t
    · exact .inl ⟨renumber_of_terminal terminal, .inl terminal⟩
    by_cases known : v.toNat < t + n
    · exact .inr ⟨v.toNat - t, by omega, by omega, toNat_renumber all fits (by omega) (by omega)⟩
    · have unknown := Nat.not_lt.mp known
      exact .inl ⟨renumber_of_unknown all unknown, .inr unknown⟩
  intro u v same
  obtain ⟨hu, outsideU⟩ | ⟨j, hj, valueU, placeU⟩ := cases' u <;>
    obtain ⟨hv, outsideV⟩ | ⟨k, hk, valueV, placeV⟩ := cases' v
  · rw [← hu, same, hv]
  · have := all.idxOf_lt hk
    rw [← same, hu] at placeV
    omega
  · have := all.idxOf_lt hj
    rw [same, hv] at placeU
    omega
  · have place : order.toList.idxOf j = order.toList.idxOf k := by
      rw [same] at placeU
      omega
    have rule : j = k := List.idxOf_inj ((all.mem_iff j).mpr hj) |>.mp place
    exact UInt32.toNat_inj.mp (by omega)

/-- The permutation of the symbols that numbers the rules in an order. -/
noncomputable def numbering (all : Exhausts order n) (fits : t + n ≤ idSpace) :
    Equiv.Perm Symbol :=
  have := finite_symbol
  Equiv.ofBijective _ (Finite.injective_iff_bijective.mp (renumber_injective all fits))

@[simp] theorem coe_numbering (all : Exhausts order n) (fits : t + n ≤ idSpace) :
    (numbering all fits : Symbol → Symbol) = renumber t (newIds t n order) := rfl

/-- The rules in an order, renamed. -/
def arranged (f : Symbol → Symbol) (rules : Array Rule) (order : Array Nat) : List Rule :=
  order.toList.filterMap fun k => rules[k]?.map (Rule.rename f)

theorem getElem?_filterMap_of_isSome {α β : Type} {f : α → Option β} {xs : List α}
    (total : ∀ x ∈ xs, (f x).isSome) (i : Nat) : (xs.filterMap f)[i]? = xs[i]?.bind f := by
  induction xs generalizing i with
  | nil => simp
  | cons x xs ih =>
      obtain ⟨y, hy⟩ := Option.isSome_iff_exists.mp (total x (by simp))
      rw [List.filterMap_cons_some hy]
      cases i with
      | zero => simp [hy]
      | succ i => simpa using ih (fun z hz => total z (by simp [hz])) i

section Arranged

variable {f : Symbol → Symbol} {rules : Array Rule}

theorem getElem?_arranged (inside : ∀ k ∈ order.toList, k < rules.size) (i : Nat) :
    (arranged f rules order)[i]? =
      order.toList[i]?.bind fun k => rules[k]?.map (Rule.rename f) := by
  apply getElem?_filterMap_of_isSome
  intro k hk
  simp [inside k hk]

theorem arranged_perm (all : Exhausts order rules.size) :
    (arranged f rules order).Perm (rules.toList.map (Rule.rename f)) := by
  have inOrder : (List.range rules.size).filterMap (fun k => rules[k]?.map (Rule.rename f)) =
      rules.toList.map (Rule.rename f) := by
    apply List.ext_getElem?
    intro i
    rw [getElem?_filterMap_of_isSome (by simp)]
    by_cases inside : i < rules.size <;> simp [inside]
  exact inOrder ▸ List.Perm.filterMap _ all

end Arranged

/-- Rules that are put into an order and numbered in it are renumbered. -/
theorem renumbers_numbering {g h : Grammar} (all : Exhausts order g.size)
    (fits : g.terminals + g.size ≤ idSpace) (terminals : h.terminals = g.terminals)
    (rules : h.bareRules =
      arranged (renumber g.terminals (newIds g.terminals g.size order)) g.bareRules.toArray order)
    (root : h.root = g.root.map (renumber g.terminals (newIds g.terminals g.size order))) :
    Renumbers (numbering all fits) g h := by
  have length : g.bareRules.toArray.size = g.size := g.length_bareRules
  have perm : h.bareRules.Perm (g.bareRules.map (Rule.rename (numbering all fits))) := by
    rw [rules, coe_numbering]
    exact arranged_perm (length ▸ all)
  refine ⟨terminals, fun v hv => renumber_of_terminal hv, ?_, perm, root⟩
  intro v
  rw [coe_numbering]
  by_cases terminal : v.toNat < g.terminals
  · rw [renumber_of_terminal terminal, rule?_of_terminal terminal,
      rule?_of_terminal (terminals ▸ terminal)]
    rfl
  have late := Nat.not_lt.mp terminal
  obtain ⟨k, hk⟩ : ∃ k, v.toNat = g.terminals + k := Nat.exists_eq_add_of_le late
  by_cases inside : k < g.size
  · have value := toNat_renumber all fits inside hk
    rw [rule?_eq, rule?_eq, terminals, value, hk, if_neg (by omega), if_neg (by omega),
      Nat.add_sub_cancel_left, Nat.add_sub_cancel_left, rules, getElem?_arranged,
      all.getElem?_idxOf inside, Option.bind_some]
    · simp
    · intro j hj
      rw [length]
      exact (all.mem_iff j).mp hj
  · have size : h.bareRules.length = g.size := by
      rw [perm.length_eq, List.length_map, g.length_bareRules]
    have unknown := renumber_of_unknown all (by omega : g.terminals + g.size ≤ v.toNat)
    rw [unknown, rule?_eq, rule?_eq, terminals, hk, if_neg (by omega), if_neg (by omega),
      Nat.add_sub_cancel_left, List.getElem?_eq_none (by omega),
      List.getElem?_eq_none (by rw [g.length_bareRules]; omega)]
    rfl

end Grammar

end RunGrammar
