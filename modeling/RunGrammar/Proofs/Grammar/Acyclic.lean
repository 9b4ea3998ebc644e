import Mathlib
import RunGrammar.Proofs.Grammar.Construction

/-!
# Which rules make up a grammar

`ofUnordered` accepts a list of rules exactly if there are ids enough, all
symbols in it are defined, all blocks have copies enough, and no rule needs
itself, whether the root needs that rule or not. What it makes of the list is
the list renumbered.

Whatever it finds fault with, it finds before the rules are in order. The
failures of `validate` are of another kind, so the check of the finished arena
is never the one that fails.
-/

namespace RunGrammar

open Failing (Blames)

namespace Grammar

variable {t n : Nat} {rules : List Rule} {root : Option Symbol}

/-! ### What is found fault with -/

/-- A defect of a rule in its place, or of a root beside rules in their places. -/
def OfArena : Failure → Prop
  | .malformed (.laterOperand ..) | .malformed (.shortBlock ..)
  | .malformed (.unknownRoot _) => True
  | _ => False

/-- A defect that can be told from rules in any order. -/
def OfLooseRules : Failure → Prop
  | .malformed (.idRange ..) | .malformed (.undefinedSymbol _) | .malformed (.shortLooseBlock _)
  | .malformed (.cycle _) => True
  | _ => False

theorem blames_checkRule (id : Nat) (r : Rule) : Blames OfArena (checkRule id r) := by
  by_cases early : id ≤ r.maxOperand.toNat
  · simpa [checkRule, early] using Blames.error trivial
  cases r with
  | pair a b => simpa [checkRule, early] using Blames.ok ()
  | block a n =>
      by_cases short : n < 2
      · simpa [checkRule, early, short] using Blames.error trivial
      · simpa [checkRule, early, short] using Blames.ok ()

theorem blames_validate (g : Grammar) : Blames OfArena g.validate := by
  apply Blames.bind
  · exact Blames.forM fun x => blames_checkRule _ _
  · intro _ _
    unfold checkRoot
    cases g.root with
    | none => exact Blames.ok _
    | some v =>
        dsimp only
        split
        · exact Blames.ok _
        · exact Blames.error trivial

theorem blames_ruleIndex (t n : Nat) (v : Symbol) : Blames OfLooseRules (ruleIndex t n v) := by
  unfold ruleIndex
  split
  · exact Blames.ok _
  · split
    · exact Blames.ok _
    · exact Blames.error trivial

theorem blames_lookedAt (r : Rule) : Blames OfLooseRules (lookedAt r) := by
  cases r with
  | pair a b => exact Blames.ok _
  | block a n =>
      by_cases short : n < 2
      · simpa [lookedAt, short] using Blames.error trivial
      · simpa [lookedAt, short] using Blames.ok [a]

theorem blames_freshOperands (s : Search) (vs : List Symbol) (fresh : List Nat) :
    Blames OfLooseRules (freshOperands t n s vs fresh) := by
  induction vs generalizing fresh with
  | nil => exact Blames.ok _
  | cons v vs ih =>
      apply (blames_ruleIndex t n v).bind
      rintro (_ | k) _
      · exact ih fresh
      · dsimp only
        cases s.markOf k with
        | fresh => exact ih (k :: fresh)
        | opened => exact Blames.error trivial
        | finished => exact ih fresh

theorem blames_visit (rules : Array Rule) (depth : Nat) (s : Search) (k : Nat) :
    Blames OfLooseRules (visit t rules depth s k) := by
  induction depth generalizing s k with
  | zero => exact Blames.ok s
  | succ depth ih =>
      cases found : rules[k]? with
      | none =>
          rw [visit, found]
          exact Blames.ok s
      | some r =>
          by_cases finished : s.markOf k = .finished
          · rw [visit, found, finished]
            exact Blames.ok s
          rw [visit_of_unfinished found finished]
          apply (blames_lookedAt r).bind
          intro vs _
          apply (blames_freshOperands _ vs []).bind
          intro fresh _
          apply (Blames.foldlM ih _).bind
          intro below _
          exact Blames.ok _

theorem blames_creationOrder (t : Nat) (rules : Array Rule) :
    Blames OfLooseRules (creationOrder t rules) :=
  (Blames.foldlM (blames_visit rules _) _).bind fun _ _ => Blames.ok _

/-- The check of the finished arena does not fail, so all failures come from the rules as they are
listed. -/
theorem blames_ofUnordered (t : Nat) (rules : List Rule) (root : Option Symbol) :
    Blames OfLooseRules (ofUnordered t rules root) := by
  rw [ofUnordered_eq]
  apply Blames.bind
  · unfold checkIdSpace
    split
    · exact Blames.ok _
    · exact Blames.error trivial
  intro _ ids
  apply (blames_creationOrder t rules.toArray).bind
  intro order found
  apply Blames.bind
  · cases root with
    | none => exact Blames.ok _
    | some v => exact blames_ruleIndex t rules.length v
  intro _ index
  obtain ⟨all, ready⟩ : Exhausts order rules.length ∧ _ := exhausts_of_creationOrder found
  have settled := settles_appended all (checkIdSpace_eq_ok_iff.mp ids) ready
    (known_of_rootIndex index)
  rw [settled.valid]
  exact Blames.ok _

theorem not_ofArena_of_ofLooseRules {e : Failure} (h : OfLooseRules e) : ¬ OfArena e := by
  unfold OfLooseRules at h
  split at h <;> simp_all [OfArena]

/-! ### What is accepted -/

/-- Rules and a root, in any order, that a grammar can be made of. -/
structure Composable (t : Nat) (rules : List Rule) (root : Option Symbol) : Prop where
  fits : t + rules.length ≤ idSpace
  defined : ∀ r ∈ rules, ∀ v ∈ r.operands, v.toNat < t + rules.length
  rootDefined : ∀ v, root = some v → v.toNat < t + rules.length
  copies : ∀ a n, .block a n ∈ rules → 2 ≤ n.toNat
  /-- No rule needs itself, directly or through others. -/
  acyclic : ∀ k, ¬ Relation.TransGen (Uses t rules.toArray) k k

theorem Composable.orderable (c : Composable t rules root) : Orderable t rules.toArray where
  sound k r found := by
    have member : r ∈ rules := List.mem_of_getElem? (by simpa using found)
    cases r with
    | pair a b =>
        exact ⟨c.defined _ member a Rule.left_mem_operands,
          c.defined _ member b Rule.right_mem_operands⟩
    | block a n => exact ⟨c.defined _ member a Rule.copied_mem_operands, c.copies a n member⟩
  acyclic := c.acyclic

theorem Orderable.composable (o : Orderable t rules.toArray) (fits : t + rules.length ≤ idSpace)
    (rootDefined : ∀ v, root = some v → v.toNat < t + rules.length) :
    Composable t rules root := by
  have sound : ∀ r ∈ rules, r.SoundAt (t + rules.length) := by
    intro r member
    obtain ⟨k, found⟩ := List.getElem?_of_mem member
    exact o.sound k r (by simpa using found)
  exact
    { fits
      rootDefined
      defined := fun r member v hv => (sound r member).operand_lt hv
      copies := fun a n member => (sound _ member).2
      acyclic := o.acyclic }

/-- A list that a grammar was made of goes back to a grammar in order, so it can be ordered. -/
theorem Settles.composable {h : Grammar} (settled : Settles t rules root h) :
    Composable t rules root := by
  obtain ⟨σ, ren⟩ := settled.renumbers
  obtain ⟨o, known⟩ := validate_eq_ok_iff.mp settled.valid
  have fits := settled.fits
  have orderable := ren.symm.orderable o (by simpa using fits)
  refine Orderable.composable (by simpa using orderable) fits fun v hv => ?_
  have renamed : h.root = some (σ v) := by simp [ren.root, hv]
  have back : (loose t rules root).Known (σ.symm (σ v)) := ren.symm.known (known _ renamed)
  simpa [Known] using back

/-- Rules in any order make up a grammar if and only if there are ids enough for the terminals and
the rules, all operands and the root are terminals or symbols of rules, all blocks have two copies
or more, and the rules, those that the root does not need included, do not run in a circle.

In the grammar each rule of the list is found under a new symbol, with its operands renamed in the
same way, as is the root; the new symbols are a permutation that keeps the terminals, and operands
are smaller than the symbols of their rules. The check that is made of this grammar in the end never
fails: no failure of the whole is one that the check can have. No step on the way reads outside an
array, leaves the range of words or reaches the bound on the depth of the search. -/
theorem ofUnordered_iff_acyclic (t : Nat) (rules : List Rule) (root : Option Symbol) :
    ((∃ h, ofUnordered t rules root = .ok h) ↔ Composable t rules root) ∧
    (∀ h, ofUnordered t rules root = .ok h → ∃ σ : Equiv.Perm Symbol,
      h.terminals = t ∧ h.size = rules.length ∧ (∀ v, v.toNat < t → σ v = v) ∧
      (∀ (k : Nat) (r : Rule), rules[k]? = some r →
        h.rule? (σ (.ofNat (t + k))) = some (r.rename σ)) ∧
      (∀ (v : Symbol) (r : Rule), h.rule? v = some r → ∀ a ∈ r.operands, a < v) ∧
      h.root = root.map σ ∧ h.validate = .ok ()) ∧
    (∀ e, ofUnordered t rules root = .error e → ∀ g : Grammar, g.validate ≠ .error e) ∧
    ofUnorderedGuarded t rules root = .of (ofUnordered t rules root) := by
  refine ⟨⟨?_, ?_⟩, ?_, ?_, ofUnorderedGuarded_eq t rules root⟩
  · rintro ⟨h, made⟩
    exact (settles_of_ofUnordered made).composable
  · intro c
    obtain ⟨h, made, _⟩ | ⟨_, _, refused⟩ := ofUnordered_answers t rules root
    · exact ⟨h, made⟩
    · exact absurd ⟨c.fits, c.orderable, c.rootDefined⟩ refused
  · intro h made
    have settled := settles_of_ofUnordered made
    obtain ⟨σ, ren⟩ := settled.renumbers
    have o := (validate_eq_ok_iff.mp settled.valid).1
    refine ⟨σ, ren.terminals, by simp [ren.size], ren.fixes, ?_, ?_, ren.root, settled.valid⟩
    · intro k r found
      have inside := (List.getElem?_eq_some_iff.mp found).1
      have room : t + k < idSpace := Nat.lt_of_lt_of_le (by omega) settled.fits
      rw [ren.rule?, rule?_loose room, found]
      rfl
    · intro v r found a ha
      exact UInt32.lt_iff_toNat_lt.mpr ((o.soundAt found).operand_lt ha)
  · intro e failed g invalid
    exact not_ofArena_of_ofLooseRules (blames_ofUnordered t rules root e failed)
      (blames_validate g e invalid)

/-- A pair that is listed before the block it needs. -/
theorem ofUnordered_iff_acyclic_swapped :
    Composable 2 [.pair 3 1, .block 0 2] (some 2) ∧
      ∃ h, ofUnordered 2 [.pair 3 1, .block 0 2] (some 2) = .ok h := by
  have composable : Composable 2 [.pair 3 1, .block 0 2] (some 2) :=
    { fits := by simp [idSpace]
      defined := by simp [Rule.operands]
      rootDefined := by simp
      copies := by simp
      acyclic := by
        apply acyclic_of_rank fun k => 1 - k
        rintro (_ | _ | k) c ⟨r, found, v, operand, value⟩
        · obtain rfl : Rule.pair 3 1 = r := by simpa using found
          have place : c = 1 := by
            obtain rfl | rfl := List.mem_pair.mp operand <;> simp at value <;> omega
          simp [place]
        · obtain rfl : Rule.block 0 2 = r := by simpa using found
          obtain rfl := List.mem_singleton.mp operand
          simp at value
          omega
        · simp at found }
  exact ⟨composable, (ofUnordered_iff_acyclic 2 [.pair 3 1, .block 0 2] (some 2)).1.mpr composable⟩

/-- A circle is refused even if the root does not need it. -/
example : ofUnordered 1 [.pair 0 0, .pair 2 0] (some 1) = .error (.malformed (.cycle 2)) := by
  decide

end Grammar

end RunGrammar
