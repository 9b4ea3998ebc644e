import Mathlib
import RunGrammar.Proofs.Grammar.Growth

/-!
# Building a grammar by hand

A grammar is built from its terminals alone by appending rules and by setting
and clearing the root. Two things are asked of whoever builds it: an id is
reserved before a rule is appended, and rules and roots refer to symbols that
are there already, blocks with at least two copies. Then the grammar is sound at
any time, its lengths are right, and a new rule gets a symbol of its own and
leaves all others as they are.

Recorded lengths may be overwritten at any time. The forward pass over the arena
does not read what was written there, so it restores them.
-/

namespace RunGrammar

/-- What can be done to a grammar while it is built. -/
inductive Edit where
  | append (r : Rule)
  | setRoot (v : Symbol)
  | clearRoot
deriving DecidableEq, Repr

namespace Grammar

variable {g h : Grammar} {v : Symbol} {r : Rule} {e : Edit} {edits : List Edit}

/-- The grammar after an edit. -/
def edit (g : Grammar) : Edit → Grammar
  | .append r => g.push r
  | .setRoot v => { g with root := some v }
  | .clearRoot => { g with root := none }

/-- The grammar after some edits, one after the other. -/
def editAll (g : Grammar) (edits : List Edit) : Grammar := edits.foldl edit g

/-- There is an id for a new rule, and nothing refers to a symbol that is not there. -/
def Permits (g : Grammar) : Edit → Prop
  | .append r => g.reserve 1 = .ok () ∧ r.SoundAt (g.terminals + g.size)
  | .setRoot v => g.Known v
  | .clearRoot => True

/-- Each edit is permitted when its turn comes. -/
def PermitsAll : Grammar → List Edit → Prop
  | _, [] => True
  | g, e :: edits => g.Permits e ∧ (g.edit e).PermitsAll edits

/-! ### Sound at any time -/

/-- What permitted edits keep. -/
structure Built (g : Grammar) : Prop where
  ordered : g.Ordered
  sized : g.Sized
  rooted : ∀ v, g.root = some v → g.Known v

/-- Without rules and root there is nothing that could be wrong. -/
theorem built_terminals (terminals : Nat) : Built { terminals } where
  ordered k entry found := by simp at found
  sized k entry found := by simp at found
  rooted v hv := by cases hv

/-- The root has no part in what symbols stand for. -/
theorem expand_withRoot (g : Grammar) (root : Option Symbol) (v : Symbol) :
    expand { g with root } v = g.expand v :=
  expand_congr (g := { g with root }) (h := g) (fun _ => rfl) v

theorem Built.withRoot (b : g.Built) (root : Option Symbol)
    (known : ∀ v, root = some v → g.Known v) : Built { g with root } where
  ordered := b.ordered
  sized k entry found := by
    have same : expandRule { g with root } entry.rule = g.expandRule entry.rule :=
      expandRule_congr fun u _ => expand_withRoot g root u
    simpa only [same] using b.sized k entry found
  rooted := known

/-- A permitted edit keeps the grammar sound. -/
theorem Built.edit (b : g.Built) (permitted : g.Permits e) : (g.edit e).Built := by
  cases e with
  | append r =>
      obtain ⟨_, sound⟩ := permitted
      exact
        { ordered := b.ordered.push sound
          sized := b.sized.push b.ordered sound
          rooted := fun v hv => (b.rooted v hv).pushAll [r] }
  | setRoot v =>
      apply b.withRoot
      rintro _ ⟨⟩
      exact permitted
  | clearRoot =>
      apply b.withRoot
      rintro _ ⟨⟩

/-- Hence it is sound after all of them. -/
theorem Built.editAll (b : g.Built) (permitted : g.PermitsAll edits) : (g.editAll edits).Built := by
  induction edits generalizing g with
  | nil => exact b
  | cons e edits ih =>
      obtain ⟨first, rest⟩ := permitted
      exact ih (b.edit first) rest

theorem Built.validate (b : g.Built) : g.validate = .ok () :=
  validate_eq_ok_iff.mpr ⟨b.ordered, b.rooted⟩

/-! ### What a new rule changes -/

theorem reserve_eq_ok_iff {additional : Nat} :
    g.reserve additional = .ok () ↔ g.terminals + g.size + additional ≤ idSpace := by
  have cap : idSpace < lengthCap := by decide
  simp only [reserve, fitsIdSpace, decide_eq_true_eq]
  split
  · next fits => simp only [true_iff]; omega
  · next full => simp only [reduceCtorEq, false_iff]; omega

/-- A new rule gets a symbol of its own, and the symbols that were there stay as they are. -/
structure Admits (g : Grammar) (r : Rule) : Prop where
  /-- The id does not wrap around. -/
  id_eq : g.nextId.toNat = g.terminals + g.size
  /-- No symbol that was there has this id. -/
  fresh : ¬ g.Known g.nextId
  rule_new : (g.push r).rule? g.nextId = some r
  expand_new : (g.push r).expand g.nextId = g.expandRule r
  known : ∀ v, g.Known v → (g.push r).Known v
  expand_old : ∀ v, g.Known v → (g.push r).expand v = g.expand v
  length_old : ∀ v, g.Known v → (g.push r).length v = g.length v

theorem length_push_of_known (known : g.Known v) (r : Rule) : (g.push r).length v = g.length v := by
  by_cases terminal : v.toNat < g.terminals
  · have terminal' : v.toNat < (g.push r).terminals := terminal
    exact (length_of_terminal terminal').trans (length_of_terminal terminal).symm
  · have late := Nat.not_lt.mp terminal
    have before : v.toNat < g.terminals + g.size := known
    have index : v.toNat - g.terminals ≠ g.size := by omega
    have late' : (g.push r).terminals ≤ v.toNat := late
    simp only [length_of_le late, length_of_le late', terminals_push, getElem?_push, if_neg index]

/-- Wherever a rule may be appended it gets its own symbol. -/
theorem Built.admits (b : g.Built) (permitted : g.Permits (.append r)) : g.Admits r := by
  obtain ⟨reserved, sound⟩ := permitted
  have room := reserve_eq_ok_iff.mp reserved
  have id : g.nextId.toNat = g.terminals + g.size := nextId_toNat g (by omega)
  have unknown : ¬ g.Known g.nextId := by
    intro known
    exact absurd id (Nat.ne_of_lt known)
  have rule : (g.push r).rule? g.nextId = some r := rule?_pushAll_ruleId (i := 0) (by omega) [r]
  have expanded : (g.push r).expand g.nextId = g.expandRule r := by
    have sounds : ∀ s ∈ [r], s.SoundAt (g.terminals + g.size) := by simpa using sound
    exact expand_pushAll_ruleId (i := 0) b.ordered sounds (by omega) rfl
  exact
    { id_eq := id
      fresh := unknown
      rule_new := rule
      expand_new := expanded
      known := fun v known => known.pushAll [r]
      expand_old := fun v known => expand_pushAll_of_known known [r]
      length_old := fun v known => length_push_of_known known r }

/-- A permitted edit changes nothing for the symbols that are there. -/
theorem keeps_edit (permitted : g.Permits e) (known : g.Known v) :
    (g.edit e).Known v ∧ (g.edit e).expand v = g.expand v ∧ (g.edit e).length v = g.length v := by
  cases e with
  | append r =>
      exact ⟨known.pushAll [r], expand_pushAll_of_known known [r], length_push_of_known known r⟩
  | setRoot u => exact ⟨known, expand_withRoot g (some u) v, rfl⟩
  | clearRoot => exact ⟨known, expand_withRoot g none v, rfl⟩

/-- Whatever comes later, a symbol stands for what it stood for when it was new. -/
theorem keeps_editAll (permitted : g.PermitsAll edits) (known : g.Known v) :
    (g.editAll edits).expand v = g.expand v ∧ (g.editAll edits).length v = g.length v := by
  induction edits generalizing g with
  | nil => exact ⟨rfl, rfl⟩
  | cons e edits ih =>
      obtain ⟨first, rest⟩ := permitted
      obtain ⟨known', expanded, measured⟩ := keeps_edit first known
      obtain ⟨expanded', measured'⟩ := ih rest known'
      exact ⟨expanded'.trans expanded, measured'.trans measured⟩

/-! ### Lengths that were overwritten -/

/-- Records lengths for some rules, whatever they are. -/
def overwrite (g : Grammar) (lengths : List (Nat × Nat)) : Grammar :=
  lengths.foldl (fun g (k, n) => g.setLength k n) g

theorem sameRules_setLength (g : Grammar) (k n : Nat) : SameRules (g.setLength k n) g := by
  refine ⟨rfl, rfl, ?_⟩
  apply List.ext_getElem?
  intro j
  simp only [bareRules, setLength, List.getElem?_map, Array.getElem?_toList, Array.getElem?_modify]
  split
  · cases g.rules[j]? <;> rfl
  · rfl

theorem sameRules_overwrite (g : Grammar) (lengths : List (Nat × Nat)) :
    SameRules (g.overwrite lengths) g := by
  induction lengths generalizing g with
  | nil => exact ⟨rfl, rfl, rfl⟩
  | cons mark lengths ih => exact (ih (g.setLength mark.1 mark.2)).trans (sameRules_setLength g _ _)

/-- The forward pass makes all lengths right, whatever was recorded before. -/
theorem computeLengths_overwrite (o : g.Ordered) (lengths : List (Nat × Nat)) :
    SameRules (g.overwrite lengths).computeLengths g ∧
      (g.overwrite lengths).computeLengths.Sized := by
  have same := sameRules_overwrite g lengths
  have ordered := same.symm.ordered o
  exact ⟨(sameRules_computeLengths ordered).trans same, sized_computeLengths ordered⟩

/-- After any permitted edits a grammar is sound and its lengths are right. A rule that may be
appended gets an id that no symbol has, and neither it nor anything later changes what the symbols
before it stand for. On any sound grammar whose lengths were overwritten, the forward pass makes
all of them right. -/
theorem editing_sound {terminals : Nat} {edits : List Edit}
    (permitted : PermitsAll { terminals } edits) {g : Grammar}
    (result : editAll { terminals } edits = g) :
    g.validate = .ok () ∧
    (∀ v, g.Known v → g.length v = min (g.expand v).length lengthCap) ∧
    (∀ r, g.Permits (.append r) → g.Admits r) ∧
    (∀ later, g.PermitsAll later → ∀ v, g.Known v →
      (g.editAll later).expand v = g.expand v ∧ (g.editAll later).length v = g.length v) ∧
    (∀ lengths, (g.overwrite lengths).computeLengths = g) ∧
    ∀ (h : Grammar) (lengths : List (Nat × Nat)), h.validate = .ok () →
      SameRules (h.overwrite lengths).computeLengths h ∧
      (h.overwrite lengths).computeLengths.Sized ∧
      ∀ v, h.Known v →
        (h.overwrite lengths).computeLengths.length v = min (h.expand v).length lengthCap := by
  have b : g.Built := result ▸ (built_terminals terminals).editAll permitted
  refine ⟨b.validate, ?_, ?_, ?_, ?_, ?_⟩
  · intro v known
    exact b.sized.length_eq b.ordered known
  · intro r allowed
    exact b.admits allowed
  · intro later allowed v known
    exact keeps_editAll allowed known
  · intro lengths
    obtain ⟨same, sized⟩ := computeLengths_overwrite b.ordered lengths
    exact same.eq_of_sized sized b.sized
  · intro h lengths valid
    obtain ⟨o, _⟩ := validate_eq_ok_iff.mp valid
    obtain ⟨same, sized⟩ := computeLengths_overwrite o lengths
    refine ⟨same, sized, fun v known => ?_⟩
    have known' : (h.overwrite lengths).computeLengths.Known v := by
      simpa only [Known, same.terminals, same.size] using known
    have measured := sized.length_eq (same.symm.ordered o) known'
    rwa [expand_congr same.rule? v] at measured

/-- Two nested blocks and a pair whose length is past the largest one that is represented. -/
theorem editing_sound_saturated :
    PermitsAll { terminals := 1 } [.append (.block 0 4294967295), .append (.block 1 4294967295),
      .append (.pair 2 2), .setRoot 3] ∧
    saturated.validate = .ok () ∧ lengthCap = min (saturated.expand 3).length lengthCap ∧
    (saturated.overwrite [(2, 7), (0, 0)]).computeLengths = saturated := by
  have permitted : PermitsAll { terminals := 1 }
      [.append (.block 0 4294967295), .append (.block 1 4294967295),
        .append (.pair 2 2), .setRoot 3] := by
    refine ⟨⟨by decide, ?_⟩, ⟨by decide, ?_⟩, ⟨by decide, ?_⟩, ?_, trivial⟩
    · exact ⟨by decide, by decide⟩
    · exact ⟨by decide, by decide⟩
    · exact ⟨by decide, by decide⟩
    · show (3 : Symbol).toNat < 1 + 3
      decide
  obtain ⟨valid, lengths, _, _, restored, _⟩ := editing_sound (g := saturated) permitted (by decide)
  have known : saturated.Known 3 := by
    show (3 : Symbol).toNat < 1 + 3
    decide
  exact ⟨permitted, valid, lengths 3 known, restored _⟩

end Grammar

end RunGrammar
