import Mathlib
import RunGrammar.Proofs.Grammar.Growth

/-!
# Grammars over other terminals

The terminals below `A` are moved to terminals below `B`, in the same order. A
grammar moves along: its terminals go where they are told to, and the symbol of
rule `k` becomes the symbol of rule `k` again, behind the new terminals. Rules,
their lengths and their order stay. As long as all rules get ids, no two symbols
fall together and their order is kept. Appending a rule before or after the move
makes no difference.
-/

namespace RunGrammar

/-- A strictly increasing map of the terminals below `A` to terminals below `B`. -/
structure Relocation (A B : Nat) where
  terminal : Symbol → Symbol
  ascending : ∀ a b : Symbol, a.toNat < A → b.toNat < A → a < b → terminal a < terminal b
  below : ∀ a : Symbol, a.toNat < A → (terminal a).toNat < B

namespace Relocation

variable {A B : Nat} (f : Relocation A B)

/-- Where a symbol goes: rules keep their distance from the terminals. -/
def symbol (v : Symbol) : Symbol :=
  if v.toNat < A then f.terminal v else .ofNat (B + (v.toNat - A))

variable {f} {u v : Symbol} {size : Nat}

theorem symbol_of_lt (h : v.toNat < A) : f.symbol v = f.terminal v := if_pos h

theorem symbol_toNat_of_le (room : B + size ≤ idSpace) (h : A ≤ v.toNat)
    (inside : v.toNat < A + size) : (f.symbol v).toNat = B + (v.toNat - A) := by
  rw [symbol, if_neg (Nat.not_lt.mpr h), UInt32.toNat_ofNat']
  exact Nat.mod_eq_of_lt (Nat.lt_of_lt_of_le (by omega) room)

/-- As many symbols as get ids stay in order. -/
theorem symbol_lt (room : B + size ≤ idSpace) (hu : u.toNat < A + size) (hv : v.toNat < A + size)
    (lt : u < v) : f.symbol u < f.symbol v := by
  have order := UInt32.lt_iff_toNat_lt.mp lt
  by_cases low : v.toNat < A
  · have low' : u.toNat < A := Nat.lt_trans order low
    rw [symbol_of_lt low, symbol_of_lt low']
    exact f.ascending u v low' low lt
  · have high := Nat.not_lt.mp low
    rw [UInt32.lt_iff_toNat_lt, symbol_toNat_of_le room high hv]
    by_cases low' : u.toNat < A
    · have := f.below u low'
      rw [symbol_of_lt low']
      omega
    · rw [symbol_toNat_of_le room (Nat.not_lt.mp low') hu]
      omega

end Relocation

namespace Grammar

variable {A B : Nat} (f : Relocation A B)

/-- The grammar with its terminals moved. -/
def relocate (g : Grammar) : Grammar where
  terminals := B
  rules := g.rules.map fun entry => { entry with rule := entry.rule.rename f.symbol }
  root := g.root.map f.symbol

@[simp] theorem terminals_relocate (g : Grammar) : (g.relocate f).terminals = B := rfl

@[simp] theorem size_relocate (g : Grammar) : (g.relocate f).size = g.size := Array.size_map

@[simp] theorem root_relocate (g : Grammar) : (g.relocate f).root = g.root.map f.symbol := rfl

@[simp] theorem isEmpty_relocate (g : Grammar) : (g.relocate f).isEmpty = g.isEmpty :=
  Option.isNone_map

@[simp] theorem blocks_relocate (g : Grammar) : (g.relocate f).blocks = g.blocks := by
  simp [blocks, relocate, Array.countP_map, Function.comp_def]

variable {f} {g : Grammar} {v : Symbol} {r : Rule} {rs : List Rule}
variable (base : g.terminals = A)

include base

/-- Rule `k` is rule `k` in both grammars. -/
theorem symbol_ruleId {k : Nat} (fits : A + k < idSpace) :
    f.symbol (g.ruleId k) = (g.relocate f).ruleId k := by
  have value : (g.ruleId k).toNat = A + k := by
    rw [ruleId_toNat (base.symm ▸ fits), base]
  rw [Relocation.symbol, value, if_neg (by omega), Nat.add_sub_cancel_left]
  rfl

variable (room : B + g.size ≤ idSpace)

include room

/-- Symbols have the same lengths. -/
theorem length_relocate (known : g.Known v) : (g.relocate f).length (f.symbol v) = g.length v := by
  have inside : v.toNat < A + g.size := base ▸ known
  by_cases low : v.toNat < A
  · have early : g.isTerminal v = true := by simpa [isTerminal, base] using low
    have early' : (g.relocate f).isTerminal (f.symbol v) = true := by
      simpa [isTerminal, Relocation.symbol_of_lt low] using f.below v low
    rw [length, if_pos early', length, if_pos early]
  · have high := Nat.not_lt.mp low
    have value := f.symbol_toNat_of_le room high inside
    have late : g.isTerminal v = false := by simpa [isTerminal, base] using high
    have late' : (g.relocate f).isTerminal (f.symbol v) = false := by
      simp [isTerminal, value]
    have stored : Grammar.entry? (g.relocate f) (f.symbol v) =
        (g.entry? v).map fun entry => { entry with rule := entry.rule.rename f.symbol } := by
      have behind : (g.relocate f).terminals ≤ (f.symbol v).toNat := by simp [value]
      rw [entry?_of_le behind, entry?_of_le (base.symm ▸ high), terminals_relocate, value, base,
        Nat.add_sub_cancel_left]
      exact Array.getElem?_map
    rw [length, late', length, late, stored]
    cases g.entry? v <;> rfl

theorem ruleLength_relocate (known : ∀ a ∈ r.operands, g.Known a) :
    (g.relocate f).ruleLength (r.rename f.symbol) = g.ruleLength r := by
  cases r with
  | pair a b =>
      simp only [Rule.rename, ruleLength,
        length_relocate base room (known a Rule.left_mem_operands),
        length_relocate base room (known b Rule.right_mem_operands)]
  | block a n =>
      simp only [Rule.rename, ruleLength,
        length_relocate base room (known a Rule.copied_mem_operands)]

theorem push_relocate (known : ∀ a ∈ r.operands, g.Known a) :
    (g.relocate f).push (r.rename f.symbol) = (g.push r).relocate f := by
  have length := ruleLength_relocate (f := f) base room known
  simp only [push, length]
  simp [relocate]

theorem textLength_relocate (known : ∀ v, g.root = some v → g.Known v) :
    (g.relocate f).textLength = g.textLength := by
  cases root : g.root with
  | none => simp [textLength, root]
  | some v => simp [textLength, root, length_relocate base room (known v root)]

omit room in
/-- Rules over the symbols of the grammar may be appended before or after the move. -/
theorem pushAll_relocate (room : B + g.size + rs.length ≤ idSpace)
    (known : ∀ r ∈ rs, ∀ a ∈ r.operands, g.Known a) :
    (g.relocate f).pushAll (rs.map (Rule.rename f.symbol)) = (g.pushAll rs).relocate f := by
  induction rs generalizing g with
  | nil => rfl
  | cons r rs ih =>
      have count : (r :: rs).length = rs.length + 1 := rfl
      rw [List.map_cons, pushAll_cons, pushAll_cons,
        push_relocate base (by omega) (known r (by simp))]
      apply ih
      · rw [terminals_push, base]
      · rw [size_push]
        omega
      · intro s hs a ha
        exact (known s (by simp [hs]) a ha).pushAll [r]

end Grammar

end RunGrammar
