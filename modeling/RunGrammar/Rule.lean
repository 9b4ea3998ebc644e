import RunGrammar.Symbol

/-!
# Rules

A rule either joins two symbols or repeats one. Both shapes have two fields of
32 bits, and there is a signed form in which the sign of the second field tells
them apart: a pair keeps its second operand, and a block of `n` copies stores
`-n - 1`. The signed form is what a storage format writes; `ofSigned?` reads
back exactly the fields that some rule has.
-/

namespace RunGrammar

/-- The right-hand side of a symbol that is not a terminal. -/
inductive Rule where
  /-- The expansion of `first` followed by that of `second`. -/
  | pair (first second : Symbol)
  /-- The expansion of `symbol`, `count` times over. A sound block has at least two copies. -/
  | block (symbol : Symbol) (count : UInt32)
deriving DecidableEq, Hashable, Repr, Inhabited

namespace Rule

/-- The left operand, which for a block is the repeated symbol. -/
def first : Rule → Symbol
  | pair a _ => a
  | block a _ => a

/-- The field beside the left operand: the right operand or the number of copies. -/
def second : Rule → UInt32
  | pair _ b => b
  | block _ n => n

def isBlock : Rule → Bool
  | pair .. => false
  | block .. => true

/-- The symbols that a rule refers to, from left to right. -/
def operands : Rule → List Symbol
  | pair a b => [a, b]
  | block a _ => [a]

/-- The largest symbol that a rule refers to. -/
def maxOperand : Rule → Symbol
  | pair a b => if a < b then b else a
  | block a _ => a

/-- Replaces every operand; the number of copies stays. -/
def rename (f : Symbol → Symbol) : Rule → Rule
  | pair a b => pair (f a) (f b)
  | block a n => block (f a) n

/-- Order by the left operand and then by the second field. -/
def le (r s : Rule) : Bool :=
  r.first < s.first || (r.first == s.first && r.second ≤ s.second)

/-- The second field of the signed form. -/
def signedSecond : Rule → Int
  | pair _ b => b.toNat
  | block _ n => -(n.toNat : Int) - 1

/-- The rule with this signed form, if the second field fits a symbol or a number of copies. -/
def ofSigned? (first : Symbol) (second : Int) : Option Rule :=
  if 0 ≤ second then
    if second < idSpace then some (pair first (.ofNat second.toNat)) else none
  else
    let count := -(second + 1)
    if count < idSpace then some (block first (.ofNat count.toNat)) else none

@[simp] theorem isBlock_pair (a b : Symbol) : (pair a b).isBlock = false := rfl

@[simp] theorem isBlock_block (a : Symbol) (n : UInt32) : (block a n).isBlock = true := rfl

theorem le_iff {r s : Rule} : r.le s = true ↔ r.first.toNat < s.first.toNat ∨
    (r.first.toNat = s.first.toNat ∧ r.second.toNat ≤ s.second.toNat) := by
  simp only [le, Bool.or_eq_true, Bool.and_eq_true, decide_eq_true_eq, beq_iff_eq,
    UInt32.lt_iff_toNat_lt, UInt32.le_iff_toNat_le, ← UInt32.toNat_inj]

theorem le_trans (r s t : Rule) (h : r.le s = true) (h' : s.le t = true) : r.le t = true := by
  rw [le_iff] at *
  omega

theorem le_total (r s : Rule) : (r.le s || s.le r) = true := by
  rw [Bool.or_eq_true, le_iff, le_iff]
  omega

@[simp] theorem rename_id (r : Rule) : r.rename id = r := by
  cases r <;> rfl

@[simp] theorem isBlock_rename (f : Symbol → Symbol) (r : Rule) :
    (r.rename f).isBlock = r.isBlock := by
  cases r <;> rfl

theorem left_mem_operands {a b : Symbol} : a ∈ (pair a b).operands := List.mem_cons_self

theorem right_mem_operands {a b : Symbol} : b ∈ (pair a b).operands :=
  List.mem_cons_of_mem a List.mem_cons_self

theorem copied_mem_operands {a : Symbol} {n : UInt32} : a ∈ (block a n).operands :=
  List.mem_cons_self

theorem operands_rename (f : Symbol → Symbol) (r : Rule) :
    (r.rename f).operands = r.operands.map f := by
  cases r <;> rfl

end Rule

end RunGrammar
