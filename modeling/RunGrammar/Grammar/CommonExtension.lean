import RunGrammar.Grammar.Slice

/-!
# Longest common extensions

How far do the texts that start at two positions agree? Windows of doubling
size are cut out at both positions and compared, until they differ or one of
them is cut short by the end of the text. Since the windows double, the number
of them is at most logarithmic in the answer, and no length that is represented
needs more than `maxWindows`. Memory may need fewer: `commonExtension?` is the
query with its windows in memory, where one may be too large.
-/

namespace RunGrammar

/-- How many symbols two texts have in common at the front. -/
def Text.commonPrefix (s t : Text) : Nat :=
  ((s.zip t).takeWhile fun (a, b) => a == b).length

namespace Grammar

/-- The size of the first window. -/
def firstWindow : Nat := 8

/-- More doublings of the window than any represented length admits. -/
def maxWindows : Nat := 64

/-- Extends an agreement of `found` symbols by comparing further windows, which are cut out of the
text in this way. -/
def extendWith {m : Type → Type} [Monad m] (cut : Nat → Nat → m Text) (i j : Nat) :
    (windows : Nat) → (window found : Nat) → m Nat
  | 0, _, found => pure found
  | windows + 1, window, found => do
    let a ← cut (i + found) window
    let b ← cut (j + found) window
    let common := Text.commonPrefix a b
    if common < min a.length b.length ∨ a.length < window ∨ b.length < window then
      return found + common
    else
      extendWith cut i j windows (2 * window) (found + common)

def extendFrom (g : Grammar) (i j windows window found : Nat) : Nat :=
  Id.run (extendWith (fun i n => pure (g.slice i n)) i j windows window found)

/-- The same with both windows in memory; `none` if there is no room for one of them. -/
def extendFrom? (g : Grammar) (i j windows window found : Nat) : Option Nat :=
  extendWith g.slice? i j windows window found

/-- The length of the longest common prefix of the texts from positions `i` and `j`. It is zero
when one of them lies outside the text. -/
def commonExtension (g : Grammar) (i j : Nat) : Nat :=
  if g.textLength ≤ i ∨ g.textLength ≤ j then 0
  else if i = j then g.textLength - i
  else g.extendFrom i j maxWindows firstWindow 0

/-- The same with windows in memory; `none` if there is no room for one of them. -/
def commonExtension? (g : Grammar) (i j : Nat) : Option Nat :=
  if g.textLength ≤ i ∨ g.textLength ≤ j then some 0
  else if i = j then some (g.textLength - i)
  else g.extendFrom? i j maxWindows firstWindow 0

end Grammar

end RunGrammar
