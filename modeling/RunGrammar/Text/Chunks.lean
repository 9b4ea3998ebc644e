import RunGrammar.Symbol

/-!
# Cutting a text into chunks

Work on a text can be shared out by positions. The chunks of a given size cover
the positions below `n` in order; all have that size but the last, which may be
shorter. A text of no symbols has no chunks.
-/

namespace RunGrammar

/-- The positions from `start` up to, but not including, `stop`. -/
structure Chunk where
  start : Nat
  stop : Nat
deriving DecidableEq, Repr

namespace Chunk

/-- The symbols of a text that lie in a chunk. -/
def slice (c : Chunk) (text : Array Symbol) : Text := (text.extract c.start c.stop).toList

/-- The chunk together with the position behind it, where the text has one. -/
def widened (c : Chunk) (n : Nat) : Chunk := ⟨c.start, min (c.stop + 1) n⟩

/-- The size that cuts `n` positions into at most `parts` chunks. -/
def sizeFor (n parts : Nat) : Nat := max 1 ((n + parts - 1) / parts)

/-- The chunks of this size, from left to right. -/
def ofSize (n size : Nat) : List Chunk :=
  (List.range ((n + size - 1) / size)).map fun k => ⟨k * size, min ((k + 1) * size) n⟩

/-- At most `parts` chunks of one size, from left to right. -/
def split (n parts : Nat) : List Chunk := ofSize n (sizeFor n parts)

theorem sizeFor_pos (n parts : Nat) : 0 < sizeFor n parts := by
  unfold sizeFor
  omega

end Chunk

end RunGrammar
