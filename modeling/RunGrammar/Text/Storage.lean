import RunGrammar.Symbol

/-!
# Texts in memory

A text that is answered with is written to memory. Room can be reserved for it
beforehand; where the room is used up, it is doubled. The bytes of a sequence are
counted by a signed word and a symbol takes four of them, so there is never room
for more than `maxRoom` symbols. More than that is refused, be it asked for at
once or reached by doubling.
-/

namespace RunGrammar

/-- A text that is being written, and the number of symbols that there is room for. -/
structure Storage where
  text : Array Symbol := #[]
  room : Nat := 0

namespace Storage

/-- The most symbols that there is ever room for. -/
def maxRoom : Nat := 0x7FFFFFFFFFFFFFFF / 4

/-- An empty text with room for `n` symbols. -/
def withRoom (n : Nat) : Option Storage := if n ≤ maxRoom then some { room := n } else none

/-- Doubles the room. The first room that is made in this way is for four symbols. -/
def grow (s : Storage) : Option Storage :=
  let room := max (2 * s.room) 4
  if room ≤ maxRoom then some { s with room } else none

/-- Appends a symbol, for which room is made if there is none. -/
def push (s : Storage) (c : Symbol) : Option Storage := do
  let s ← if s.text.size < s.room then some s else s.grow
  return { s with text := s.text.push c }

/-- The text once all of these symbols are appended. -/
def write (s : Storage) (t : Text) : Option Text := do
  let filled ← t.foldlM push s
  return filled.text.toList

end Storage

end RunGrammar
