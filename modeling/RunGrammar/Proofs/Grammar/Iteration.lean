import Mathlib
import RunGrammar.Proofs.Grammar.Derivation
import RunGrammar.Proofs.Grammar.Heights
import RunGrammar.Proofs.Grammar.Slicing

/-!
# The stack of the cursor

Reading symbol by symbol, expanding the root by recursion, appending the whole
text at once and random access all give the same text. The cursor is the one
that does so in little memory: its stack is never longer than the derivation
tree of the root is high, and one more.

The bound comes from what each frame still needs. The tree of a frame grows on
top of the frames below it, so the number of these and the height of the tree
together stay within the height of the root. A step replaces a frame by frames
of smaller height, of which at most one lies a place higher.
-/

namespace RunGrammar

namespace Frame

/-- The height of what a frame stands for. Copies are the rest of a rule one level up. -/
def height (g : Grammar) : Frame → Nat
  | symbol v => g.height v
  | copies v _ => g.height v + 1

end Frame

namespace Cursor

variable {g : Grammar} {stack rest : Cursor} {bound : Nat}

/-- One step of the cursor, whether a symbol comes out or not. -/
def Step (g : Grammar) (stack rest : Cursor) : Prop :=
  ∃ output, advance g stack = some ⟨output, rest⟩

/-- The stacks that occur while the text is read, between two symbols or on the way to one. -/
def Reached (g : Grammar) : Cursor → Prop := Relation.ReflTransGen (Step g) (start g)

/-- Below every frame there is room for its height. -/
def Shallow (g : Grammar) (bound : Nat) : Cursor → Prop
  | [] => True
  | frame :: rest => rest.length + frame.height g ≤ bound ∧ Shallow g bound rest

theorem Shallow.length_le (shallow : Shallow g bound stack) : stack.length ≤ bound + 1 := by
  cases stack with
  | nil => exact Nat.zero_le _
  | cons frame rest =>
      have room := shallow.1
      rw [List.length_cons]
      omega

/-- A step keeps the room. -/
theorem Shallow.step (o : g.Ordered) (shallow : Shallow g bound stack) (step : Step g stack rest) :
    Shallow g bound rest := by
  obtain ⟨output, taken⟩ := step
  cases stack with
  | nil => cases taken
  | cons frame below =>
      obtain ⟨room, others⟩ := shallow
      cases frame with
      | symbol v =>
          cases found : g.rule? v with
          | none =>
              simp only [advance, found, Option.some.injEq, Progress.mk.injEq] at taken
              rw [← taken.2]
              exact others
          | some r =>
              have height := o.height_of_rule? found
              rw [Frame.height, height] at room
              cases r with
              | pair a b =>
                  simp only [advance, found, Option.some.injEq, Progress.mk.injEq] at taken
                  rw [Grammar.ruleHeight] at room
                  rw [← taken.2]
                  refine ⟨?_, ?_, others⟩ <;> simp only [Frame.height, List.length_cons] <;> omega
              | block a n =>
                  simp only [advance, found, Option.some.injEq, Progress.mk.injEq] at taken
                  rw [Grammar.ruleHeight] at room
                  rw [← taken.2]
                  refine ⟨?_, others⟩
                  rw [Frame.height]
                  omega
      | copies v left =>
          simp only [advance, Option.some.injEq, Progress.mk.injEq] at taken
          rw [Frame.height] at room
          rw [← taken.2]
          by_cases several : 1 < left
          · rw [if_pos several]
            refine ⟨?_, room, others⟩
            rw [Frame.height, List.length_cons]
            omega
          · rw [if_neg several]
            refine ⟨?_, others⟩
            rw [Frame.height]
            omega

/-- At the start only the root is on the stack. -/
theorem shallow_start (g : Grammar) : Shallow g (g.root.elim 0 g.height) (start g) := by
  rw [start]
  cases g.root with
  | none => trivial
  | some v => exact ⟨by simp [Frame.height], trivial⟩

/-- The stack never holds more frames than there are levels below the root, and one more. -/
theorem Reached.length_le (o : g.Ordered) (reached : Reached g stack) :
    stack.length ≤ g.root.elim 0 g.height + 1 := by
  have shallow : Shallow g (g.root.elim 0 g.height) stack := by
    induction reached with
    | refl => exact shallow_start g
    | tail _ step ih => exact ih.step o step
  exact shallow.length_le

/-- The next symbol comes out after some steps. -/
theorem steps_of_nextWithin {steps : Nat} {c : Symbol}
    (found : nextWithin g steps stack = some (c, rest)) :
    Relation.ReflTransGen (Step g) stack rest := by
  induction steps generalizing stack with
  | zero => cases found
  | succ steps ih =>
      rw [nextWithin] at found
      cases taken : advance g stack with
      | none =>
          rw [taken] at found
          cases found
      | some progress =>
          obtain ⟨output, after⟩ := progress
          rw [taken] at found
          have first : Step g stack after := ⟨output, taken⟩
          cases output with
          | none => exact Relation.ReflTransGen.head first (ih found)
          | some v =>
              cases found
              exact Relation.ReflTransGen.single first

theorem Reached.next {c : Symbol} (reached : Reached g stack)
    (found : next g stack = some (c, rest)) : Reached g rest :=
  Relation.ReflTransGen.trans reached (steps_of_nextWithin found)

end Cursor

namespace Grammar

variable {g : Grammar} {v : Symbol}

end Grammar

end RunGrammar
