import Mathlib
import RunGrammar.Grammar.Cursor
import RunGrammar.Proofs.Grammar.Lengths

/-!
# The cursor reads the expansion

What a cursor still has to read is the concatenation of what its frames stand
for. On an arena the top frame is taken apart in at most two steps for each
level below it, and there are no more levels than rules, so the bound on the
steps is never reached before a symbol comes out. Repeated, `next` gives the
symbols of the text one by one and then ends.
-/

namespace RunGrammar

namespace Grammar

variable {g : Grammar} {v : Symbol}

/-- How deep a derivation from a symbol can be: terminals are at level zero. -/
def level (g : Grammar) (v : Symbol) : Nat := v.toNat + 1 - g.terminals

theorem level_le_size (known : g.Known v) : g.level v ≤ g.size := by
  have inside : v.toNat < g.terminals + g.size := known
  rw [level]
  omega

theorem level_lt_of_rule? {r : Rule} (h : g.rule? v = some r) {a : Symbol}
    (before : a.toNat < v.toNat) : g.level a < g.level v := by
  have late := terminals_le_of_rule? h
  rw [level, level]
  omega

end Grammar

namespace Frame

/-- The symbol of a frame. -/
def target : Frame → Symbol
  | symbol v => v
  | copies v _ => v

/-- What a frame stands for. -/
def text (g : Grammar) : Frame → Text
  | symbol v => g.expand v
  | copies v left => (List.replicate (max left.toNat 1) (g.expand v)).flatten

end Frame

namespace Cursor

variable {g : Grammar}

/-- What is still to be read. -/
def remaining (g : Grammar) (stack : Cursor) : Text := stack.flatMap (Frame.text g)

/-- All symbols on the stack are symbols of the grammar. -/
def Known (g : Grammar) (stack : Cursor) : Prop := ∀ frame ∈ stack, g.Known frame.target

theorem Known.append {stack stack' : Cursor} (h : Known g stack) (h' : Known g stack') :
    Known g (stack ++ stack') :=
  List.forall_mem_append.mpr ⟨h, h'⟩

theorem Known.cons {frame : Frame} {stack : Cursor} (h : Known g stack)
    (top : g.Known frame.target) : Known g (frame :: stack) :=
  List.forall_mem_cons.mpr ⟨top, h⟩

theorem known_nil (g : Grammar) : Known g [] := List.forall_mem_nil _

/-- Repeated reading gives exactly this text. -/
inductive Yields (g : Grammar) : Cursor → Text → Prop where
  | done {stack : Cursor} (h : next g stack = none) : Yields g stack []
  | step {stack rest : Cursor} {c : Symbol} {text : Text} (h : next g stack = some (c, rest))
      (later : Yields g rest text) : Yields g stack (c :: text)

theorem text_copies_of_one_lt (v : Symbol) {left : UInt32} (h : 1 < left) :
    (Frame.copies v left).text g = g.expand v ++ (Frame.copies v (left - 1)).text g := by
  have large : 1 < left.toNat := by simpa [UInt32.lt_iff_toNat_lt] using h
  have one : (left - 1).toNat = left.toNat - 1 := by
    rw [UInt32.toNat_sub_of_le _ _ (UInt32.le_of_lt h)]
    rfl
  have more : max left.toNat 1 = max (left - 1).toNat 1 + 1 := by omega
  rw [Frame.text, Frame.text, more, List.replicate_succ, List.flatten_cons]

theorem text_copies_of_not_one_lt (v : Symbol) {left : UInt32} (h : ¬ 1 < left) :
    (Frame.copies v left).text g = g.expand v := by
  have small : left.toNat ≤ 1 := by simpa [UInt32.lt_iff_toNat_lt] using h
  rw [Frame.text, Nat.max_eq_right small]
  simp

/-- A symbol comes out within two steps for each level. What is opened on the way is known. -/
theorem nextWithin_symbol (o : g.Ordered) (v : Symbol) (known : g.Known v) (rest : Cursor)
    (steps : Nat) (enough : 2 * g.level v < steps) :
    ∃ c opened, nextWithin g steps (.symbol v :: rest) = some (c, opened ++ rest) ∧
      g.expand v = c :: remaining g opened ∧ Known g opened := by
  induction v using o.symbol_induction generalizing rest steps with
  | leaf v found =>
      obtain ⟨steps, rfl⟩ : ∃ k, steps = k + 1 := ⟨steps - 1, by omega⟩
      refine ⟨v, [], ?_, ?_, by simp [Known]⟩
      · simp [nextWithin, advance, found]
      · rw [Grammar.expand_of_rule?_none found]
        rfl
  | node v r found sound ih =>
      cases r with
      | pair a b =>
          have lower := Grammar.level_lt_of_rule? found sound.1
          obtain ⟨steps, rfl⟩ : ∃ k, steps = k + 1 := ⟨steps - 1, by omega⟩
          obtain ⟨c, opened, out, expansion, inside⟩ :=
            ih a Rule.left_mem_operands (Nat.lt_trans sound.1 known) (.symbol b :: rest) steps
              (by omega)
          refine ⟨c, opened ++ [.symbol b], ?_, ?_, ?_⟩
          · simp [nextWithin, advance, found, out]
          · rw [Grammar.expand_of_rule? o found, Grammar.expandRule, expansion]
            simp [remaining, Frame.text]
          · exact inside.append ((known_nil g).cons (Nat.lt_trans sound.2 known))
      | block a n =>
          have lower := Grammar.level_lt_of_rule? found sound.1
          have several : 1 < n := by
            rw [UInt32.lt_iff_toNat_lt]
            exact sound.2
          obtain ⟨steps, rfl⟩ : ∃ k, steps = k + 1 + 1 := ⟨steps - 2, by omega⟩
          obtain ⟨c, opened, out, expansion, inside⟩ :=
            ih a Rule.copied_mem_operands (Nat.lt_trans sound.1 known)
              (.copies a (n - 1) :: rest) steps (by omega)
          refine ⟨c, opened ++ [.copies a (n - 1)], ?_, ?_, ?_⟩
          · simp [nextWithin, advance, found, several, out]
          · have copies := text_copies_of_one_lt (g := g) a several
            rw [Frame.text, Nat.max_eq_left (Nat.le_of_lt sound.2), expansion] at copies
            rw [Grammar.expand_of_rule? o found, Grammar.expandRule, expansion, copies]
            simp [remaining]
          · exact inside.append ((known_nil g).cons (Nat.lt_trans sound.1 known))

theorem next_nil (g : Grammar) : next g [] = none := by
  simp [next, nextWithin, advance]

/-- The next symbol is the first one that remains. -/
theorem next_cons (o : g.Ordered) (frame : Frame) (rest : Cursor)
    (known : Known g (frame :: rest)) :
    ∃ c stack, next g (frame :: rest) = some (c, stack) ∧
      remaining g (frame :: rest) = c :: remaining g stack ∧ Known g stack := by
  have others : Known g rest := fun other h => known other (List.mem_cons_of_mem frame h)
  cases frame with
  | symbol v =>
      have here : g.Known v := known (.symbol v) (by simp)
      have levels := Grammar.level_le_size here
      obtain ⟨c, opened, out, expansion, inside⟩ := nextWithin_symbol o v here rest
        (2 * g.size + 3) (by omega)
      refine ⟨c, opened ++ rest, out, ?_, ?_⟩
      · simp [remaining, Frame.text, expansion]
      · exact inside.append others
  | copies v left =>
      have here : g.Known v := known (.copies v left) (by simp)
      have levels := Grammar.level_le_size here
      by_cases several : 1 < left
      · obtain ⟨c, opened, out, expansion, inside⟩ := nextWithin_symbol o v here
          (.copies v (left - 1) :: rest) (2 * g.size + 2)
          (by omega)
        refine ⟨c, opened ++ .copies v (left - 1) :: rest, ?_, ?_, ?_⟩
        · rw [next, nextWithin]
          simp [advance, several, out]
        · simp [remaining, text_copies_of_one_lt v several, expansion]
        · exact inside.append (others.cons here)
      · obtain ⟨c, opened, out, expansion, inside⟩ := nextWithin_symbol o v here rest
          (2 * g.size + 2) (by omega)
        refine ⟨c, opened ++ rest, ?_, ?_, ?_⟩
        · rw [next, nextWithin]
          simp [advance, several, out]
        · simp [remaining, text_copies_of_not_one_lt v several, expansion]
        · exact inside.append others

/-- A cursor gives exactly what remains, symbol by symbol. -/
theorem yields_remaining (o : g.Ordered) (stack : Cursor) (known : Known g stack) :
    Yields g stack (remaining g stack) := by
  induction hn : (remaining g stack).length using Nat.strongRecOn generalizing stack with
  | ind n ih =>
      cases stack with
      | nil => exact .done (next_nil g)
      | cons frame rest =>
          obtain ⟨c, stack, out, split, inside⟩ := next_cons o frame rest known
          rw [split] at hn ⊢
          exact .step out (ih _ (hn ▸ Nat.lt_succ_self _) stack inside rfl)

/-- From the start, the cursor gives the expansion of the root. -/
theorem yields_start (o : g.Ordered) (known : ∀ v, g.root = some v → g.Known v) :
    Yields g (start g) (g.root.toList.flatMap g.expand) := by
  have all : remaining g (start g) = g.root.toList.flatMap g.expand := by
    rw [remaining, start, List.flatMap_map]
    rfl
  rw [← all]
  apply yields_remaining o _
  intro frame h
  obtain ⟨v, root, rfl⟩ := List.mem_map.mp h
  exact known v (Option.mem_toList.mp root)

end Cursor

end RunGrammar
