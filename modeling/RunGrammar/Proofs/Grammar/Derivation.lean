import Mathlib
import RunGrammar.Proofs.Grammar.Reading

/-!
# The whole text at once

`derivedText` follows the operands with a bound on the depth and appends to one
array. On a sound grammar no chain of operands is longer than the number of
rules, so the bound is never reached and the text is the expansion of the root.
-/

namespace RunGrammar.Grammar

variable {g : Grammar} {v : Symbol}

/-- Appending a copy again and again appends all the copies. -/
theorem toList_repeat {append : Array Symbol → Array Symbol} {copy : Text}
    (appends : ∀ out, (append out).toList = out.toList ++ copy) (n : Nat) (out : Array Symbol) :
    (n.repeat append out).toList = out.toList ++ (List.replicate n copy).flatten := by
  induction n with
  | zero => simp [Nat.repeat]
  | succ n ih => simp [Nat.repeat, appends, ih, List.replicate_succ']

/-- Within its depth, the running expansion appends what the symbol stands for. -/
theorem toList_appendExpansion (o : g.Ordered) (known : g.Known v) (depth : Nat)
    (deep : g.level v < depth) (out : Array Symbol) :
    (g.appendExpansion depth v out).toList = out.toList ++ g.expand v := by
  induction v using o.symbol_induction generalizing depth out with
  | leaf v found =>
      obtain ⟨depth, rfl⟩ : ∃ d, depth = d + 1 := ⟨depth - 1, by omega⟩
      simp [appendExpansion, found, expand_of_rule?_none]
  | node v r found sound ih =>
      obtain ⟨depth, rfl⟩ : ∃ d, depth = d + 1 := ⟨depth - 1, by omega⟩
      have operand : ∀ a ∈ r.operands, ∀ out,
          (g.appendExpansion depth a out).toList = out.toList ++ g.expand a := by
        intro a ha out
        have before := sound.operand_lt ha
        have lower := level_lt_of_rule? found before
        exact ih a ha (Nat.lt_trans before known) depth (by omega) out
      rw [expand_of_rule? o found]
      cases r with
      | pair a b =>
          have first := operand a Rule.left_mem_operands
          have second := operand b Rule.right_mem_operands
          simp [appendExpansion, found, first, second, expandRule]
      | block a n =>
          have copies : max n.toNat 1 = n.toNat := Nat.max_eq_left (Nat.le_of_lt sound.2)
          have all := toList_repeat (operand a Rule.copied_mem_operands) n.toNat out
          simp [appendExpansion, found, copies, all, expandRule]

/-- The text of a sound grammar is the expansion of its root. -/
theorem derivedText_eq (valid : g.validate = .ok ()) :
    g.derivedText = g.root.toList.flatMap g.expand := by
  obtain ⟨o, known⟩ := validate_eq_ok_iff.mp valid
  cases root : g.root with
  | none => simp [derivedText, root]
  | some v =>
      have inside := known v root
      have deep := Nat.lt_succ_of_le (level_le_size inside)
      simp [derivedText, root, toList_appendExpansion o inside (g.size + 1) deep]

/-- Read symbol by symbol, a sound grammar gives that text as well. -/
theorem yields_derivedText (valid : g.validate = .ok ()) :
    Cursor.Yields g (.start g) g.derivedText := by
  obtain ⟨o, known⟩ := validate_eq_ok_iff.mp valid
  exact derivedText_eq valid ▸ Cursor.yields_start o known

end RunGrammar.Grammar
