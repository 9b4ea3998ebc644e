import Mathlib
import RunGrammar.Grammar.Slice
import RunGrammar.Proofs.Checked
import RunGrammar.Proofs.Grammar.Reading
import RunGrammar.Proofs.Text.Ranges
import RunGrammar.Proofs.Text.Storage

/-!
# Random access is slicing

On a sound grammar with its own lengths, `slice` gives the symbols of the text
that lie in the range, as far as the recorded length of the text reaches. Every
nested access keeps within the recorded length of its symbol. Where a recorded
length has been cut off, the range ends before it, so the parts of a rule that
lie behind are never asked for.

`rangeChecked` is `slice` with refusals: of a range that leaves the recorded
length of a symbol, of a difference below zero, of a division by zero, and of a
nesting deeper than the bound. It answers whenever `slice` does, so none of
these occurs. What can be refused is the room for the symbols of a range, of
which at most `Storage.maxRoom` get into memory.
-/

namespace RunGrammar.Grammar

variable {g : Grammar} {v : Symbol}

/-- The text that a grammar stands for. -/
def text (g : Grammar) : Text := g.root.elim [] g.expand

/-- The symbols of a range of an expansion; `none` when a step is refused. -/
def sliceWithinChecked (g : Grammar) : (depth : Nat) → (i n : Nat) → (v : Symbol) → Option Text
  | 0, _, _, _ => none
  | depth + 1, i, n, v =>
    if g.length v < i + n then none
    else if n = 0 then some []
    else match g.rule? v with
      | none => some [v]
      | some (.pair a b) =>
        let left := g.length a
        if i < left then do
          let head := min n (← Checked.sub left i)
          let front ← g.sliceWithinChecked depth i head a
          let back ← g.sliceWithinChecked depth 0 (← Checked.sub n head) b
          return front ++ back
        else do
          g.sliceWithinChecked depth (← Checked.sub i left) n b
      | some (.block a _) => do
        let copy := g.length a
        let offset ← Checked.mod i copy
        let head := min n (← Checked.sub copy offset)
        let remaining ← Checked.sub n head
        let front ← g.sliceWithinChecked depth offset head a
        let whole ←
          if remaining < copy then pure []
          else
            let copies ← Checked.div remaining copy
            pure (List.replicate copies (← g.sliceWithinChecked depth 0 copy a)).flatten
        let back ← g.sliceWithinChecked depth 0 (← Checked.mod remaining copy) a
        return front ++ whole ++ back

/-- The symbols of a range of the text; `none` when a step is refused. -/
def rangeChecked (g : Grammar) (i n : Nat) : Option Text :=
  match g.root with
  | none => some []
  | some root =>
    if i < g.textLength then do
      let clipped := min n (← Checked.sub g.textLength i)
      g.sliceWithinChecked ((g.size + 2) * (i + clipped + 1)) i clipped root
    else some []

/-- A slice in memory; `none` when there is no room for it or another step is refused. -/
def sliceChecked (g : Grammar) (i n : Nat) : Option Text := do
  let out ← Storage.withRoom (g.clip i n)
  out.write (← g.rangeChecked i n)

/-- An access that gives this text, and no step of which is refused. -/
structure Serves (g : Grammar) (depth i n : Nat) (v : Symbol) (t : Text) : Prop where
  slice : g.sliceWithin depth i n v = t
  checked : g.sliceWithinChecked depth i n v = some t

namespace Serves

variable {depth i n : Nat} {a b : Symbol} {count : UInt32} {front back whole : Text}

theorem nothing (inside : i ≤ g.length v) : g.Serves (depth + 1) i 0 v [] := by
  constructor
  · simp [sliceWithin]
  · simp [sliceWithinChecked, inside]

theorem leaf (inside : i + n ≤ g.length v) (asked : n ≠ 0) (found : g.rule? v = none) :
    g.Serves (depth + 1) i n v [v] := by
  constructor
  · simp [sliceWithin, asked, found]
  · simp [sliceWithinChecked, asked, found, Nat.not_lt.mpr inside]

/-- A range of a pair that starts in the first operand. -/
theorem across (inside : i + n ≤ g.length v) (asked : n ≠ 0)
    (found : g.rule? v = some (.pair a b)) (early : i < g.length a)
    (first : g.Serves depth i (min n (g.length a - i)) a front)
    (second : g.Serves depth 0 (n - min n (g.length a - i)) b back) :
    g.Serves (depth + 1) i n v (front ++ back) := by
  constructor
  · simp [sliceWithin, asked, found, early, first.slice, second.slice]
  · simp [sliceWithinChecked, asked, found, Nat.not_lt.mpr inside, early,
      Checked.sub_of_le early.le, Checked.sub_of_le (Nat.min_le_left n _), first.checked,
      second.checked]

/-- A range of a pair that starts in the second operand. -/
theorem behind (inside : i + n ≤ g.length v) (asked : n ≠ 0)
    (found : g.rule? v = some (.pair a b)) (late : g.length a ≤ i)
    (second : g.Serves depth (i - g.length a) n b back) : g.Serves (depth + 1) i n v back := by
  constructor
  · simp [sliceWithin, asked, found, Nat.not_lt.mpr late, second.slice]
  · simp [sliceWithinChecked, asked, found, Nat.not_lt.mpr inside, Nat.not_lt.mpr late,
      Checked.sub_of_le late, second.checked]

/-- A range of a block: the rest of a copy, whole copies, and the front of a copy. -/
theorem copies (inside : i + n ≤ g.length v) (asked : n ≠ 0)
    (found : g.rule? v = some (.block a count)) (pos : 0 < g.length a) {head rest : Nat}
    (first : min n (g.length a - i % g.length a) = head) (last : n - head = rest)
    (start : g.Serves depth (i % g.length a) head a front)
    (one : g.Serves depth 0 (g.length a) a whole)
    (stop : g.Serves depth 0 (rest % g.length a) a back) :
    g.Serves (depth + 1) i n v
      (front ++ (List.replicate (rest / g.length a) whole).flatten ++ back) := by
  have offset : i % g.length a ≤ g.length a := (Nat.mod_lt i pos).le
  have short : head ≤ n := first ▸ Nat.min_le_left n _
  by_cases few : rest < g.length a
  · constructor
    · simp [sliceWithin, asked, found, first, last, few, start.slice, stop.slice]
    · simp [sliceWithinChecked, asked, found, Nat.not_lt.mpr inside, Checked.mod_of_pos pos,
        Checked.sub_of_le offset, first, Checked.sub_of_le short, last, few, start.checked,
        stop.checked]
  · constructor
    · simp [sliceWithin, asked, found, first, last, few, start.slice, stop.slice, one.slice]
    · simp [sliceWithinChecked, asked, found, Nat.not_lt.mpr inside, Checked.mod_of_pos pos,
        Checked.div_of_pos pos, Checked.sub_of_le offset, first, Checked.sub_of_le short, last,
        few, start.checked, stop.checked, one.checked]

end Serves

/-- What is recorded of a symbol is its length, or a range up to the largest length ends before
that. -/
theorem Sized.length_eq_or_covers (sized : g.Sized) (o : g.Ordered) (known : g.Known v)
    {stop : Nat} (short : stop ≤ lengthCap) :
    g.length v = (g.expand v).length ∨ stop ≤ g.length v ∧ g.length v ≤ (g.expand v).length := by
  have recorded := sized.length_eq o known
  omega

/-- A known symbol has a recorded length above zero. -/
theorem Sized.length_pos (sized : g.Sized) (o : g.Ordered) (known : g.Known v) :
    0 < g.length v := by
  have recorded := sized.length_eq o known
  have some := List.length_pos_iff.mpr (o.expand_ne_nil v)
  have : 0 < lengthCap := by decide
  omega

/-- Every access within the recorded length of a symbol is served with the symbols of its range.
The induction is on the derivation tree; each nested access goes to an operand, one level down. -/
theorem serves_expand (o : g.Ordered) (sized : g.Sized) (v : Symbol) (known : g.Known v)
    {depth i n : Nat} (deep : g.level v < depth) (inside : i + n ≤ g.length v) :
    g.Serves depth i n v (((g.expand v).drop i).take n) := by
  induction v using o.symbol_induction generalizing depth i n with
  | leaf v found =>
      obtain ⟨depth, rfl⟩ : ∃ k, depth = k + 1 := ⟨depth - 1, by omega⟩
      have expansion := expand_of_rule?_none found
      by_cases asked : n = 0
      · subst asked
        exact .nothing inside
      · have one : g.length v ≤ 1 := by
          rw [sized.length_eq o known, expansion]
          exact Nat.min_le_left _ _
        obtain ⟨rfl, rfl⟩ : i = 0 ∧ n = 1 := by omega
        rw [expansion]
        exact .leaf inside asked found
  | node v r found sound ih =>
      obtain ⟨depth, rfl⟩ : ∃ k, depth = k + 1 := ⟨depth - 1, by omega⟩
      by_cases asked : n = 0
      · subst asked
        exact .nothing inside
      have below : ∀ a ∈ r.operands, g.Known a ∧ g.level a < depth := by
        intro a ha
        have before := sound.operand_lt ha
        have lower := level_lt_of_rule? found before
        exact ⟨Nat.lt_trans before known, by omega⟩
      have short : i + n ≤ lengthCap := by
        have recorded := sized.length_eq o known
        omega
      have room : i + n ≤ g.ruleLength r := by
        have recorded := ruleLength_eq fun a ha => sized.length_eq o (below a ha).1
        rwa [recorded, ← expand_of_rule? o found, ← sized.length_eq o known]
      rw [expand_of_rule? o found]
      cases r with
      | pair a b =>
          obtain ⟨knownA, deepA⟩ := below a Rule.left_mem_operands
          obtain ⟨knownB, deepB⟩ := below b Rule.right_mem_operands
          have first := sized.length_eq_or_covers o knownA short
          have both : i + n ≤ g.length a + g.length b := Nat.le_trans room (Nat.min_le_left _ _)
          obtain early | late := Nat.lt_or_ge i (g.length a)
          · rw [expandRule, Ranges.take_drop_append_of_lt first early]
            apply Serves.across inside asked found early
            · exact ih a Rule.left_mem_operands knownA deepA (by omega)
            · exact ih b Rule.right_mem_operands knownB deepB (by omega)
          · rw [expandRule, Ranges.take_drop_append_of_le first late asked]
            apply Serves.behind inside asked found late
            exact ih b Rule.right_mem_operands knownB deepB (by omega)
      | block a count =>
          obtain ⟨knownA, deepA⟩ := below a Rule.copied_mem_operands
          have copy := sized.length_eq_or_covers o knownA short
          have pos := sized.length_pos o knownA
          have copies : i + n ≤ (g.expand a).length * count.toNat := by
            have bounded : g.length a ≤ (g.expand a).length := by omega
            exact (Nat.le_trans room (Nat.min_le_left _ _)).trans (Nat.mul_le_mul_right _ bounded)
          have offset := Nat.mod_lt i pos
          have stop := Nat.mod_lt (n - min n (g.length a - i % g.length a)) pos
          have operand : ∀ {i n : Nat}, i + n ≤ g.length a →
              g.Serves depth i n a (((g.expand a).drop i).take n) := fun inside =>
            ih a Rule.copied_mem_operands knownA deepA inside
          rw [expandRule, Ranges.take_drop_flatten_replicate copy pos asked copies rfl rfl]
          apply Serves.copies inside asked found pos rfl rfl
          · exact operand (by omega)
          · exact operand (by omega)
          · exact operand (by omega)

/-- The length of the text is recorded right, as far as lengths are represented. -/
theorem textLength_eq (o : g.Ordered) (sized : g.Sized)
    (known : ∀ v, g.root = some v → g.Known v) :
    g.textLength = min g.text.length lengthCap := by
  unfold textLength text
  cases root : g.root with
  | none => rfl
  | some v => exact sized.length_eq o (known v root)

/-- A slice is a range of the text, cut off at its recorded length; and no step is refused. -/
theorem slice_eq_take_drop (o : g.Ordered) (sized : g.Sized)
    (known : ∀ v, g.root = some v → g.Known v) (i n : Nat) :
    g.slice i n = ((g.text.take g.textLength).drop i).take n ∧
      g.rangeChecked i n = some (g.slice i n) := by
  unfold slice rangeChecked text
  cases root : g.root with
  | none => simp
  | some v =>
      have recorded : g.textLength = g.length v := by
        rw [textLength, root]
        rfl
      by_cases early : i < g.textLength
      · have deep : g.level v < (g.size + 2) * (i + min n (g.textLength - i) + 1) := by
          have levels := level_le_size (known v root)
          exact Nat.lt_of_lt_of_le (by omega) (Nat.le_mul_of_pos_right _ (Nat.succ_pos _))
        have inside : i + min n (g.textLength - i) ≤ g.length v := by omega
        have served := serves_expand o sized v (known v root) deep inside
        constructor
        · simp only [Option.elim_some, if_pos early, sliceFrom, served.slice]
          rw [List.drop_take, List.take_take]
        · simp only [Option.elim_some, if_pos early, sliceFrom, served.slice,
            Checked.sub_of_le early.le, Option.bind_eq_bind, Option.bind_some, served.checked]
      · have past : ((g.expand v).take g.textLength).drop i = [] :=
          List.drop_eq_nil_of_le ((List.length_take_le _ _).trans (Nat.not_lt.mp early))
        simp [early, past]

/-- A slice has the symbols of the range that lie in the text. -/
theorem length_slice (o : g.Ordered) (sized : g.Sized)
    (known : ∀ v, g.root = some v → g.Known v) (i n : Nat) :
    (g.slice i n).length = g.clip i n := by
  have recorded := textLength_eq o sized known
  rw [(slice_eq_take_drop o sized known i n).1, clip, List.length_take, List.length_drop,
    List.length_take]
  omega

/-- A slice gets into memory if there is room for it. -/
theorem slice?_eq (o : g.Ordered) (sized : g.Sized)
    (known : ∀ v, g.root = some v → g.Known v) (i n : Nat) :
    g.slice? i n = if g.clip i n ≤ Storage.maxRoom then some (g.slice i n) else none :=
  Storage.withRoom_write (length_slice o sized known i n).le

theorem sliceChecked_eq (o : g.Ordered) (sized : g.Sized)
    (known : ∀ v, g.root = some v → g.Known v) (i n : Nat) :
    g.sliceChecked i n = g.slice? i n := by
  rw [sliceChecked, (slice_eq_take_drop o sized known i n).2]
  rfl

end RunGrammar.Grammar
