import Mathlib
import RunGrammar.Proofs.Checked
import RunGrammar.Proofs.Grammar.Unordered

/-!
# Building a grammar without being refused

`ofRules` and `ofUnordered` take rules from anywhere. Here both are written with
guards: an index must lie inside its array, a difference must not be negative,
an id must be a word, an appended rule must refer to smaller symbols, and the
search must not reach the bound on its depth. Both guarded constructors are
answered as the unguarded ones are, whatever the rules are.
-/

namespace RunGrammar.Grammar

variable {g : Grammar} {t : Nat} {rules : List Rule} {root : Option Symbol}

/-! ### Lengths -/

/-- The recorded length of a symbol. -/
def lengthGuarded (g : Grammar) (v : Symbol) : Guarded Nat :=
  if g.isTerminal v then return 1
  else do
    let k ← Guarded.check (Checked.sub v.toNat g.terminals)
    return (g.rules[k]?).elim 0 (·.length)

/-- The length of a rule. It stops at the largest length and does not overflow. -/
def ruleLengthGuarded (g : Grammar) : Rule → Guarded Nat
  | .pair a b => do return min ((← g.lengthGuarded a) + (← g.lengthGuarded b)) lengthCap
  | .block a n => do return min ((← g.lengthGuarded a) * n.toNat) lengthCap

/-- Recomputes the length of rule `k`, which must exist. -/
def refreshLengthGuarded (g : Grammar) (k : Nat) : Guarded Grammar := do
  let entry ← Guarded.check g.rules[k]?
  let length ← g.ruleLengthGuarded entry.rule
  return { g with rules := g.rules.setIfInBounds k ⟨entry.rule, length⟩ }

def computeLengthsGuarded (g : Grammar) : Guarded Grammar :=
  (List.range g.size).foldlM refreshLengthGuarded g

theorem lengthGuarded_eq (g : Grammar) (v : Symbol) :
    g.lengthGuarded v = .of (.ok (g.length v)) := by
  by_cases terminal : g.isTerminal v
  · simp [lengthGuarded, length, terminal]
  · have late : g.terminals ≤ v.toNat := by simpa [isTerminal] using terminal
    simp [lengthGuarded, terminal, Checked.sub_of_le late, length_of_le late]

theorem ruleLengthGuarded_eq (g : Grammar) (r : Rule) :
    g.ruleLengthGuarded r = .of (.ok (g.ruleLength r)) := by
  cases r <;> simp [ruleLengthGuarded, ruleLength, lengthGuarded_eq]

theorem computeLengthsGuarded_eq (g : Grammar) :
    g.computeLengthsGuarded = .of (.ok g.computeLengths) := by
  apply Guarded.foldlM_eq_of_ok fun h : Grammar => h.size = g.size
  · intro k hk h size
    have inside : k < h.rules.size := by
      show k < h.size
      rw [size]
      exact List.mem_range.mp hk
    simp [refreshLengthGuarded, refreshLength, inside, ruleLengthGuarded_eq]
  · intro k _ h size
    rw [(sameRules_refreshLength h k).size, size]
  · rfl

/-! ### The test for the arena order -/

/-- Checks the rules and the root, and computes the ids that it needs for this. -/
def validateGuarded (g : Grammar) : Guarded Unit := do
  g.rules.toList.zipIdx.forM fun (entry, k) => do
    let id ← Guarded.check (Checked.add g.terminals k)
    Guarded.of (checkRule id entry.rule)
  let _ ← Guarded.check (Checked.add g.terminals g.size)
  Guarded.of g.checkRoot

theorem validateGuarded_eq (fits : g.terminals + g.size ≤ idSpace) :
    g.validateGuarded = .of g.validate := by
  have space : idSpace < wordSpace := by decide
  apply Guarded.bind_eq_of
  · apply Guarded.forM_eq_of
    rintro ⟨entry, k⟩ member
    have inside : k < g.size := by
      have := (List.mem_zipIdx_iff_getElem?.mp member)
      exact (Array.getElem?_eq_some_iff.mp (by simpa using this)).1
    simp [Checked.add_of_lt (show g.terminals + k < wordSpace by omega)]
  · intro _ _
    simp [Checked.add_of_lt (show g.terminals + g.size < wordSpace by omega)]

/-! ### Rules in order -/

/-- The grammar with these rules, in this order, if they are sound. -/
def ofRulesGuarded (t : Nat) (rules : List Rule) (root : Option Symbol) : Guarded Grammar := do
  Guarded.of (checkIdSpace t rules.length)
  (loose t rules root).validateGuarded
  (loose t rules root).computeLengthsGuarded

theorem ofRulesGuarded_eq (t : Nat) (rules : List Rule) (root : Option Symbol) :
    ofRulesGuarded t rules root = .of (ofRules t rules root) := by
  refine Guarded.bind_eq_of rfl fun _ ids => ?_
  have fits : (loose t rules root).terminals + (loose t rules root).size ≤ idSpace := by
    rw [terminals_loose, size_loose]
    exact checkIdSpace_eq_ok_iff.mp ids
  refine Guarded.bind_eq_of (validateGuarded_eq fits) fun _ _ => ?_
  exact computeLengthsGuarded_eq _

/-! ### The search -/

section Search

/-- Looks at operands. The mark of every rule that is looked at must exist. -/
def freshOperandsGuarded (t size : Nat) (s : Search) :
    List Symbol → (fresh : List Nat) → Guarded (List Nat)
  | [], fresh => return fresh
  | v :: rest, fresh => do
    match ← Guarded.of (ruleIndex t size v) with
    | none => freshOperandsGuarded t size s rest fresh
    | some k =>
      match ← Guarded.check s.marks[k]? with
      | .fresh => freshOperandsGuarded t size s rest (k :: fresh)
      | .opened => throw (.malformed (.cycle v))
      | .finished => freshOperandsGuarded t size s rest fresh

/-- Visits a rule, which must exist and have a mark. The bound on the depth must not be reached. -/
def visitGuarded (t : Nat) (rules : Array Rule) :
    (depth : Nat) → (s : Search) → (k : Nat) → Guarded Search
  | 0, _, _ => Guarded.check none
  | depth + 1, s, k => do
    let mark ← Guarded.check s.marks[k]?
    if mark = .finished then return s
    else
      let r ← Guarded.check rules[k]?
      let opened := s.setMark k .opened
      let operands ← Guarded.of (lookedAt r)
      let fresh ← freshOperandsGuarded t rules.size opened operands []
      let below ← fresh.foldlM (visitGuarded t rules depth) opened
      Guarded.demand (k < below.marks.size)
      return below.finish k

def creationOrderGuarded (t : Nat) (rules : Array Rule) : Guarded (Array Nat) := do
  let start : Search := { marks := Array.replicate rules.size .fresh }
  let done ← (List.range rules.size).foldlM (visitGuarded t rules (rules.size + 1)) start
  return done.order

theorem Search.check_marks {s : Search} {k : Nat} (inside : k < s.marks.size) :
    Guarded.check s.marks[k]? = .of (.ok (s.markOf k)) := by
  simp [Search.markOf, Array.getD_eq_getD_getElem?, inside]

theorem freshOperandsGuarded_eq {n : Nat} {s : Search} (size : s.marks.size = n)
    (vs : List Symbol) (before : List Nat) :
    freshOperandsGuarded t n s vs before = .of (freshOperands t n s vs before) := by
  induction vs generalizing before with
  | nil => rfl
  | cons v vs ih =>
      apply Guarded.bind_eq_of rfl
      rintro (_ | k) index
      · exact ih before
      · have inside : k < n := by
          obtain ⟨_, none⟩ | ⟨c, inside, _, some⟩ | ⟨_, e, failed⟩ := ruleIndex_outcome t n v
          · simp [none] at index
          · have : c = k := by simpa [some] using index
            exact this ▸ inside
          · simp [failed] at index
        simp only [Search.check_marks (size ▸ inside), Guarded.of_ok_bind]
        cases s.markOf k with
        | fresh => exact ih (k :: before)
        | opened => rfl
        | finished => exact ih before

variable {arena : Array Rule} {path : List Nat} {s : Search}

/-- A visit that may be made is not refused, and nor is any visit below it. -/
theorem visitGuarded_eq {depth k : Nat} (inv : s.Inv t arena path)
    (enters : Enters t arena path depth k) :
    visitGuarded t arena depth s k = .of (visit t arena depth s k) := by
  -- The invariant of the unguarded visit says that every mark looked at is there, so what the
  -- guarded visit needs at each step is what `visit_answers` has proved about the step before.
  induction depth generalizing path s k with
  | zero =>
      have := inv.length_le
      have := enters.deep
      omega
  | succ depth ih =>
      obtain ⟨r, found⟩ : ∃ r, arena[k]? = some r := ⟨_, Array.getElem?_eq_getElem enters.inside⟩
      rw [visitGuarded, Search.check_marks (inv.size ▸ enters.inside), Guarded.of_ok_bind]
      by_cases finished : s.markOf k = .finished
      · rw [if_pos finished, visit, found, finished]
        rfl
      rw [if_neg finished, visit_of_unfinished found finished, found, Guarded.check_some,
        Guarded.of_ok_bind]
      have unfinished : k ∉ s.order.toList := fun h =>
        finished ((inv.finished k enters.inside).mpr h)
      have entered := inv.enter enters.inside enters.off unfinished
      refine Guarded.bind_eq_of rfl fun vs looked => ?_
      refine Guarded.bind_eq_of (freshOperandsGuarded_eq entered.size vs []) fun fresh listing => ?_
      have below : ∀ c ∈ fresh, Enters t arena (k :: path) depth c := fun c hc =>
        (listed_of_freshOperands listing).enters entered enters found (mem_lookedAt_iff looked) hc
      refine Guarded.bind_eq_of (Guarded.foldlM_eq_of (·.Inv t arena (k :: path)) ?_ ?_ entered)
        fun s' done => ?_
      · exact fun c hc s' inv' => ih inv' (below c hc)
      · exact fun c hc s' s'' inv' done => ((visit_answers inv' (below c hc)).visits done).inv
      · have visits := (foldlM_visit_answers entered fun c hc s' inv' =>
          visit_answers inv' (below c hc)).visits done
        rw [Guarded.demand_of_true (visits.inv.size ▸ enters.inside)]
        rfl

theorem creationOrderGuarded_eq (t : Nat) (arena : Array Rule) :
    creationOrderGuarded t arena = .of (creationOrder t arena) := by
  refine Guarded.bind_eq_of (Guarded.foldlM_eq_of (·.Inv t arena []) ?_ ?_ ?_) fun _ _ => rfl
  · exact fun k hk s inv => visitGuarded_eq inv (enters_start hk)
  · exact fun k hk s s' inv done => ((visit_answers inv (enters_start hk)).visits done).inv
  · exact Search.Inv.start t arena

end Search

/-! ### Rules in any order -/

section Unordered

variable {order : Array Nat} {ids : Array Symbol}

/-- The new symbol of each rule. Symbols are words, and the rules must be there. -/
def newIdsGuarded (t size : Nat) (order : Array Nat) : Guarded (Array Symbol) :=
  order.toList.zipIdx.foldlM
    (fun ids (k, position) => do
      let id ← Guarded.check (Checked.add t position)
      Guarded.demand (id < idSpace)
      Guarded.demand (k < ids.size)
      return ids.setIfInBounds k (.ofNat id))
    (Array.replicate size 0)

/-- Applies a renumbering to a symbol, which must be a terminal or have a new symbol. -/
def renumberGuarded (t : Nat) (ids : Array Symbol) (v : Symbol) : Guarded Symbol :=
  if v.toNat < t then return v
  else do
    let k ← Guarded.check (Checked.sub v.toNat t)
    Guarded.check ids[k]?

def renameGuarded (f : Symbol → Guarded Symbol) : Rule → Guarded Rule
  | .pair a b => do return .pair (← f a) (← f b)
  | .block a n => do return .block (← f a) n

/-- Appends a rule. Its id must be a word, and its operands must be smaller. -/
def pushGuarded (g : Grammar) (r : Rule) : Guarded Grammar := do
  Guarded.demand (g.terminals + g.size < idSpace)
  Guarded.demand (r.maxOperand.toNat < g.terminals + g.size)
  let length ← g.ruleLengthGuarded r
  return { g with rules := g.rules.push ⟨r, length⟩ }

/-- Appends these rules under their new symbols. -/
def appendGuarded (t : Nat) (arena : Array Rule) (ids : Array Symbol) (order : List Nat)
    (g : Grammar) : Guarded Grammar :=
  order.foldlM
    (fun g k => do
      let r ← Guarded.check arena[k]?
      g.pushGuarded (← renameGuarded (renumberGuarded t ids) r)) g

/-- The grammar with these rules in any order, if it is sound. -/
def ofUnorderedGuarded (t : Nat) (rules : List Rule) (root : Option Symbol) : Guarded Grammar := do
  Guarded.of (checkIdSpace t rules.length)
  let order ← creationOrderGuarded t rules.toArray
  let _ ← Guarded.of (root.elim (.ok none) (ruleIndex t rules.length))
  let ids ← newIdsGuarded t rules.length order
  let g ← appendGuarded t rules.toArray ids order.toList { terminals := t }
  let newRoot ← root.elim (pure none) fun v => do return some (← renumberGuarded t ids v)
  let h : Grammar := { g with root := newRoot }
  h.validateGuarded
  return h

theorem newIdsGuarded_eq {n : Nat} (all : Exhausts order n) (fits : t + n ≤ idSpace) :
    newIdsGuarded t n order = .of (.ok (newIds t n order)) := by
  apply Guarded.foldlM_eq_of_ok fun ids : Array Symbol => ids.size = n
  · rintro ⟨k, position⟩ member ids size
    have place := List.mem_zipIdx_iff_getElem?.mp member
    have inside : k < n := (all.mem_iff k).mp (List.mem_of_getElem? place)
    have early : position < n := by
      have := (List.getElem?_eq_some_iff.mp place).1
      rwa [all.length_eq, List.length_range] at this
    have space : idSpace < wordSpace := by decide
    have id : t + position < idSpace := by omega
    simp [Checked.add_of_lt (Nat.lt_trans id space), Guarded.demand_of_true id,
      Guarded.demand_of_true (size.symm ▸ inside : k < ids.size)]
  · intro x _ ids size
    simpa using size
  · simp

theorem renumberGuarded_eq {v : Symbol} (known : v.toNat < t + ids.size) :
    renumberGuarded t ids v = .of (.ok (renumber t ids v)) := by
  by_cases terminal : v.toNat < t
  · simp [renumberGuarded, renumber, terminal]
  · have inside : v.toNat - t < ids.size := by omega
    simp [renumberGuarded, renumber, terminal, Checked.sub_of_le (Nat.not_lt.mp terminal),
      Array.getD_eq_getD_getElem?, inside]

theorem renameGuarded_eq {f : Symbol → Guarded Symbol} {f' : Symbol → Symbol} {r : Rule}
    (operands : ∀ v ∈ r.operands, f v = .of (.ok (f' v))) :
    renameGuarded f r = .of (.ok (r.rename f')) := by
  cases r with
  | pair a b =>
      simp [renameGuarded, Rule.rename, operands a Rule.left_mem_operands,
        operands b Rule.right_mem_operands]
  | block a n => simp [renameGuarded, Rule.rename, operands a Rule.copied_mem_operands]

theorem pushGuarded_eq {r : Rule} (room : g.terminals + g.size < idSpace)
    (sound : r.SoundAt (g.terminals + g.size)) : g.pushGuarded r = .of (.ok (g.push r)) := by
  have smaller : r.maxOperand.toNat < g.terminals + g.size :=
    Rule.maxOperand_lt_iff.mpr fun v hv => sound.operand_lt hv
  simp [pushGuarded, push, Guarded.demand_of_true room, Guarded.demand_of_true smaller,
    ruleLengthGuarded_eq]

/-- Rules that rise are appended one after the other. -/
theorem appendGuarded_eq {arena : Array Rule} {ks : List Nat}
    (known : ∀ k ∈ ks, ∃ r, arena[k]? = some r ∧ ∀ v ∈ r.operands, v.toNat < t + ids.size)
    (room : g.terminals + g.size + ks.length ≤ idSpace)
    (rising : g.Rising (arranged (renumber t ids) arena ks.toArray)) :
    appendGuarded t arena ids ks g =
      .of (.ok (g.pushAll (arranged (renumber t ids) arena ks.toArray))) := by
  induction ks generalizing g with
  | nil => rfl
  | cons k ks ih =>
      obtain ⟨r, found, operands⟩ := known k (by simp)
      have first : arranged (renumber t ids) arena (k :: ks).toArray =
          r.rename (renumber t ids) :: arranged (renumber t ids) arena ks.toArray :=
        List.filterMap_cons_some (by simp [found])
      rw [first] at rising ⊢
      have renamed : renameGuarded (renumberGuarded t ids) r =
          .of (.ok (r.rename (renumber t ids))) :=
        renameGuarded_eq fun v hv => renumberGuarded_eq (operands v hv)
      rw [List.length_cons] at room
      have pushed := pushGuarded_eq (by omega) rising.head
      rw [appendGuarded, List.foldlM_cons, found]
      simp only [Guarded.check_some, Guarded.of_ok_bind, renamed, pushed]
      apply ih (fun j hj => known j (by simp [hj])) _ rising.tail
      rw [terminals_push, size_push]
      omega

/-- What the search found is appended without refusals. -/
theorem appendGuarded_order_eq (all : Exhausts order rules.length)
    (fits : t + rules.length ≤ idSpace) (ready : OperandsFirst t rules.toArray order) :
    appendGuarded t rules.toArray (newIds t rules.length order) order.toList { terminals := t } =
      .of (.ok (pushAll { terminals := t }
        (arranged (renumber t (newIds t rules.length order)) rules.toArray order))) := by
  have rising := rising_arranged all fits ready
  apply appendGuarded_eq
  · intro k hk
    obtain ⟨i, place⟩ := List.getElem?_of_mem hk
    obtain ⟨r, found, behind⟩ := ready i k place
    refine ⟨r, found, fun v hv => ?_⟩
    rw [size_newIds]
    obtain terminal | ⟨c, before, value⟩ := behind.operands v hv
    · omega
    · have := (all.mem_iff c).mp (List.mem_of_mem_take before)
      omega
  · have count : order.toList.length = rules.length := by
      rw [all.length_eq, List.length_range]
    rw [count]
    exact fits
  · exact rising

theorem ofUnorderedGuarded_eq (t : Nat) (rules : List Rule) (root : Option Symbol) :
    ofUnorderedGuarded t rules root = .of (ofUnordered t rules root) := by
  rw [ofUnordered_eq]
  refine Guarded.bind_eq_of rfl fun _ ids => ?_
  have fits : t + rules.length ≤ idSpace := checkIdSpace_eq_ok_iff.mp ids
  refine Guarded.bind_eq_of (creationOrderGuarded_eq t rules.toArray) fun order found => ?_
  obtain ⟨all, ready⟩ : Exhausts order rules.length ∧ _ := exhausts_of_creationOrder found
  refine Guarded.bind_eq_of rfl fun _ index => ?_
  have known := known_of_rootIndex index
  have newRoot : root.elim (pure none) (fun v => do
      return some (← renumberGuarded t (newIds t rules.length order) v)) =
      Guarded.of (.ok (root.map (renumber t (newIds t rules.length order)))) := by
    cases root with
    | none => rfl
    | some v =>
        have inside : v.toNat < t + (newIds t rules.length order).size := by
          rw [size_newIds]
          exact known v rfl
        simp [renumberGuarded_eq inside]
  have room : (appended t rules root order).terminals + (appended t rules root order).size ≤
      idSpace := by
    obtain ⟨σ, ren⟩ := (settles_appended all fits ready known).renumbers
    rwa [ren.terminals, ren.size, terminals_loose, size_loose]
  simp only [newIdsGuarded_eq all fits, appendGuarded_order_eq all fits ready, newRoot,
    Guarded.of_ok_bind]
  exact Guarded.bind_eq_of (validateGuarded_eq room) fun _ _ => rfl

end Unordered

end RunGrammar.Grammar
