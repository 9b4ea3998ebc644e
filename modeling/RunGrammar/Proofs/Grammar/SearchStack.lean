import Mathlib
import RunGrammar.Proofs.Grammar.DepthFirst

/-!
# The search with a stack

Depth-first search without nested visits. What is still to be done lies on a
stack: a rule that is to be entered, or one that is to be finished because
everything above it is done. When a rule is entered, the entry that finishes it
is pushed, and then the operands that are fresh, so that the one looked at last
comes first. An entry that has become stale, since its rule was finished in the
meantime, is dropped.

The loop runs until the stack is empty, and nothing limits it. That it ends does
not depend on how the stack came about: entering a fresh rule leaves fewer fresh
ones, and entering any other rule pushes entries for fresh rules only, of which
there are at most two.

Walking with a rule on top of the stack is visiting it and then walking with the
rest of the stack. The rest plays no part in this, so the statement is about any
stack, and it is proved by induction on the depth that is left, as the invariant
of the search is.
-/

namespace RunGrammar.Grammar

variable {t : Nat} {rules : Array Rule} {path : List Nat} {s s' : Search} {k : Nat}

/-- What is still to be done for a rule. -/
inductive Pending where
  | enter (k : Nat)
  | finish (k : Nat)
deriving DecidableEq, Repr

variable {entry : Pending} {pushed stack : List Pending} {e : Failure}

namespace Search

/-- Enters a rule that is not finished. The answer holds what is to be pushed, the top first. -/
def enter (terminals : Nat) (rules : Array Rule) (s : Search) (k : Nat) (r : Rule) :
    Except Failure (Search × List Pending) := do
  let opened := s.setMark k .opened
  let operands ← lookedAt r
  let fresh ← freshOperands terminals rules.size opened operands []
  return (opened, fresh.map .enter ++ [.finish k])

/-- Deals with the entry that was on top of the stack. A rule that the arrays do not have is
refused. -/
def step (terminals : Nat) (rules : Array Rule) (s : Search) :
    Pending → Option (Except Failure (Search × List Pending))
  | .finish k => if k < s.marks.size then some (.ok (s.finish k, [])) else none
  | .enter k =>
    match s.marks[k]? with
    | none => none
    | some .finished => some (.ok (s, []))
    | some _ => rules[k]?.map (enter terminals rules s k)

/-! ### Every step leaves less to do -/

/-- How many rules are fresh. -/
def untouched (s : Search) : Nat := s.marks.count .fresh

/-- Where no fresh rule is touched, more than what is pushed for the entry. -/
def cost (s : Search) : Pending → Nat
  | .enter k => if s.markOf k = .opened then 4 else 1
  | .finish _ => 1

def load (s : Search) (stack : List Pending) : Nat := (stack.map s.cost).sum

theorem getElem?_marks (hk : k < s.marks.size) : s.marks[k]? = some (s.markOf k) := by
  simp [markOf, hk]

theorem cost_pos (s : Search) (entry : Pending) : 0 < s.cost entry := by
  cases entry with
  | enter k =>
      rw [cost]
      split <;> decide
  | finish k => exact Nat.one_pos

theorem untouched_open_lt (hk : k < s.marks.size) (fresh : s.markOf k = .fresh) :
    (s.setMark k .opened).untouched < s.untouched := by
  have mark : s.marks[k] = .fresh := by simpa [markOf, hk] using fresh
  have some : 0 < s.marks.count .fresh := Array.count_pos_iff.mpr (mark ▸ Array.getElem_mem hk)
  have count : (s.setMark k .opened).untouched = s.marks.count .fresh - 1 := by
    simp [untouched, setMark, Array.setIfInBounds, hk, Array.count_set, mark]
  rw [count]
  exact Nat.sub_lt some Nat.one_pos

theorem setMark_of_opened (hk : k < s.marks.size) (opened : s.markOf k = .opened) :
    s.setMark k .opened = s := by
  have mark : s.marks[k] = .opened := by simpa [markOf, hk] using opened
  simp [setMark, Array.setIfInBounds, hk, ← mark]

theorem untouched_finish_le (s : Search) (hk : k < s.marks.size) :
    (s.finish k).untouched ≤ s.untouched := by
  simp [untouched, finish, Array.setIfInBounds, hk, Array.count_set]

/-- Finishing a rule makes no entry more costly. -/
theorem load_finish_le (hk : k < s.marks.size) (stack : List Pending) :
    (s.finish k).load stack ≤ s.load stack := by
  apply List.sum_le_sum
  intro entry _
  cases entry with
  | finish c => exact Nat.le_refl 1
  | enter c =>
      simp only [cost, markOf_finish hk]
      by_cases same : c = k
      · rw [if_pos same, if_neg (by decide)]
        exact s.cost_pos (.enter c)
      · rw [if_neg same]

theorem length_of_lookedAt {r : Rule} {vs : List Symbol} (looked : lookedAt r = .ok vs) :
    vs.length ≤ 2 := by
  cases r with
  | pair a b =>
      cases looked
      exact Nat.le_refl 2
  | block a n =>
      rw [lookedAt] at looked
      split at looked
      · cases looked
      · cases looked
        exact Nat.le_succ 1

theorem length_of_freshOperands {n : Nat} {vs : List Symbol} {before fresh : List Nat}
    (listing : freshOperands t n s vs before = .ok fresh) :
    fresh.length ≤ before.length + vs.length := by
  induction vs generalizing before with
  | nil =>
      cases listing
      exact Nat.le_refl _
  | cons v vs ih =>
      rw [freshOperands] at listing
      rw [List.length_cons]
      obtain ⟨found, _, listing⟩ := Failing.bind_eq_ok_iff.mp listing
      cases found with
      | none => exact Nat.le_succ_of_le (ih listing)
      | some c =>
          cases mark : s.markOf c with
          | fresh =>
              simp only [mark] at listing
              have := ih listing
              rw [List.length_cons] at this
              omega
          | opened =>
              simp only [mark] at listing
              cases listing
          | finished =>
              simp only [mark] at listing
              exact Nat.le_succ_of_le (ih listing)

/-- At most three entries are pushed, and they cost no more than their number. -/
theorem load_enter_le {r : Rule} (entered : s.enter t rules k r = .ok (s', pushed))
    (stack : List Pending) :
    s' = s.setMark k .opened ∧ s'.load (pushed ++ stack) ≤ 3 + s'.load stack := by
  obtain ⟨vs, looked, entered⟩ := Failing.bind_eq_ok_iff.mp entered
  obtain ⟨fresh, listing, entered⟩ := Failing.bind_eq_ok_iff.mp entered
  cases entered
  have few : fresh.length ≤ 2 :=
    (length_of_freshOperands listing).trans ((Nat.zero_add _).le.trans (length_of_lookedAt looked))
  have each : ∀ c ∈ fresh, (s.setMark k .opened).cost (.enter c) = 1 := by
    intro c hc
    obtain old | ⟨_, mark, _⟩ := (listed_of_freshOperands listing).origin c hc
    · cases old
    · rw [cost, mark, if_neg (by decide)]
  have total : (fresh.map fun c => (s.setMark k .opened).cost (.enter c)).sum = fresh.length := by
    rw [List.map_congr_left each]
    simp
  refine ⟨rfl, ?_⟩
  simp only [load, List.map_append, List.map_map, List.sum_append, List.map_cons, List.map_nil,
    Function.comp_def, total]
  simp only [cost, List.sum_singleton]
  omega

/-- There are fewer fresh rules, or there is less on the stack. -/
def Lessens (s : Search) (before : List Pending) (s' : Search) (after : List Pending) : Prop :=
  s'.untouched < s.untouched ∨ s'.untouched ≤ s.untouched ∧ s'.load after < s.load before

theorem load_cons (s : Search) (entry : Pending) (stack : List Pending) :
    s.load (entry :: stack) = s.cost entry + s.load stack := List.sum_cons

/-- An entry is dropped, and the others do not become more costly. -/
theorem lessens_of_drop (fewer : s'.untouched ≤ s.untouched)
    (lighter : s'.load stack ≤ s.load stack) (entry : Pending) :
    s.Lessens (entry :: stack) s' stack := by
  refine .inr ⟨fewer, ?_⟩
  have positive := s.cost_pos entry
  rw [load_cons]
  omega

theorem lessens_of_enter {r : Rule} (hk : k < s.marks.size) (unfinished : s.markOf k ≠ .finished)
    (entered : s.enter t rules k r = .ok (s', pushed)) (stack : List Pending) :
    s.Lessens (.enter k :: stack) s' (pushed ++ stack) := by
  obtain ⟨same, light⟩ := load_enter_le entered stack
  cases mark : s.markOf k with
  | finished => exact absurd mark unfinished
  | fresh =>
      rw [same]
      exact .inl (untouched_open_lt hk mark)
  | opened =>
      have costly : s.cost (.enter k) = 4 := if_pos mark
      rw [setMark_of_opened hk mark] at same
      rw [same] at light ⊢
      refine .inr ⟨Nat.le_refl _, ?_⟩
      rw [load_cons]
      omega

theorem step_lessens (done : s.step t rules entry = some (.ok (s', pushed)))
    (stack : List Pending) : s.Lessens (entry :: stack) s' (pushed ++ stack) := by
  cases entry with
  | finish k =>
      rw [step] at done
      split at done
      · next hk =>
          cases done
          exact lessens_of_drop (untouched_finish_le s hk) (load_finish_le hk stack) _
      · cases done
  | enter k =>
      rw [step] at done
      split at done
      · cases done
      · cases done
        exact lessens_of_drop (Nat.le_refl _) (Nat.le_refl _) _
      · next other marked =>
          obtain ⟨r, _, entered⟩ := Option.map_eq_some_iff.mp done
          obtain ⟨hk, rfl⟩ := Array.getElem?_eq_some_iff.mp marked
          have unfinished : s.markOf k ≠ .finished := by simpa [markOf, hk] using other
          exact lessens_of_enter hk unfinished entered stack

/-- Takes entries off the stack until it is empty. -/
def walk (terminals : Nat) (rules : Array Rule) (s : Search) :
    (stack : List Pending) → Option (Except Failure Search)
  | [] => some (.ok s)
  | entry :: stack =>
    match _done : s.step terminals rules entry with
    | none => none
    | some (.error e) => some (.error e)
    | some (.ok (s', pushed)) => walk terminals rules s' (pushed ++ stack)
termination_by stack => (s.untouched, s.load stack)
decreasing_by
  obtain fewer | ⟨kept, lighter⟩ := step_lessens _done stack
  · exact Prod.Lex.left _ _ fewer
  · exact Prod.Lex.right' _ kept lighter

end Search

/-- Walks from each of these rules that is still fresh. -/
def walkAll (terminals : Nat) (rules : Array Rule) (s : Search) :
    (starts : List Nat) → Option (Except Failure Search)
  | [] => some (.ok s)
  | k :: starts =>
    match s.marks[k]? with
    | none => none
    | some .fresh =>
      match s.walk terminals rules [.enter k] with
      | none => none
      | some (.error e) => some (.error e)
      | some (.ok s') => walkAll terminals rules s' starts
    | some _ => walkAll terminals rules s starts

/-- The order in which the rules are finished. -/
def stackOrder (terminals : Nat) (rules : Array Rule) :
    Option (Except Failure (Array Nat)) :=
  let start : Search := { marks := Array.replicate rules.size .fresh }
  (walkAll terminals rules start (List.range rules.size)).map (·.map Search.order)

namespace Search

/-! ### Walking is visiting -/

/-- Goes on with this stack, unless the search has failed. -/
def resume (t : Nat) (rules : Array Rule) (stack : List Pending) :
    Except Failure Search → Option (Except Failure Search)
  | .ok s => s.walk t rules stack
  | .error e => some (.error e)

theorem walk_of_ok (done : s.step t rules entry = some (.ok (s', pushed)))
    (stack : List Pending) :
    s.walk t rules (entry :: stack) = s'.walk t rules (pushed ++ stack) := by
  rw [walk, done]

theorem walk_of_error (failed : s.step t rules entry = some (.error e)) (stack : List Pending) :
    s.walk t rules (entry :: stack) = some (.error e) := by
  rw [walk, failed]

theorem walk_finish (hk : k < s.marks.size) (stack : List Pending) :
    s.walk t rules (.finish k :: stack) = (s.finish k).walk t rules stack := by
  have done : s.step t rules (.finish k) = some (.ok (s.finish k, [])) := if_pos hk
  exact walk_of_ok done stack

/-- A stale entry is dropped. -/
theorem walk_of_finished (hk : k < s.marks.size) (finished : s.markOf k = .finished)
    (stack : List Pending) :
    s.walk t rules (.enter k :: stack) = s.walk t rules stack := by
  have done : s.step t rules (.enter k) = some (.ok (s, [])) := by
    rw [step, getElem?_marks hk, finished]
  exact walk_of_ok done stack

theorem step_of_unfinished {r : Rule} (hk : k < s.marks.size) (unfinished : s.markOf k ≠ .finished)
    (found : rules[k]? = some r) : s.step t rules (.enter k) = some (s.enter t rules k r) := by
  rw [step, getElem?_marks hk, found]
  cases mark : s.markOf k with
  | finished => exact absurd mark unfinished
  | fresh => rfl
  | opened => rfl

/-- Rules that are entered one after the other are visited one after the other. -/
theorem walk_foldlM_visit {depth : Nat} {cs : List Nat} (inv : s.Inv t rules path)
    (each : ∀ c ∈ cs, ∀ s : Search, s.Inv t rules path →
      s.Answers t rules path [c] (visit t rules depth s c))
    (walks : ∀ c ∈ cs, ∀ s : Search, s.Inv t rules path → ∀ stack,
      s.walk t rules (.enter c :: stack) = resume t rules stack (visit t rules depth s c))
    (stack : List Pending) :
    s.walk t rules (cs.map .enter ++ stack) =
      resume t rules stack (cs.foldlM (visit t rules depth) s) := by
  induction cs generalizing s with
  | nil => rfl
  | cons c cs ih =>
      rw [List.map_cons, List.cons_append, walks c (by simp) s inv, List.foldlM_cons]
      obtain ⟨s₁, done, visits⟩ | ⟨e, failed, _⟩ := each c (by simp) s inv
      · rw [done, Failing.ok_bind, resume]
        exact ih visits.inv (fun d hd => each d (by simp [hd])) fun d hd => walks d (by simp [hd])
      · rw [failed, Failing.error_bind, resume, resume]

/-- With a rule on top of the stack, the loop visits it and goes on with the rest. -/
theorem walk_enter {depth : Nat} (inv : s.Inv t rules path) (enters : Enters t rules path depth k)
    (stack : List Pending) :
    s.walk t rules (.enter k :: stack) = resume t rules stack (visit t rules depth s k) := by
  induction depth generalizing path s k stack with
  | zero =>
      have := inv.length_le
      have := enters.deep
      omega
  | succ depth ih =>
      obtain ⟨r, found⟩ : ∃ r, rules[k]? = some r := ⟨_, Array.getElem?_eq_getElem enters.inside⟩
      have inside : k < s.marks.size := inv.size ▸ enters.inside
      by_cases finished : s.markOf k = .finished
      · have passed : visit t rules (depth + 1) s k = .ok s := by rw [visit, found, finished]
        rw [passed, walk_of_finished inside finished, resume]
      have unfinished : k ∉ s.order.toList := fun h =>
        finished ((inv.finished k enters.inside).mpr h)
      have entered := inv.enter enters.inside enters.off unfinished
      have step := step_of_unfinished (t := t) inside finished found
      rw [visit_of_unfinished found finished]
      rw [Search.enter] at step
      obtain ⟨vs, looked, operands, _⟩ | ⟨e, failed, _⟩ := lookedAt_outcome r
      · rw [looked, Failing.ok_bind] at step ⊢
        obtain ⟨fresh, listing, listed⟩ | ⟨e, failed, _⟩ :=
          freshOperands_outcome (t := t) rules.size (s.setMark k .opened) vs []
        · rw [listing, Failing.ok_bind] at step ⊢
          have below (c : Nat) (hc : c ∈ fresh) : Enters t rules (k :: path) depth c :=
            listed.enters entered enters found operands hc
          have each (c : Nat) (hc : c ∈ fresh) (s' : Search) (inv' : s'.Inv t rules (k :: path)) :=
            visit_answers inv' (below c hc)
          have walks (c : Nat) (hc : c ∈ fresh) (s' : Search)
              (inv' : s'.Inv t rules (k :: path)) := ih inv' (below c hc)
          rw [walk_of_ok step, List.append_assoc, walk_foldlM_visit entered each walks]
          obtain ⟨s', done, visits⟩ | ⟨e, failed, _⟩ := foldlM_visit_answers entered each
          · have size : k < s'.marks.size := visits.inv.size ▸ enters.inside
            rw [done]
            exact walk_finish size stack
          · rw [failed]
            rfl
        · rw [failed, Failing.error_bind] at step ⊢
          exact walk_of_error step stack
      · rw [failed, Failing.error_bind] at step ⊢
        exact walk_of_error step stack

/-- From an empty stack on, one rule is visited. -/
theorem walk_singleton (inv : s.Inv t rules []) (hk : k ∈ List.range rules.size) :
    s.walk t rules [.enter k] = some (visit t rules (rules.size + 1) s k) := by
  rw [walk_enter inv (enters_start hk)]
  cases visit t rules (rules.size + 1) s k with
  | error e => rfl
  | ok s' => rw [resume, walk]

end Search

theorem walkAll_eq {starts : List Nat} (inv : s.Inv t rules [])
    (inside : starts ⊆ List.range rules.size) :
    walkAll t rules s starts = some (starts.foldlM (visit t rules (rules.size + 1)) s) := by
  induction starts generalizing s with
  | nil => rfl
  | cons k starts ih =>
      obtain ⟨hk, later⟩ := List.cons_subset.mp inside
      have range : k < rules.size := List.mem_range.mp hk
      obtain ⟨r, found⟩ : ∃ r, rules[k]? = some r := ⟨_, Array.getElem?_eq_getElem range⟩
      rw [walkAll, Search.getElem?_marks (inv.size ▸ range), List.foldlM_cons]
      cases mark : s.markOf k with
      | fresh =>
          simp only [Search.walk_singleton inv hk]
          obtain ⟨s', done, visits⟩ | ⟨e, failed, _⟩ := visit_answers inv (enters_start hk)
          · simp only [done, Failing.ok_bind]
            exact ih visits.inv later
          · simp only [failed, Failing.error_bind]
      | opened => cases (inv.opened k).mp mark
      | finished =>
          have passed : visit t rules (rules.size + 1) s k = .ok s := by rw [visit, found, mark]
          rw [passed, Failing.ok_bind]
          exact ih inv later

/-- The search with a stack ends, and with the same order or the same failure. -/
theorem stackOrder_eq (t : Nat) (rules : Array Rule) :
    stackOrder t rules = some (creationOrder t rules) := by
  rw [stackOrder, walkAll_eq (Search.Inv.start t rules) (List.Subset.refl _), creationOrder]
  cases (List.range rules.size).foldlM (visit t rules (rules.size + 1))
      { marks := Array.replicate rules.size .fresh } with
  | ok s => rfl
  | error e => rfl

end RunGrammar.Grammar
