import Mathlib
import RunGrammar.Proofs.Compression.Course
import RunGrammar.Proofs.Compression.Lossless
import RunGrammar.Proofs.Grammar.Heights

/-!
# Logarithmic rounds

A text of `m` symbols has `m - 1` gaps between neighbours. When a round replaces
pairs, no symbol stands beside itself, so at least a quarter of the gaps hold an
eligible pair, and each of these is closed. Hence the number of gaps falls to
three quarters or less in every round, and the number of rounds is at most
logarithmic in the length of the source.

A phase makes the symbols of the text higher by one at most, and a round has two
phases. This bounds the depth of the grammar by twice the number of rounds.

What a round has done is read off the reports of the compression.
-/

namespace RunGrammar

/-- A round in numbers: how many runs and pairs it replaced, and how long the text was. -/
inductive RoundRecord where
  /-- At most one symbol was left of the runs, and the second phase was left out. -/
  | runsOnly (runs before after : Nat)
  | runsAndPairs (runs before between pairs after : Nat)
deriving DecidableEq, Repr

namespace RoundRecord

/-- The length of the text at the start of the round. -/
def before : RoundRecord → Nat
  | runsOnly _ before _ => before
  | runsAndPairs _ before _ _ _ => before

/-- The length of the text at the end of the round. -/
def after : RoundRecord → Nat
  | runsOnly _ _ after => after
  | runsAndPairs _ _ _ _ after => after

/-- What a round reports at a level. -/
def reports (level : Nat) : RoundRecord → List Event
  | runsOnly runs before after => [.runsReplaced level runs before after]
  | runsAndPairs runs before between pairs after =>
    [.runsReplaced level runs before between, .pairsReplaced level pairs between after]

/-- A round begins with two or more symbols and closes at least a quarter of the gaps. -/
def Shrinks (r : RoundRecord) : Prop := 1 < r.before ∧ 4 * (r.after - 1) ≤ 3 * (r.before - 1)

end RoundRecord

/-- The records of all rounds, first round first. -/
abbrev RoundLog := List RoundRecord

namespace RoundLog

/-- What the rounds report, beginning with level zero. -/
def reports (log : RoundLog) : List Event :=
  log.zipIdx.flatMap fun (r, level) => r.reports level

/-- The rounds lead from one length of the text to another: each of them begins with what the one
before has left. -/
def Leads : (start : Nat) → RoundLog → (stop : Nat) → Prop
  | start, [], stop => start = stop
  | start, r :: log, stop => r.before = start ∧ Leads r.after log stop

variable {log : RoundLog} {r : RoundRecord} {start stop : Nat}

theorem Leads.concat (leads : Leads start log r.before) : Leads start (log ++ [r]) r.after := by
  induction log generalizing start with
  | nil => exact ⟨leads.symm, rfl⟩
  | cons first log ih => exact ⟨leads.1, ih leads.2⟩

/-- Rounds that close a quarter of the gaps are few. -/
theorem Leads.length_le (leads : Leads start log stop) (shrinks : ∀ r ∈ log, r.Shrinks) {k : Nat}
    (bound : 3 ^ k * (start - 1) < 4 ^ k) : log.length ≤ k := by
  induction log generalizing start k with
  | nil => exact Nat.zero_le k
  | cons r log ih =>
      obtain ⟨rfl, rest⟩ := leads
      obtain ⟨long, fewer⟩ := shrinks r List.mem_cons_self
      cases k with
      | zero => omega
      | succ k =>
          -- The first round turns the bound for `k + 1` rounds into that for `k` rounds.
          have later : 4 * (3 ^ k * (r.after - 1)) < 4 * 4 ^ k :=
            calc 4 * (3 ^ k * (r.after - 1)) = 3 ^ k * (4 * (r.after - 1)) := by ring
              _ ≤ 3 ^ k * (3 * (r.before - 1)) := Nat.mul_le_mul_left _ fewer
              _ = 3 ^ (k + 1) * (r.before - 1) := by ring
              _ < 4 ^ (k + 1) := bound
              _ = 4 * 4 ^ k := Nat.pow_succ'
          exact Nat.succ_le_succ (ih rest (fun r hr => shrinks r (List.mem_cons_of_mem _ hr))
            (Nat.lt_of_mul_lt_mul_left later))

/-- The log of all rounds before a level. They lead from one length of the text to another, and all
of them shrink it. -/
structure UpTo (log : RoundLog) (level start stop : Nat) : Prop where
  length_eq : log.length = level
  leads : log.Leads start stop
  shrinks : ∀ r ∈ log, r.Shrinks

theorem UpTo.concat {level : Nat} (rounds : log.UpTo level start r.before) (shrinks : r.Shrinks) :
    (log ++ [r]).UpTo (level + 1) start r.after where
  length_eq := by rw [List.length_append, List.length_singleton, rounds.length_eq]
  leads := rounds.leads.concat
  shrinks s hs := by
    obtain old | new := List.mem_append.mp hs
    · exact rounds.shrinks s old
    · exact List.mem_singleton.mp new ▸ shrinks

theorem UpTo.reports_concat {level : Nat} (rounds : log.UpTo level start stop) (r : RoundRecord) :
    reports (log ++ [r]) = log.reports ++ r.reports level := by
  simp [reports, List.zipIdx_append, rounds.length_eq]

end RoundLog

/-! ### The rounds of a compression -/

/-- Replacing the eligible pairs closes at least a quarter of the gaps. -/
theorem Partition.length_pairPieces_le {text : Text} (distinct : text.Distinct) :
    4 * (((ofText text).pairPieces text).length - 1) ≤ 3 * (text.length - 1) := by
  have paid := ((ofText text).spells_pairPieces text).length_add_foldedCount_le
  have quarter := length_le_four_mul_eligibleCount distinct
  rw [← foldedCount_pairPieces] at quarter
  omega

/-- The rounds that are over have been reported, and they lead from the source to the text. Between
the phases of a round, the first one has been reported as well. -/
def Point.Recorded (source : Text) : Point → Workspace Unit → Prop
  | before level, w => ∃ log : RoundLog,
      log.UpTo level source.length w.text.length ∧ w.events = log.reports
  | between level, w => ∃ (log : RoundLog) (runs before : Nat),
      log.UpTo level source.length before ∧
      w.events = log.reports ++ [.runsReplaced level runs before w.text.length] ∧
      1 < before ∧ w.text.length ≤ before

theorem Naming.recorded_of_reaches {n : Naming} {terminals : Nat} {source : Text} {point : Point}
    {w : Workspace Unit} (short : source.length < idSpace) (small : terminals ≤ idSpace)
    (below : ∀ a ∈ source, a.toNat < terminals)
    (reached : n.method.Reaches (start terminals source) point w) : point.Recorded source w := by
  induction reached with
  | start => exact ⟨[], ⟨rfl, rfl, fun r hr => by cases hr⟩, rfl⟩
  | @runs level count w _ reached long done ih =>
      obtain ⟨log, rounds, events⟩ := ih
      obtain ⟨stage, _⟩ := stage_of_reaches short small below reached
      have spells := Text.spells_runPieces (Nat.lt_of_le_of_lt stage.short short)
      obtain ⟨rules, _, _, rfl⟩ := folding_of_ok stage spells done
      have fewer : (w.text.runPieces.map (symbolOf w.grammar rules)).length ≤ w.text.length := by
        rw [List.length_map]
        exact Nat.le_of_add_right_le spells.length_add_foldedCount_le
      exact ⟨log, count, w.text.length, rounds, congrArg (· ++ _) events, long, fewer⟩
  | @pairs level count w _ reached long done ih =>
      obtain ⟨log, runs, before, rounds, events, many, fewer⟩ := ih
      obtain ⟨stage, distinct⟩ := stage_of_reaches short small below reached
      obtain ⟨rules, _, _, rfl⟩ := folding_of_ok stage
        ((Partition.ofText w.text).spells_pairPieces w.text) done
      have closed := Partition.length_pairPieces_le (distinct level rfl)
      let after := ((Partition.ofText w.text).pairPieces w.text).map (symbolOf w.grammar rules)
      have length : after.length = ((Partition.ofText w.text).pairPieces w.text).length :=
        List.length_map _
      let r : RoundRecord := .runsAndPairs runs before w.text.length count after.length
      have shrinks : r.Shrinks := by
        refine ⟨many, ?_⟩
        show 4 * (after.length - 1) ≤ 3 * (before - 1)
        omega
      refine ⟨log ++ [r], rounds.concat shrinks, ?_⟩
      show w.events ++ [_] = _
      rw [rounds.reports_concat, events, List.append_assoc]
      rfl
  | @single level w reached last ih =>
      obtain ⟨log, runs, before, rounds, events, many, fewer⟩ := ih
      let r : RoundRecord := .runsOnly runs before w.text.length
      have shrinks : r.Shrinks := by
        refine ⟨many, ?_⟩
        show 4 * (w.text.length - 1) ≤ 3 * (before - 1)
        omega
      refine ⟨log ++ [r], rounds.concat shrinks, ?_⟩
      rw [rounds.reports_concat, events]
      rfl

/-! ### The height of the symbols -/

namespace Folding

variable {terminals : Nat} {source text : Text} {g : Grammar} {pieces : List Piece}
variable {rules : List Rule}

/-- A phase adds one level to the symbols of the text at most. -/
theorem height_symbolOf_le (f : Folding terminals source g text pieces rules) {n : Nat}
    (bound : ∀ c ∈ text, g.height c ≤ n) {piece : Piece} (h : piece ∈ pieces) :
    (g.pushAll rules).height (Naming.symbolOf g rules piece) ≤ n + 1 := by
  have old : ∀ c ∈ text, (g.pushAll rules).height c ≤ n := fun c hc => by
    rw [Grammar.height_pushAll_of_known (f.stage.known c hc)]
    exact bound c hc
  cases piece with
  | kept c => exact Nat.le_succ_of_le (old c (f.spells.kept_mem h))
  | folded r =>
      have ordered := (f.stage.fold f.spells f.covers f.fits).arena.ordered
      rw [ordered.height_of_rule? (f.rule?_symbolOf h)]
      exact Grammar.ruleHeight_le fun a ha => old a (f.spells.operand_mem h ha)

end Folding

/-- The number of phases that have been carried out. -/
def Point.phases : Point → Nat
  | before level => 2 * level
  | between level => 2 * level + 1

/-- No symbol of the text is higher than there were phases. -/
def Point.Flat (point : Point) (g : Grammar) (text : Text) : Prop :=
  ∀ c ∈ text, g.height c ≤ point.phases

namespace Naming.Completes

variable {n : Naming} {terminals levels : Nat} {source : Text} {u : Workspace Unit}

theorem height_le (run : n.Completes terminals source levels u) (short : source.length < idSpace)
    {c : Symbol} (hc : c ∈ u.text) : u.grammar.height c ≤ 2 * levels := by
  suffices flat : Point.Flat (.before levels) u.grammar u.text from flat c hc
  refine Naming.along short run.small run.below ?_ ?_ ?_ ?_ run.reached
  · intro c hc
    rw [Grammar.height_of_rule?_none (Grammar.rule?_of_terminal (run.below c hc))]
    exact Nat.zero_le _
  · intro level g text rules f flat c hc
    obtain ⟨piece, member, rfl⟩ := List.mem_map.mp hc
    exact f.height_symbolOf_le flat member
  · intro level g text rules _ f flat c hc
    obtain ⟨piece, member, rfl⟩ := List.mem_map.mp hc
    exact f.height_symbolOf_le flat member
  · intro level g text _ flat c hc
    exact Nat.le_succ_of_le (flat c hc)

/-- Each round makes the derivation tree higher by two at most. -/
theorem depth_le (run : n.Completes terminals source levels u) (short : source.length < idSpace) :
    u.rooted.measures.depth ≤ 2 * levels := by
  have known : ∀ v, u.rooted.root = some v → u.rooted.Known v := fun v hv =>
    (run.stage short).known v (List.mem_of_head? hv)
  rw [(run.arena short).ordered.depth_measures known]
  cases root : u.rooted.root with
  | none => exact Nat.zero_le _
  | some v =>
      have same : u.rooted.height v = u.grammar.height v :=
        Grammar.height_congr_upTo v fun w _ => u.rule?_rooted w
      rw [Option.elim_some, same]
      exact run.height_le short (List.mem_of_head? root)

end Naming.Completes

namespace Compressor

/-- The rounds that are reported lead from the text to its root, and each of them closes at least a
quarter of the gaps between the symbols. So there are at most `k` rounds, and the depth of the
grammar is at most `2 * k`, for all `k` with `3 ^ k * (text.length - 1) < 4 ^ k`. -/
theorem compress_rounds_logarithmic (c : Compressor) (terminals : Nat) (text : Text)
    (short : text.length < idSpace) (g : Grammar)
    (done : (c.compress terminals text).1.result = .ok g) :
    ∃ log : RoundLog,
      (c.compress terminals text).1.events =
        log.reports ++ [.finished c.strategy.name g.size g.blocks log.length g.textLength] ∧
      log.Leads text.length g.root.toList.length ∧
      (∀ r ∈ log, 1 < r.before ∧ 4 * (r.after - 1) ≤ 3 * (r.before - 1)) ∧
      ∀ k, 3 ^ k * (text.length - 1) < 4 ^ k → log.length ≤ k ∧ g.measures.depth ≤ 2 * k := by
  obtain ⟨levels, u, run, rfl, reported⟩ := c.completes_of_ok short done
  obtain ⟨log, rounds, events⟩ :=
    Naming.recorded_of_reaches short run.small run.below run.reached
  obtain rfl := rounds.length_eq
  refine ⟨log, ?_, ?_, rounds.shrinks, ?_⟩
  · rw [reported, events]
    rfl
  · rw [u.toList_root_rooted run.last]
    exact rounds.leads
  · intro k bound
    have few := rounds.leads.length_le rounds.shrinks bound
    exact ⟨few, Nat.le_trans (run.depth_le short) (Nat.mul_le_mul_left 2 few)⟩

/-- Five symbols take five rounds at most. -/
theorem compress_rounds_logarithmic_five : ([0, 0, 1, 0, 1] : Text).length < idSpace ∧
    3 ^ 5 * (([0, 0, 1, 0, 1] : Text).length - 1) < 4 ^ 5 ∧
    ∃ g, ((dense #[]).compress 2 [0, 0, 1, 0, 1]).1.result = .ok g ∧ g.measures.depth ≤ 10 := by
  have short : ([0, 0, 1, 0, 1] : Text).length < idSpace := by decide
  have bound : 3 ^ 5 * (([0, 0, 1, 0, 1] : Text).length - 1) < 4 ^ 5 := by decide
  obtain ⟨g, done⟩ : ∃ g, ((dense #[]).compress 2 [0, 0, 1, 0, 1]).1.result = .ok g :=
    exists_result_of_room _ short (by simp) (by simp [idSpace])
  obtain ⟨_, _, _, _, few⟩ :=
    compress_rounds_logarithmic (dense #[]) 2 [0, 0, 1, 0, 1] short g done
  exact ⟨short, bound, g, done, (few 5 bound).2⟩

end Compressor

end RunGrammar
