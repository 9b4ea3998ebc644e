import Mathlib
import RunGrammar.Proofs.Grammar.Renumbering

/-!
# Operands first, by depth-first search

The search puts rules into an order in which operands come before the rules that
use them, or it reports why there is none. Its invariant: the open rules are
those on the path to the rule that is visited, each of them needs the next one,
and every finished rule stands behind its operands. A rule on the path that is
needed again closes a cycle. Since the rules on the path are different, there
are at most as many of them as there are rules, so the bound on the depth of the
search is never reached.
-/

namespace RunGrammar.Grammar

variable {t : Nat} {rules : Array Rule}

/-- Rule `k` has the symbol of rule `c` as an operand. -/
def Uses (t : Nat) (rules : Array Rule) (k c : Nat) : Prop :=
  ∃ r, rules[k]? = some r ∧ ∃ v ∈ r.operands, v.toNat = t + c

/-- Rules that have an order in which operands come first. -/
structure Orderable (t : Nat) (rules : Array Rule) : Prop where
  /-- Operands are terminals or symbols of rules, and blocks have copies enough. -/
  sound : ∀ (k : Nat) (r : Rule), rules[k]? = some r → r.SoundAt (t + rules.size)
  acyclic : ∀ k, ¬ Relation.TransGen (Uses t rules) k k

/-- A rule that may come after these ones. -/
structure Ready (t : Nat) (earlier : List Nat) (r : Rule) : Prop where
  copies : ∀ a n, r = .block a n → 2 ≤ n.toNat
  operands : ∀ v ∈ r.operands, v.toNat < t ∨ ∃ c ∈ earlier, v.toNat = t + c

/-- An order in which every rule stands behind its operands. -/
def OperandsFirst (t : Nat) (rules : Array Rule) (order : Array Nat) : Prop :=
  ∀ (i k : Nat), order.toList[i]? = some k →
    ∃ r, rules[k]? = some r ∧ Ready t (order.toList.take i) r

/-! ### Looking at the operands -/

theorem ruleIndex_outcome (t n : Nat) (v : Symbol) :
    (v.toNat < t ∧ ruleIndex t n v = .ok none) ∨
    (∃ c, c < n ∧ v.toNat = t + c ∧ ruleIndex t n v = .ok (some c)) ∨
    t + n ≤ v.toNat ∧ ∃ e, ruleIndex t n v = .error e := by
  unfold ruleIndex
  by_cases terminal : v.toNat < t
  · exact .inl ⟨terminal, if_pos terminal⟩
  rw [if_neg terminal]
  by_cases inside : v.toNat - t < n
  · exact .inr (.inl ⟨v.toNat - t, inside, by omega, if_pos inside⟩)
  · exact .inr (.inr ⟨by omega, _, if_neg inside⟩)

theorem lookedAt_outcome (r : Rule) :
    (∃ vs, lookedAt r = .ok vs ∧ (∀ v, v ∈ vs ↔ v ∈ r.operands) ∧
      ∀ a n, r = .block a n → 2 ≤ n.toNat) ∨
    ∃ e, lookedAt r = .error e ∧ ∀ id, ¬ r.SoundAt id := by
  cases r with
  | pair a b =>
      refine .inl ⟨[b, a], rfl, ?_, by simp⟩
      intro v
      simp [Rule.operands, or_comm]
  | block a n =>
      by_cases short : n < 2
      · have few : n.toNat < 2 := by simpa [UInt32.lt_iff_toNat_lt] using short
        exact .inr ⟨_, if_pos short, fun id sound => Nat.not_le.mpr few sound.2⟩
      · have enough : 2 ≤ n.toNat := by simpa [UInt32.le_iff_toNat_le] using short
        refine .inl ⟨[a], if_neg short, fun v => Iff.rfl, ?_⟩
        rintro _ _ ⟨⟩
        exact enough

theorem mem_lookedAt_iff {r : Rule} {vs : List Symbol} (looked : lookedAt r = .ok vs) (v : Symbol) :
    v ∈ vs ↔ v ∈ r.operands := by
  obtain ⟨us, same, operands, _⟩ | ⟨e, failed, _⟩ := lookedAt_outcome r
  · cases same.symm.trans looked
    exact operands v
  · cases failed.symm.trans looked

/-- An operand that is left behind when these rules are finished, too. -/
def Passed (t n : Nat) (s : Search) (fresh : List Nat) (v : Symbol) : Prop :=
  v.toNat < t ∨ ∃ c, c < n ∧ v.toNat = t + c ∧ (s.markOf c = .finished ∨ c ∈ fresh)

theorem Passed.mono {n : Nat} {s : Search} {fresh fresh' : List Nat} {v : Symbol}
    (h : Passed t n s fresh v) (more : fresh ⊆ fresh') : Passed t n s fresh' v := by
  obtain terminal | ⟨c, inside, value, finished | listed⟩ := h
  · exact .inl terminal
  · exact .inr ⟨c, inside, value, .inl finished⟩
  · exact .inr ⟨c, inside, value, .inr (more listed)⟩

/-- The rules that are listed for some operands, behind others that were listed before. -/
structure Listed (t n : Nat) (s : Search) (vs : List Symbol) (before fresh : List Nat) : Prop where
  kept : before ⊆ fresh
  origin : ∀ c ∈ fresh, c ∈ before ∨ c < n ∧ s.markOf c = .fresh ∧ ∃ v ∈ vs, v.toNat = t + c
  passed : ∀ v ∈ vs, Passed t n s fresh v

/-- Some operand has no rule, or a rule that waits for this one. -/
def Obstructed (t n : Nat) (s : Search) (vs : List Symbol) : Prop :=
  ∃ v ∈ vs, t + n ≤ v.toNat ∨ ∃ c, v.toNat = t + c ∧ s.markOf c = .opened

theorem Listed.cons {n : Nat} {s : Search} {v : Symbol} {vs : List Symbol}
    {before between fresh : List Nat} (rest : Listed t n s vs between fresh)
    (kept : before ⊆ between)
    (origin : ∀ c ∈ between, c ∈ before ∨ c < n ∧ s.markOf c = .fresh ∧ v.toNat = t + c)
    (passed : Passed t n s between v) : Listed t n s (v :: vs) before fresh where
  kept := List.Subset.trans kept rest.kept
  origin c hc := by
    obtain listed | ⟨inside, mark, u, hu, value⟩ := rest.origin c hc
    · exact (origin c listed).imp_right
        fun ⟨inside, mark, value⟩ => ⟨inside, mark, v, by simp, value⟩
    · exact .inr ⟨inside, mark, u, by simp [hu], value⟩
  passed := List.forall_mem_cons.mpr ⟨passed.mono rest.kept, rest.passed⟩

/-- Looking at the operands lists the rules that are still to be visited, unless an operand stands
in the way. -/
theorem freshOperands_outcome (n : Nat) (s : Search) (vs : List Symbol) (before : List Nat) :
    (∃ fresh, freshOperands t n s vs before = .ok fresh ∧ Listed t n s vs before fresh) ∨
    ∃ e, freshOperands t n s vs before = .error e ∧ Obstructed t n s vs := by
  induction vs generalizing before with
  | nil => exact .inl ⟨before, rfl, fun _ h => h, fun _ h => .inl h, by simp⟩
  | cons v vs ih =>
      -- What is found out about `v` goes together with what is found out about the others.
      have go (between : List Nat) (kept : before ⊆ between)
          (origin : ∀ c ∈ between, c ∈ before ∨ c < n ∧ s.markOf c = .fresh ∧ v.toNat = t + c)
          (passed : Passed t n s between v) :
          (∃ fresh, freshOperands t n s vs between = .ok fresh ∧
            Listed t n s (v :: vs) before fresh) ∨
          ∃ e, freshOperands t n s vs between = .error e ∧ Obstructed t n s (v :: vs) := by
        obtain ⟨fresh, done, rest⟩ | ⟨e, failed, u, hu, obstacle⟩ := ih between
        · exact .inl ⟨fresh, done, rest.cons kept origin passed⟩
        · exact .inr ⟨e, failed, u, by simp [hu], obstacle⟩
      rw [freshOperands]
      obtain ⟨terminal, index⟩ | ⟨c, inside, value, index⟩ | ⟨unknown, e, index⟩ :=
        ruleIndex_outcome t n v
      · rw [index]
        exact go before (fun _ h => h) (fun _ h => .inl h) (.inl terminal)
      · rw [index, Failing.ok_bind]
        simp only
        cases mark : s.markOf c with
        | fresh =>
            refine go (c :: before) (by simp) ?_ (.inr ⟨c, inside, value, .inr (by simp)⟩)
            rintro d hd
            obtain rfl | old := List.mem_cons.mp hd
            · exact .inr ⟨inside, mark, value⟩
            · exact .inl old
        | opened => exact .inr ⟨_, rfl, v, by simp, .inr ⟨c, value, mark⟩⟩
        | finished =>
            exact go before (fun _ h => h) (fun _ h => .inl h)
              (.inr ⟨c, inside, value, .inl mark⟩)
      · rw [index]
        exact .inr ⟨e, rfl, v, by simp, .inl unknown⟩

theorem listed_of_freshOperands {n : Nat} {s : Search} {vs : List Symbol} {before fresh : List Nat}
    (listing : freshOperands t n s vs before = .ok fresh) : Listed t n s vs before fresh := by
  obtain ⟨fresh', same, listed⟩ | ⟨e, failed, _⟩ := freshOperands_outcome (t := t) n s vs before
  · cases same.symm.trans listing
    exact listed
  · cases failed.symm.trans listing

/-! ### The marks -/

namespace Search

variable {s : Search} {k c : Nat} {m : Mark}

theorem markOf_setMark (hk : k < s.marks.size) :
    (s.setMark k m).markOf c = if c = k then m else s.markOf c := by
  by_cases same : c = k
  · subst same
    simp [markOf, setMark, Array.getD_eq_getD_getElem?, hk]
  · simp [markOf, setMark, Array.getD_eq_getD_getElem?, same, Ne.symm same]

theorem finish_eq (s : Search) (k : Nat) :
    s.finish k = { s.setMark k .finished with order := s.order.push k } := rfl

theorem markOf_finish (hk : k < s.marks.size) :
    (s.finish k).markOf c = if c = k then .finished else s.markOf c :=
  markOf_setMark hk

end Search

/-- What holds of the search while the rules on this path are open. -/
structure Search.Inv (t : Nat) (rules : Array Rule) (path : List Nat) (s : Search) : Prop where
  size : s.marks.size = rules.size
  opened : ∀ k, s.markOf k = .opened ↔ k ∈ path
  finished : ∀ k, k < rules.size → (s.markOf k = .finished ↔ k ∈ s.order.toList)
  inside : ∀ k ∈ s.order.toList, k < rules.size
  /-- No rule is open twice. -/
  simple : path.Nodup
  /-- No rule is finished twice. -/
  nodup : s.order.toList.Nodup
  ready : OperandsFirst t rules s.order

namespace Search.Inv

variable {path : List Nat} {s : Search} {k : Nat}

theorem start (t : Nat) (rules : Array Rule) :
    Search.Inv t rules [] { marks := Array.replicate rules.size .fresh } where
  size := by simp
  opened k := by
    by_cases inside : k < rules.size <;>
      simp [Search.markOf, Array.getD_eq_getD_getElem?, inside]
  finished k inside := by simp [Search.markOf, Array.getD_eq_getD_getElem?, inside]
  inside := by simp
  simple := List.nodup_nil
  nodup := by simp
  ready := by simp [OperandsFirst]

theorem lt_of_mem (inv : s.Inv t rules path) (hk : k ∈ path) : k < rules.size := by
  by_contra outside
  have unmarked : s.markOf k = .finished := by
    simp [Search.markOf, Array.getD_eq_getD_getElem?, inv.size, outside]
  have opened := (inv.opened k).mpr hk
  rw [unmarked] at opened
  cases opened

theorem not_mem_path (inv : s.Inv t rules path) (hk : k ∈ s.order.toList) : k ∉ path := by
  intro onPath
  have opened := (inv.opened k).mpr onPath
  rw [(inv.finished k (inv.inside k hk)).mpr hk] at opened
  cases opened

/-- Opening a rule puts it at the end of the path. -/
theorem enter (inv : s.Inv t rules path) (hk : k < rules.size) (off : k ∉ path)
    (unfinished : k ∉ s.order.toList) :
    (s.setMark k .opened).Inv t rules (k :: path) where
  size := by simp [Search.setMark, inv.size]
  opened c := by
    rw [Search.markOf_setMark (inv.size ▸ hk), List.mem_cons, ← inv.opened]
    by_cases same : c = k <;> simp [same]
  finished c hc := by
    rw [Search.markOf_setMark (inv.size ▸ hk)]
    by_cases same : c = k
    · subst same
      simpa [Search.setMark] using unfinished
    · rw [if_neg same]
      exact inv.finished c hc
  inside := inv.inside
  simple := List.nodup_cons.mpr ⟨off, inv.simple⟩
  nodup := inv.nodup
  ready := inv.ready

/-- Finishing the rule at the end of the path puts it behind the others. -/
theorem finish (inv : s.Inv t rules (k :: path)) {r : Rule} (found : rules[k]? = some r)
    (ready : Ready t s.order.toList r) : (s.finish k).Inv t rules path where
  size := by simp [Search.finish_eq, Search.setMark, inv.size]
  opened c := by
    rw [Search.markOf_finish (inv.size ▸ inv.lt_of_mem (by simp))]
    by_cases same : c = k
    · subst same
      simp [(List.nodup_cons.mp inv.simple).1]
    · rw [if_neg same, inv.opened, List.mem_cons]
      simp [same]
  finished c hc := by
    rw [Search.markOf_finish (inv.size ▸ inv.lt_of_mem (by simp))]
    by_cases same : c = k
    · simp [same, Search.finish_eq]
    · rw [if_neg same, inv.finished c hc]
      simp [same, Search.finish_eq]
  inside c hc := by
    obtain old | rfl : c ∈ s.order.toList ∨ c = k := by simpa [Search.finish_eq] using hc
    · exact inv.inside c old
    · exact inv.lt_of_mem (by simp)
  simple := (List.nodup_cons.mp inv.simple).2
  nodup := by
    have fresh : k ∉ s.order.toList := fun h => inv.not_mem_path h (by simp)
    simpa [Search.finish_eq] using List.nodup_append.mpr
      ⟨inv.nodup, List.nodup_singleton k, by rintro a ha b hb rfl; simp_all⟩
  ready i c hc := by
    have order : (s.finish k).order.toList = s.order.toList ++ [k] := by
      simp [Search.finish_eq]
    rw [order] at hc ⊢
    by_cases before : i < s.order.toList.length
    · rw [List.getElem?_append_left before] at hc
      rw [List.take_append_of_le_length before.le]
      exact inv.ready i c hc
    · have last : i = s.order.toList.length := by
        have := (List.getElem?_eq_some_iff.mp hc).1
        rw [List.length_append, List.length_singleton] at this
        omega
      subst last
      obtain rfl : k = c := by simpa using hc
      rw [List.take_left]
      exact ⟨r, found, ready⟩

/-- There are no more open rules than rules. -/
theorem length_le (inv : s.Inv t rules path) : path.length ≤ rules.size := by
  have among : path ⊆ List.range rules.size := fun k hk => List.mem_range.mpr (inv.lt_of_mem hk)
  simpa using (List.subperm_of_subset inv.simple among).length_le

end Search.Inv

/-! ### The search -/

/-- The search went on from one state to another and finished these rules. -/
structure Search.Visits (t : Nat) (rules : Array Rule) (path ks : List Nat) (s s' : Search) :
    Prop where
  inv : s'.Inv t rules path
  kept : s.order.toList ⊆ s'.order.toList
  finished : ks ⊆ s'.order.toList

/-- A step of the search either finishes these rules or fails, and then for a reason. -/
def Search.Answers (t : Nat) (rules : Array Rule) (path ks : List Nat) (s : Search)
    (answer : Except Failure Search) : Prop :=
  (∃ s', answer = .ok s' ∧ s.Visits t rules path ks s') ∨
    ∃ e, answer = .error e ∧ ¬ Orderable t rules

theorem Search.Answers.visits {path ks : List Nat} {s s' : Search} {answer : Except Failure Search}
    (answers : s.Answers t rules path ks answer) (done : answer = .ok s') :
    s.Visits t rules path ks s' := by
  obtain ⟨s'', same, visits⟩ | ⟨e, failed, _⟩ := answers
  · cases same.symm.trans done
    exact visits
  · cases failed.symm.trans done

section Visit

variable {path : List Nat} {s : Search} {k : Nat}

/-- If each of some rules can be visited, they can be visited one after the other. -/
theorem foldlM_visit_answers {depth : Nat} {cs : List Nat} (inv : s.Inv t rules path)
    (each : ∀ c ∈ cs, ∀ s : Search, s.Inv t rules path →
      s.Answers t rules path [c] (visit t rules depth s c)) :
    s.Answers t rules path cs (cs.foldlM (visit t rules depth) s) := by
  induction cs generalizing s with
  | nil => exact .inl ⟨s, rfl, inv, fun _ h => h, List.nil_subset _⟩
  | cons c cs ih =>
      rw [List.foldlM_cons]
      obtain ⟨s₁, done, first⟩ | ⟨e, failed, reason⟩ := each c (by simp) s inv
      · rw [done, Failing.ok_bind]
        obtain ⟨s₂, done, rest⟩ | failure :=
          ih first.inv fun d hd => each d (List.mem_cons_of_mem c hd)
        · refine .inl ⟨s₂, done, rest.inv, List.Subset.trans first.kept rest.kept, ?_⟩
          have early : c ∈ s₂.order.toList := rest.kept (first.finished (by simp))
          exact List.cons_subset.mpr ⟨early, rest.finished⟩
        · exact .inr failure
      · rw [failed, Failing.error_bind]
        exact .inr ⟨e, rfl, reason⟩

/-- Rule `k` may be visited below this path: it is not open, every open rule needs it, and the depth
that is left is enough for as many rules as can be opened. -/
structure Enters (t : Nat) (rules : Array Rule) (path : List Nat) (depth k : Nat) : Prop where
  inside : k < rules.size
  off : k ∉ path
  chain : ∀ p ∈ path, Relation.TransGen (Uses t rules) p k
  deep : rules.size < path.length + depth

/-- The rules that are listed for a rule may be visited below it. -/
theorem Listed.enters {depth : Nat} {r : Rule} {vs : List Symbol} {fresh : List Nat}
    (listed : Listed t rules.size s vs [] fresh) (inv : s.Inv t rules (k :: path))
    (above : Enters t rules path (depth + 1) k) (found : rules[k]? = some r)
    (operands : ∀ v, v ∈ vs ↔ v ∈ r.operands) {c : Nat} (hc : c ∈ fresh) :
    Enters t rules (k :: path) depth c := by
  obtain nothing | ⟨inside, mark, v, hv, value⟩ := listed.origin c hc
  · cases nothing
  have uses : Uses t rules k c := ⟨r, found, v, (operands v).mp hv, value⟩
  refine ⟨inside, ?_, ?_, ?_⟩
  · intro onPath
    have opened := (inv.opened c).mpr onPath
    rw [mark] at opened
    cases opened
  · intro p hp
    obtain rfl | further := List.mem_cons.mp hp
    · exact .single uses
    · exact (above.chain p further).tail uses
  · have := above.deep
    rw [List.length_cons]
    omega

/-- An operand that stands in the way of a rule at the end of the path leaves no order. -/
theorem not_orderable_of_obstructed (inv : s.Inv t rules (k :: path))
    (chain : ∀ p ∈ path, Relation.TransGen (Uses t rules) p k) {r : Rule}
    (found : rules[k]? = some r) {vs : List Symbol} (operands : ∀ v, v ∈ vs ↔ v ∈ r.operands)
    (obstructed : Obstructed t rules.size s vs) : ¬ Orderable t rules := by
  intro orderable
  obtain ⟨v, hv, unknown | ⟨c, value, opened⟩⟩ := obstructed
  · have := (orderable.sound k r found).operand_lt ((operands v).mp hv)
    omega
  · have uses : Uses t rules k c := ⟨r, found, v, (operands v).mp hv, value⟩
    obtain rfl | onPath := List.mem_cons.mp ((inv.opened c).mp opened)
    · exact orderable.acyclic c (.single uses)
    · exact orderable.acyclic c ((chain c onPath).tail uses)

/-- When everything that was listed for a rule is finished, so is the rule. -/
theorem Search.Visits.finish {fresh : List Nat} {s' : Search} {r : Rule} {vs : List Symbol}
    (below : (s.setMark k .opened).Visits t rules (k :: path) fresh s')
    (entered : (s.setMark k .opened).Inv t rules (k :: path)) (found : rules[k]? = some r)
    (listed : Listed t rules.size (s.setMark k .opened) vs [] fresh)
    (operands : ∀ v, v ∈ vs ↔ v ∈ r.operands) (copies : ∀ a n, r = .block a n → 2 ≤ n.toNat) :
    s.Visits t rules path [k] (s'.finish k) := by
  have behind : ∀ v ∈ r.operands, v.toNat < t ∨ ∃ c ∈ s'.order.toList, v.toNat = t + c := by
    intro v hv
    obtain terminal | ⟨c, inside, value, early | late⟩ := listed.passed v ((operands v).mpr hv)
    · exact .inl terminal
    · exact .inr ⟨c, below.kept ((entered.finished c inside).mp early), value⟩
    · exact .inr ⟨c, below.finished late, value⟩
  have order : (s'.finish k).order.toList = s'.order.toList ++ [k] := by simp [Search.finish_eq]
  refine ⟨below.inv.finish found ⟨copies, behind⟩, ?_, ?_⟩
  · rw [order]
    exact List.Subset.trans below.kept (List.subset_append_left _ _)
  · rw [order]
    exact List.subset_append_right _ _

/-- What a visit does to a rule that is not finished. -/
theorem visit_of_unfinished {depth : Nat} {r : Rule} (found : rules[k]? = some r)
    (unfinished : s.markOf k ≠ .finished) :
    visit t rules (depth + 1) s k = (do
      let operands ← lookedAt r
      let fresh ← freshOperands t rules.size (s.setMark k .opened) operands []
      let below ← fresh.foldlM (visit t rules depth) (s.setMark k .opened)
      return below.finish k) := by
  rw [visit, found]
  cases mark : s.markOf k with
  | finished => exact absurd mark unfinished
  | fresh => rfl
  | opened => rfl

/-- Visiting a rule finishes it and everything below it, unless the rules have no order. -/
theorem visit_answers {depth : Nat} (inv : s.Inv t rules path)
    (enters : Enters t rules path depth k) :
    s.Answers t rules path [k] (visit t rules depth s k) := by
  -- Induction on the depth that is left: the path grows as it falls and holds no rule twice, so
  -- it cannot run out.
  induction depth generalizing path s k with
  | zero =>
      have := inv.length_le
      have := enters.deep
      omega
  | succ depth ih =>
      obtain ⟨r, found⟩ : ∃ r, rules[k]? = some r := ⟨_, Array.getElem?_eq_getElem enters.inside⟩
      by_cases finished : s.markOf k = .finished
      · refine .inl ⟨s, ?_, inv, fun _ h => h, ?_⟩
        · rw [visit, found, finished]
        · simpa using (inv.finished k enters.inside).mp finished
      have unfinished : k ∉ s.order.toList := fun h =>
        finished ((inv.finished k enters.inside).mpr h)
      have entered := inv.enter enters.inside enters.off unfinished
      rw [visit_of_unfinished found finished]
      obtain ⟨vs, looked, operands, copies⟩ | ⟨e, failed, unsound⟩ := lookedAt_outcome r
      · rw [looked, Failing.ok_bind]
        obtain ⟨fresh, listing, listed⟩ | ⟨e, failed, obstructed⟩ :=
          freshOperands_outcome (t := t) rules.size (s.setMark k .opened) vs []
        · rw [listing, Failing.ok_bind]
          obtain ⟨s', done, below⟩ | ⟨e, failed, reason⟩ :=
            foldlM_visit_answers entered fun c hc s' inv' =>
              ih inv' (listed.enters entered enters found operands hc)
          · rw [done]
            exact .inl ⟨s'.finish k, rfl, below.finish entered found listed operands copies⟩
          · rw [failed]
            exact .inr ⟨e, rfl, reason⟩
        · rw [failed, Failing.error_bind]
          exact .inr ⟨e, rfl,
            not_orderable_of_obstructed entered enters.chain found operands obstructed⟩
      · rw [failed, Failing.error_bind]
        exact .inr ⟨e, rfl, fun orderable => unsound _ (orderable.sound k r found)⟩

/-- Nothing is open when a rule is visited first. -/
theorem enters_start (hk : k ∈ List.range rules.size) : Enters t rules [] (rules.size + 1) k :=
  ⟨List.mem_range.mp hk, by simp, by simp, by simp⟩

end Visit

/-- Either every rule is in the order once and behind its operands, or there is no such order. -/
theorem creationOrder_answers (t : Nat) (rules : Array Rule) :
    (∃ order, creationOrder t rules = .ok order ∧ Exhausts order rules.size ∧
      OperandsFirst t rules order) ∨
    ∃ e, creationOrder t rules = .error e ∧ ¬ Orderable t rules := by
  let start : Search := { marks := Array.replicate rules.size .fresh }
  let search := (List.range rules.size).foldlM (visit t rules (rules.size + 1)) start
  have run : start.Answers t rules [] (List.range rules.size) search :=
    foldlM_visit_answers (Search.Inv.start t rules) fun _ hk _ inv =>
      visit_answers inv (enters_start hk)
  have result (answer : Except Failure Search) (same : search = answer) :
      creationOrder t rules = answer >>= fun s => pure s.order :=
    congrArg (· >>= fun s : Search => pure s.order) same
  obtain ⟨s, done, visits⟩ | ⟨e, failed, reason⟩ := run
  · refine .inl ⟨s.order, result _ done, ?_, visits.inv.ready⟩
    refine (List.perm_ext_iff_of_nodup visits.inv.nodup List.nodup_range).mpr fun k => ?_
    rw [List.mem_range]
    exact ⟨visits.inv.inside k, fun hk => visits.finished (List.mem_range.mpr hk)⟩
  · exact .inr ⟨e, result _ failed, reason⟩

theorem exhausts_of_creationOrder {order : Array Nat} (found : creationOrder t rules = .ok order) :
    Exhausts order rules.size ∧ OperandsFirst t rules order := by
  obtain ⟨order', same, ordered⟩ | ⟨e, failed, _⟩ := creationOrder_answers t rules
  · cases same.symm.trans found
    exact ordered
  · cases failed.symm.trans found

end RunGrammar.Grammar
