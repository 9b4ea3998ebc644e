import Mathlib
import RunGrammar.Proofs.Compression.Scans
import RunGrammar.Proofs.Text.Runs

/-!
# Runs and pairs across chunks

A chunk answers for the runs that start in it. It skips the rest of a run from
before, even where that run covers the whole chunk. A chunk answers for the
eligible pairs that start in it, and skips its first position if a pair from
before covers it; since eligible pairs do not overlap, the pair that ends there
can be recognised on the spot. Both ways of scanning are scanners: chunk by
chunk they find what a reading from left to right finds.
-/

namespace RunGrammar.Chunked

variable {text : Text}

/-! ### Runs -/

/-- From `p` on, `c` stands at the positions before `stop`, and no longer at `stop` unless that is
the limit. -/
structure RunEnd (text : Text) (c : Symbol) (limit p stop : Nat) : Prop where
  le : p ≤ stop
  le_limit : stop ≤ limit
  same : ∀ k, p ≤ k → k < stop → text[k]? = some c
  ends : stop < limit → text[stop]? ≠ some c

theorem runEnd_spec (text : Text) (c : Symbol) {limit p : Nat} (h : p ≤ limit) :
    RunEnd text c limit p (runEnd text.toArray c limit p) := by
  fun_induction runEnd text.toArray c limit p with
  | case1 p inside here ih =>
      have rest := ih inside
      rw [List.getElem?_toArray] at here
      refine ⟨Nat.le_of_succ_le rest.le, rest.le_limit, fun k hk hk' => ?_, rest.ends⟩
      obtain rfl | later := Nat.eq_or_lt_of_le hk
      · exact here
      · exact rest.same k later hk'
  | case2 p inside other =>
      rw [List.getElem?_toArray] at other
      exact ⟨Nat.le_refl p, h, fun k hk hk' => absurd hk' (Nat.not_lt.mpr hk), fun _ => other⟩
  | case3 p outside =>
      exact ⟨Nat.le_refl p, h, fun k hk hk' => absurd hk' (Nat.not_lt.mpr hk),
        fun inside => absurd inside outside⟩

/-- A smaller limit cuts the run off there. -/
theorem RunEnd.eq_min {c : Symbol} {limit limit' p stop stop' : Nat}
    (h : RunEnd text c limit p stop) (h' : RunEnd text c limit' p stop') (le : limit' ≤ limit) :
    stop' = min stop limit' := by
  have := h.le
  have := h'.le
  have := h'.le_limit
  obtain early | same | late := Nat.lt_trichotomy stop' (min stop limit')
  · exact absurd (h.same stop' h'.le (by omega)) (h'.ends (by omega))
  · exact same
  · exact absurd (h'.same stop h.le (by omega)) (h.ends (by omega))

/-- When the positions before `start` are done, the run that reaches over `start` is. -/
inductive RunsFrom (text : Text) : (start first : Nat) → Prop where
  | zero : RunsFrom text 0 0
  | within {start first : Nat} {c : Symbol} (before : text[start]? = some c)
      (ends : RunEnd text c text.length (start + 1) first) : RunsFrom text (start + 1) first

theorem ownRuns_eq {start middle first : Nat} (nonempty : start < middle)
    (inside : middle ≤ text.length) (here : RunsFrom text start first) :
    ownRuns text.toArray ⟨start, middle⟩ = min first middle := by
  cases here with
  | zero => simp [ownRuns]
  | @within start _ c before ends =>
      have own := runEnd_spec text c (Nat.le_of_lt nonempty)
      simp only [ownRuns, Nat.add_one_ne_zero, if_false, Nat.add_sub_cancel,
        List.getElem?_toArray, before]
      exact ends.eq_min own inside

/-- A run that reaches over the whole chunk reaches over its end. -/
theorem RunsFrom.skip {start middle first : Nat} (here : RunsFrom text start first)
    (forward : start ≤ middle) (beyond : middle ≤ first) : RunsFrom text middle first := by
  obtain rfl | after := Nat.eq_or_lt_of_le forward
  · exact here
  · cases here with
    | zero => omega
    | @within start _ c _ ends =>
        obtain ⟨k, rfl⟩ : ∃ k, middle = k + 1 := ⟨middle - 1, by omega⟩
        apply RunsFrom.within (ends.same k (by omega) beyond)
        exact ⟨beyond, ends.le_limit, fun j hj => ends.same j (by omega), ends.ends⟩

theorem RunEnd.getElem?_eq {p next k : Nat} {c : Symbol} (here : text[p]? = some c)
    (ends : RunEnd text c text.length (p + 1) next) (atLeast : p ≤ k) (before : k < next) :
    text[k]? = some c := by
  obtain rfl | later := Nat.eq_or_lt_of_le atLeast
  · exact here
  · exact ends.same k later before

theorem RunEnd.getElem?_ne {p next : Nat} {c : Symbol}
    (ends : RunEnd text c text.length p next) : text[next]? ≠ some c := by
  obtain inside | outside := Nat.lt_or_ge next text.length
  · exact ends.ends inside
  · rw [List.getElem?_eq_none outside]
    simp

theorem RunEnd.drop_eq {p next : Nat} {c : Symbol} (here : text[p]? = some c)
    (ends : RunEnd text c text.length (p + 1) next) :
    text.drop p = List.replicate (next - p) c ++ text.drop next := by
  have later := ends.le
  apply List.ext_getElem?
  intro k
  rw [List.getElem?_append, List.length_replicate]
  split
  · next short =>
      rw [List.getElem?_drop, List.getElem?_replicate, if_pos short]
      exact ends.getElem?_eq here (Nat.le_add_right p k) (by omega)
  · next long =>
      rw [List.getElem?_drop, List.getElem?_drop]
      congr 1
      omega

theorem RunEnd.head?_drop_ne {p next : Nat} {c : Symbol}
    (ends : RunEnd text c text.length p next) : (text.drop next).head? ≠ some c := by
  rw [List.head?_drop]
  exact ends.getElem?_ne

/-- The text from a position on begins with the run that starts there. -/
theorem runPieces_drop {p next : Nat} {c : Symbol} (here : text[p]? = some c)
    (ends : RunEnd text c text.length (p + 1) next) :
    Text.runPieces (text.drop p) =
      Piece.ofRun ⟨c, next - p⟩ :: Text.runPieces (text.drop next) := by
  have later := ends.le
  rw [Text.runPieces, ends.drop_eq here,
    Text.runs_replicate_append (by omega) ends.head?_drop_ne]
  rfl

/-- The spans of the runs of two or more symbols, where the first run starts at `p`. -/
def runSpans (p : Nat) : List Run → List Span
  | [] => []
  | run :: runs =>
    if 1 < run.length then ⟨p, run.length⟩ :: runSpans (p + run.length) runs
    else runSpans (p + run.length) runs

/-- The spans of the longer runs of the text from position `p` on. -/
def runSpansFrom (text : Text) (p : Nat) : List Span := runSpans p (Text.runs (text.drop p))

theorem runSpans_cons (p : Nat) (run : Run) (runs : List Run) :
    runSpans p (run :: runs) = runSpans p [run] ++ runSpans (p + run.length) runs := by
  simp only [runSpans]
  split <;> rfl

theorem runSpansFrom_eq {p next : Nat} {c : Symbol} (here : text[p]? = some c)
    (ends : RunEnd text c text.length (p + 1) next) :
    runSpansFrom text p = runSpans p [⟨c, next - p⟩] ++ runSpansFrom text next := by
  have later := ends.le
  have last : p + (next - p) = next := by omega
  rw [runSpansFrom, ends.drop_eq here, Text.runs_replicate_append (by omega) ends.head?_drop_ne,
    runSpans_cons, last, runSpansFrom]

/-- A run is one piece, and it has a span if it is longer than one symbol. -/
theorem spans_of_run {p next : Nat} {c : Symbol} (here : text[p]? = some c) (later : p < next) :
    (∀ found : Array Span, (if p + 1 < next then found.push ⟨p, next - p⟩ else found) =
        found ++ (runSpans p [⟨c, next - p⟩]).toArray) ∧
      ∀ {rest pieces last}, Spans (runRule text.toArray) text next rest pieces last →
        Spans (runRule text.toArray) text p (runSpans p [⟨c, next - p⟩] ++ rest)
          (Piece.ofRun ⟨c, next - p⟩ :: pieces) last := by
  by_cases long : p + 1 < next
  · have spans : runSpans p [⟨c, next - p⟩] = [⟨p, next - p⟩] := by
      rw [runSpans, if_pos (by simp only; omega), runSpans]
    have folded : Piece.ofRun ⟨c, next - p⟩ = .folded (runRule text.toArray ⟨p, next - p⟩) := by
      have letter : text.toArray.getD p 0 = c := by
        simp [Array.getD_eq_getD_getElem?, here]
      have several : next - p ≠ 1 := by omega
      rw [Piece.ofRun, if_neg several, runRule, letter]
    rw [spans]
    refine ⟨fun found => by rw [if_pos long]; simp, ?_⟩
    intro rest pieces last shown
    rw [folded]
    apply Spans.folded
    rwa [Nat.add_sub_cancel' (Nat.le_of_lt later)]
  · have single : next = p + 1 := by omega
    have spans : runSpans p [⟨c, next - p⟩] = [] := by
      rw [runSpans, if_neg (by simp only; omega), runSpans]
    have kept : Piece.ofRun ⟨c, next - p⟩ = .kept c := by
      rw [Piece.ofRun, if_pos (by simp [single])]
    rw [spans]
    refine ⟨fun found => by rw [if_neg long]; simp, ?_⟩
    intro rest pieces last shown
    rw [kept]
    apply Spans.kept here
    rwa [← single]

/-- The scan of a chunk reads on until the chunk is done. -/
theorem collectRuns_spec {stop p : Nat} (inside : stop ≤ text.length) (open' : p < stop)
    (found : Array Span) :
    ∃ spans pieces last, collectRuns text.toArray stop p found = (last, found ++ spans.toArray) ∧
      Spans (runRule text.toArray) text p spans pieces last ∧
      Text.runPieces (text.drop p) = pieces ++ Text.runPieces (text.drop last) ∧
      runSpansFrom text p = spans ++ runSpansFrom text last ∧ RunsFrom text stop last := by
  fun_induction collectRuns text.toArray stop p found with
  | case1 p found _ none =>
      rw [List.getElem?_toArray, List.getElem?_eq_none_iff] at none
      omega
  | case2 p found _ c here next le ih =>
      rw [List.getElem?_toArray] at here
      have ends : RunEnd text c text.length (p + 1) next := runEnd_spec text c (by omega)
      have later := ends.le
      have first := runPieces_drop here ends
      have longer := runSpansFrom_eq here ends
      obtain ⟨pushed, before⟩ := spans_of_run here later
      have pushed := pushed found
      simp only [dite_eq_ite] at ih
      by_cases more : next < stop
      · obtain ⟨rest, pieces, last, collected, shown, read, listed, there⟩ := ih more
        refine ⟨_ ++ rest, _ :: pieces, last, ?_, before shown, ?_, ?_, there⟩
        · rw [collected, pushed]
          simp
        · rw [first, read, List.cons_append]
        · rw [longer, listed, List.append_assoc]
      · have ended : collectRuns text.toArray stop next
            (if p + 1 < next then found.push ⟨p, next - p⟩ else found) =
              (next, found ++ (runSpans p [⟨c, next - p⟩]).toArray) := by
          rw [collectRuns, if_neg more, pushed]
        refine ⟨_ ++ [], [_], next, ?_, before (.nil next), first, ?_, ?_⟩
        · rw [ended, List.append_nil]
        · rw [longer, List.append_nil]
        · have reaches : RunsFrom text (p + 1) next := .within here ends
          exact reaches.skip (by omega) (by omega)
  | case3 p found closed => exact absurd open' closed

theorem RunsFrom.le {start first : Nat} (here : RunsFrom text start first) : start ≤ first := by
  cases here with
  | zero => exact Nat.le_refl 0
  | within _ ends => exact ends.le

theorem RunsFrom.eq_length {first : Nat} (here : RunsFrom text text.length first) :
    first = text.length := by
  generalize ended : text.length = n at here
  cases here with
  | zero => rfl
  | within _ ends => exact Nat.le_antisymm (ended ▸ ends.le_limit) ends.le

theorem scanner_runs (text : Text) :
    Scanner (runRule text.toArray) text (scanRuns text.toArray) (RunsFrom text)
      (fun p => Text.runPieces (text.drop p)) (runSpansFrom text) where
  chunk start middle first nonempty inside here := by
    have own := ownRuns_eq nonempty inside here
    obtain within' | beyond := Nat.lt_or_ge first middle
    · rw [Nat.min_eq_left (Nat.le_of_lt within')] at own
      obtain ⟨spans, pieces, last, collected, shown, read, listed, there⟩ :=
        collectRuns_spec inside within' #[]
      have scanned : scanRuns text.toArray ⟨start, middle⟩ = ⟨first, last, spans.toArray⟩ := by
        simp [scanRuns, own, collected]
      rw [scanned]
      exact ⟨pieces, last, there, read, shown,
        .range (Nat.lt_of_lt_of_le within' there.le) rfl rfl, listed⟩
    · rw [Nat.min_eq_right beyond] at own
      have scanned : scanRuns text.toArray ⟨start, middle⟩ = ⟨middle, middle, #[]⟩ := by
        rw [scanRuns, own, collectRuns, if_neg (Nat.lt_irrefl middle)]
      rw [scanned]
      exact ⟨[], first, here.skip (Nat.le_of_lt nonempty) beyond, rfl, .nil middle, .nothing rfl,
        rfl⟩
  done first here := by
    obtain rfl := here.eq_length
    have nothing : text.drop text.length = [] := List.drop_length
    exact ⟨rfl, by rw [nothing]; rfl, by rw [runSpansFrom, nothing]; rfl⟩

/-! ### Pairs -/

variable {partition : Partition}

theorem pairAt_iff {p : Nat} : pairAt partition text.toArray p = true ↔
    ∃ a b, text[p]? = some a ∧ text[p + 1]? = some b ∧ partition.eligible a b = true := by
  rw [pairAt, List.getElem?_toArray, List.getElem?_toArray]
  cases text[p]? with
  | none => simp
  | some a =>
      cases text[p + 1]? with
      | none => simp
      | some b => simp

/-- Eligible pairs do not overlap. -/
theorem pairAt_succ {p : Nat} (h : pairAt partition text.toArray p = true) :
    pairAt partition text.toArray (p + 1) = false := by
  obtain ⟨a, b, _, second, eligible⟩ := pairAt_iff.mp h
  rw [← Bool.not_eq_true, pairAt_iff]
  rintro ⟨b', c, first, _, eligible'⟩
  rw [second] at first
  cases first
  rw [Partition.not_eligible_of_eligible eligible c] at eligible'
  cases eligible'

theorem drop_eq_cons {p : Nat} {a : Symbol} (h : text[p]? = some a) :
    text.drop p = a :: text.drop (p + 1) := by
  obtain ⟨inside, rfl⟩ := List.getElem?_eq_some_iff.mp h
  exact List.drop_eq_getElem_cons inside

theorem pairPieces_drop_of_pairAt {p : Nat} (h : pairAt partition text.toArray p = true) :
    partition.pairPieces (text.drop p) =
      .folded (pairRule text.toArray ⟨p, 2⟩) :: partition.pairPieces (text.drop (p + 2)) := by
  obtain ⟨a, b, first, second, eligible⟩ := pairAt_iff.mp h
  have rule : pairRule text.toArray ⟨p, 2⟩ = .pair a b := by
    simp [pairRule, Array.getD_eq_getD_getElem?, first, second]
  rw [rule, drop_eq_cons first, drop_eq_cons second, Partition.pairPieces_of_eligible eligible]

theorem pairPieces_drop_of_not_pairAt {p : Nat} {a : Symbol} (here : text[p]? = some a)
    (h : pairAt partition text.toArray p = false) :
    partition.pairPieces (text.drop p) = .kept a :: partition.pairPieces (text.drop (p + 1)) := by
  rw [drop_eq_cons here]
  cases second : text[p + 1]? with
  | none =>
      rw [List.drop_of_length_le (List.getElem?_eq_none_iff.mp second)]
      rfl
  | some b =>
      have other : partition.eligible a b = false := by
        rw [← Bool.not_eq_true]
        intro eligible
        rw [pairAt_iff.mpr ⟨a, b, here, second, eligible⟩] at h
        cases h
      rw [drop_eq_cons second, Partition.pairPieces_of_not_eligible other]

/-- The spans of the eligible pairs of the text from position `p` on. -/
def pairSpansFrom (partition : Partition) (text : Text) (p : Nat) : List Span :=
  ((List.range' p (text.length - p)).filter (pairAt partition text.toArray)).map (⟨·, 2⟩)

theorem pairSpansFrom_of_pairAt {p : Nat} (h : pairAt partition text.toArray p = true) :
    pairSpansFrom partition text p = ⟨p, 2⟩ :: pairSpansFrom partition text (p + 2) := by
  obtain ⟨_, _, _, second, _⟩ := pairAt_iff.mp h
  have inside := (List.getElem?_eq_some_iff.mp second).1
  have two : text.length - p = text.length - (p + 2) + 1 + 1 := by omega
  rw [pairSpansFrom, two, List.range'_succ, List.range'_succ, List.filter_cons_of_pos h,
    List.filter_cons_of_neg (Bool.eq_false_iff.mp (pairAt_succ h)), List.map_cons, pairSpansFrom]

theorem pairSpansFrom_of_not_pairAt {p : Nat} (inside : p < text.length)
    (h : pairAt partition text.toArray p = false) :
    pairSpansFrom partition text p = pairSpansFrom partition text (p + 1) := by
  have one : text.length - p = text.length - (p + 1) + 1 := by omega
  rw [pairSpansFrom, one, List.range'_succ, List.filter_cons_of_neg (Bool.eq_false_iff.mp h),
    pairSpansFrom]

/-- Where reading by pairs goes on when the positions before `start` are done. -/
def afterPair (partition : Partition) (text : Text) (start : Nat) : Nat :=
  if start ≠ 0 ∧ pairAt partition text.toArray (start - 1) then start + 1 else start

theorem afterPair_succ_of_pairAt {p : Nat} (h : pairAt partition text.toArray p = true) :
    afterPair partition text (p + 1) = p + 2 := by
  simp [afterPair, h]

theorem afterPair_succ_of_not_pairAt {p : Nat} (h : pairAt partition text.toArray p = false) :
    afterPair partition text (p + 1) = p + 1 := by
  simp [afterPair, h]

theorem collectPairs_spec (partition : Partition) {stop p : Nat} (inside : stop ≤ text.length)
    (open' : p < stop) (found : Array Span) :
    ∃ spans pieces, collectPairs partition text.toArray stop p found =
        (afterPair partition text stop, found ++ spans.toArray) ∧
      Spans (pairRule text.toArray) text p spans pieces (afterPair partition text stop) ∧
      partition.pairPieces (text.drop p) =
        pieces ++ partition.pairPieces (text.drop (afterPair partition text stop)) ∧
      pairSpansFrom partition text p =
        spans ++ pairSpansFrom partition text (afterPair partition text stop) := by
  fun_induction collectPairs partition text.toArray stop p found with
  | case1 p found _ here ih =>
      have read := pairPieces_drop_of_pairAt here
      have listed := pairSpansFrom_of_pairAt here
      by_cases more : p + 2 < stop
      · obtain ⟨spans, pieces, collected, shown, rest, others⟩ := ih more
        refine ⟨⟨p, 2⟩ :: spans, _ :: pieces, ?_, .folded shown, ?_, ?_⟩
        · rw [collected]
          simp
        · rw [read, rest, List.cons_append]
        · rw [listed, others, List.cons_append]
      · have ended : afterPair partition text stop = p + 2 := by
          obtain rfl | second := Nat.eq_or_lt_of_le open'
          · exact afterPair_succ_of_pairAt here
          · obtain rfl : stop = p + 1 + 1 := by omega
            exact afterPair_succ_of_not_pairAt (pairAt_succ here)
        rw [collectPairs, if_neg more, ended]
        exact ⟨[⟨p, 2⟩], [_], by simp, .folded (.nil _), read, listed⟩
  | case2 p found _ here ih =>
      have here := Bool.eq_false_iff.mpr here
      have letter : text[p]? = some text[p] := List.getElem?_eq_getElem (by omega)
      have read := pairPieces_drop_of_not_pairAt letter here
      have listed := pairSpansFrom_of_not_pairAt (by omega) here
      by_cases more : p + 1 < stop
      · obtain ⟨spans, pieces, collected, shown, rest, others⟩ := ih more
        refine ⟨spans, _ :: pieces, collected, .kept letter shown, ?_, listed.trans others⟩
        rw [read, rest, List.cons_append]
      · obtain rfl : stop = p + 1 := by omega
        rw [collectPairs, if_neg more, afterPair_succ_of_not_pairAt here]
        exact ⟨[], [_], by simp, .kept letter (.nil _), read, listed⟩
  | case3 p found closed => exact absurd open' closed

theorem le_afterPair (partition : Partition) (text : Text) (start : Nat) :
    start ≤ afterPair partition text start := by
  unfold afterPair
  split <;> omega

theorem afterPair_length (partition : Partition) (text : Text) :
    afterPair partition text text.length = text.length := by
  rw [afterPair, if_neg]
  rintro ⟨nonempty, before⟩
  obtain ⟨_, _, _, second, _⟩ := pairAt_iff.mp before
  have inside := (List.getElem?_eq_some_iff.mp second).1
  omega

theorem scanner_pairs (partition : Partition) (text : Text) :
    Scanner (pairRule text.toArray) text (scanPairs partition text.toArray)
      (fun start first => first = afterPair partition text start)
      (fun p => partition.pairPieces (text.drop p)) (pairSpansFrom partition text) where
  chunk start middle first nonempty inside here := by
    have own : (if start ≠ 0 ∧ pairAt partition text.toArray (start - 1) = true then start + 1
        else start) = first := here.symm
    obtain within' | beyond := Nat.lt_or_ge first middle
    · obtain ⟨spans, pieces, collected, shown, read, listed⟩ := collectPairs_spec partition
        inside within' #[]
      have scanned : scanPairs partition text.toArray ⟨start, middle⟩ =
          ⟨first, afterPair partition text middle, spans.toArray⟩ := by
        simp [scanPairs, own, collected]
      have further := le_afterPair partition text middle
      rw [scanned]
      exact ⟨pieces, _, rfl, read, shown, .range (Nat.lt_of_lt_of_le within' further) rfl rfl,
        listed⟩
    · -- The chunk is one position, and it belongs to a pair from before.
      have before : start ≠ 0 ∧ pairAt partition text.toArray (start - 1) = true := by
        by_contra none
        rw [if_neg none] at own
        omega
      rw [if_pos before] at own
      have covered := pairAt_succ before.2
      rw [Nat.sub_add_cancel (Nat.one_le_iff_ne_zero.mpr before.1)] at covered
      obtain rfl : middle = start + 1 := by omega
      have scanned : scanPairs partition text.toArray ⟨start, start + 1⟩ =
          ⟨start + 1, start + 1, #[]⟩ := by
        rw [scanPairs, if_pos before, collectPairs, if_neg (Nat.lt_irrefl _)]
      rw [scanned]
      refine ⟨[], first, ?_, rfl, .nil _, .nothing rfl, rfl⟩
      rw [afterPair_succ_of_not_pairAt covered, own]
  done first here := by
    rw [afterPair_length] at here
    subst here
    have nothing : text.drop text.length = [] := List.drop_length
    refine ⟨rfl, by rw [nothing]; rfl, ?_⟩
    rw [pairSpansFrom, Nat.sub_self]
    rfl

end RunGrammar.Chunked
