import Mathlib
import RunGrammar.Grammar.CommonExtension
import RunGrammar.Proofs.Grammar.Slicing

/-!
# Common extensions are longest common prefixes

The windows are ranges of the text, so comparing them compares the texts that
start at the two positions, window by window. A comparison that stops inside a
window has found where the texts differ or where one of them ends; one that
does not has used up the window, and what is left is the same question about
the texts behind it. Since the windows double, there are always enough of them.

Memory has room for all windows but those from `2 ^ 61` symbols on. Such a window
is reached when the texts agree in all but eight of as many symbols, and it is
refused if the text goes on for as many at one of the positions. So a query is
answered, or it ends there.

`commonExtensionChecked` is `commonExtension?` with more refusals: of positions,
of windows and of results that are not words, of a comparison for which the
windows run out, and of everything that `sliceChecked` refuses. None of these
occurs before the room runs out.
-/

namespace RunGrammar

namespace Text

variable {s t : Text} {n : Nat}

/-- `n` is the length of the longest common prefix of two texts. -/
def LongestCommonPrefix (s t : Text) (n : Nat) : Prop :=
  IsGreatest {k | ∃ p : Text, p <+: s ∧ p <+: t ∧ p.length = k} n

@[simp] theorem commonPrefix_nil_left (t : Text) : commonPrefix [] t = 0 := rfl

@[simp] theorem commonPrefix_nil_right (s : Text) : commonPrefix s [] = 0 := by
  simp [commonPrefix]

theorem commonPrefix_cons_self (c : Symbol) (s t : Text) :
    commonPrefix (c :: s) (c :: t) = commonPrefix s t + 1 := by
  simp [commonPrefix]

theorem commonPrefix_cons_of_ne {c d : Symbol} (h : c ≠ d) (s t : Text) :
    commonPrefix (c :: s) (d :: t) = 0 := by
  simp [commonPrefix, h]

theorem commonPrefix_comm (s t : Text) : commonPrefix s t = commonPrefix t s := by
  induction s generalizing t with
  | nil => simp
  | cons c s ih =>
      cases t with
      | nil => simp
      | cons d t =>
          by_cases same : c = d
          · subst same
            rw [commonPrefix_cons_self, commonPrefix_cons_self, ih]
          · rw [commonPrefix_cons_of_ne same, commonPrefix_cons_of_ne (Ne.symm same)]

/-- Cutting both texts off cuts off what they have in common. -/
theorem commonPrefix_take (s t : Text) (n : Nat) :
    commonPrefix (s.take n) (t.take n) = min (commonPrefix s t) n := by
  induction n generalizing s t with
  | zero => simp
  | succ n ih =>
      cases s with
      | nil => simp
      | cons c s =>
          cases t with
          | nil => simp
          | cons d t =>
              rw [List.take_succ_cons, List.take_succ_cons]
              by_cases same : c = d
              · subst same
                rw [commonPrefix_cons_self, commonPrefix_cons_self, ih]
                omega
              · rw [commonPrefix_cons_of_ne same, commonPrefix_cons_of_ne same]
                omega

/-- What texts have in common behind a common front adds to it. -/
theorem commonPrefix_eq_add (h : n ≤ commonPrefix s t) :
    commonPrefix s t = n + commonPrefix (s.drop n) (t.drop n) := by
  induction n generalizing s t with
  | zero => simp
  | succ n ih =>
      cases s with
      | nil => simp at h
      | cons c s =>
          cases t with
          | nil => simp at h
          | cons d t =>
              by_cases same : c = d
              · subst same
                rw [commonPrefix_cons_self] at h ⊢
                rw [ih (Nat.le_of_succ_le_succ h)]
                simp only [List.drop_succ_cons]
                omega
              · rw [commonPrefix_cons_of_ne same] at h
                omega

theorem commonPrefix_le_left (s t : Text) : commonPrefix s t ≤ s.length :=
  (List.takeWhile_sublist _).length_le.trans (by simp)

theorem commonPrefix_le_right (s t : Text) : commonPrefix s t ≤ t.length :=
  commonPrefix_comm s t ▸ commonPrefix_le_left t s

theorem commonPrefix_self (s : Text) : commonPrefix s s = s.length := by
  induction s with
  | nil => rfl
  | cons c s ih => rw [commonPrefix_cons_self, ih, List.length_cons]

theorem commonPrefix_replicate (m n : Nat) (c : Symbol) :
    commonPrefix (List.replicate m c) (List.replicate n c) = min m n := by
  simp [commonPrefix, List.zip_replicate]

/-- A common prefix is at most that long. -/
theorem length_le_commonPrefix {p : Text} (hs : p <+: s) (ht : p <+: t) :
    p.length ≤ commonPrefix s t := by
  have cut := commonPrefix_take s t p.length
  rw [← List.prefix_iff_eq_take.mp hs, ← List.prefix_iff_eq_take.mp ht, commonPrefix_self] at cut
  omega

theorem take_commonPrefix (s t : Text) : s.take (commonPrefix s t) = t.take (commonPrefix s t) := by
  induction s generalizing t with
  | nil => simp
  | cons c s ih =>
      cases t with
      | nil => simp
      | cons d t =>
          by_cases same : c = d
          · subst same
            rw [commonPrefix_cons_self, List.take_succ_cons, List.take_succ_cons, ih]
          · rw [commonPrefix_cons_of_ne same, List.take_zero, List.take_zero]

theorem longestCommonPrefix_commonPrefix (s t : Text) :
    LongestCommonPrefix s t (commonPrefix s t) := by
  constructor
  · refine ⟨s.take (commonPrefix s t), List.take_prefix _ _, ?_, ?_⟩
    · rw [take_commonPrefix]
      exact List.take_prefix _ _
    · exact List.length_take_of_le (commonPrefix_le_left s t)
  · rintro _ ⟨p, hs, ht, rfl⟩
    exact length_le_commonPrefix hs ht

/-- A comparison of two windows of this size finds where the texts differ, or where one ends. -/
abbrev Decides (window : Nat) (a b : Text) : Prop :=
  commonPrefix a b < min a.length b.length ∨ a.length < window ∨ b.length < window

/-- A comparison that decides gives what the whole texts have in common. -/
theorem Decides.commonPrefix_eq (h : Decides n (s.take n) (t.take n)) :
    commonPrefix (s.take n) (t.take n) = commonPrefix s t := by
  have left := commonPrefix_le_left s t
  have right := commonPrefix_le_right s t
  rw [Decides, commonPrefix_take, List.length_take, List.length_take] at h
  rw [commonPrefix_take]
  omega

/-- A comparison that decides does not use up the window. -/
theorem Decides.commonPrefix_lt (h : Decides n (s.take n) (t.take n)) :
    commonPrefix (s.take n) (t.take n) < n := by
  have left := commonPrefix_le_left (s.take n) (t.take n)
  have right := commonPrefix_le_right (s.take n) (t.take n)
  rw [List.length_take] at left right
  rw [Decides, List.length_take, List.length_take] at h
  omega

/-- A comparison that does not decide has found both windows equal and full. -/
theorem commonPrefix_eq_of_not_decides (h : ¬ Decides n (s.take n) (t.take n)) :
    commonPrefix (s.take n) (t.take n) = n ∧ n ≤ commonPrefix s t := by
  rw [Decides, commonPrefix_take, List.length_take, List.length_take] at h
  rw [commonPrefix_take]
  omega

end Text

namespace Grammar

variable {g : Grammar}

/-- Extends an agreement by further windows; `none` when a step is refused. -/
def extendFromChecked (g : Grammar) (i j : Nat) :
    (windows : Nat) → (window found : Nat) → Option Nat
  | 0, _, _ => none
  | windows + 1, window, found => do
    let a ← g.sliceChecked (← Checked.add i found) window
    let b ← g.sliceChecked (← Checked.add j found) window
    let common := Text.commonPrefix a b
    let extended ← Checked.add found common
    if common < min a.length b.length ∨ a.length < window ∨ b.length < window then
      return extended
    else
      g.extendFromChecked i j windows (← Checked.mul 2 window) extended

/-- The common extension; `none` when a step is refused. -/
def commonExtensionChecked (g : Grammar) (i j : Nat) : Option Nat :=
  if g.textLength ≤ i ∨ g.textLength ≤ j then some 0
  else if i = j then Checked.sub g.textLength i
  else g.extendFromChecked i j maxWindows firstWindow 0

/-- The text as far as its recorded length reaches. -/
def recordedText (g : Grammar) : Text := g.text.take g.textLength

/-- What the texts at two positions have in common behind `found` symbols. -/
def agreement (g : Grammar) (i j found : Nat) : Nat :=
  Text.commonPrefix (g.recordedText.drop (i + found)) (g.recordedText.drop (j + found))

theorem length_recordedText (o : g.Ordered) (sized : g.Sized)
    (known : ∀ v, g.root = some v → g.Known v) : g.recordedText.length = g.textLength := by
  have recorded := textLength_eq o sized known
  rw [recordedText, List.length_take]
  omega

theorem agreement_le_left (i j found : Nat) :
    g.agreement i j found ≤ g.recordedText.length - (i + found) :=
  (Text.commonPrefix_le_left _ _).trans (List.length_drop ▸ Nat.le_refl _)

theorem agreement_le_right (i j found : Nat) :
    g.agreement i j found ≤ g.recordedText.length - (j + found) :=
  (Text.commonPrefix_le_right _ _).trans (List.length_drop ▸ Nat.le_refl _)

/-- Symbols that agree are a part of the agreement. -/
theorem agreement_eq_add {i j found n : Nat} (h : n ≤ g.agreement i j found) :
    g.agreement i j found = n + g.agreement i j (found + n) := by
  rw [agreement, Text.commonPrefix_eq_add h, List.drop_drop, List.drop_drop, agreement,
    Nat.add_assoc, Nat.add_assoc]

/-- The part of the text that a window shows. -/
def view (g : Grammar) (window i : Nat) : Text := (g.recordedText.drop i).take window

/-- What two windows have in common is a part of the agreement. -/
theorem commonPrefix_view_le (g : Grammar) (i j window found : Nat) :
    Text.commonPrefix (g.view window (i + found)) (g.view window (j + found)) ≤
      g.agreement i j found := by
  rw [view, view, Text.commonPrefix_take]
  exact Nat.min_le_left _ _

theorem length_view (g : Grammar) (window i : Nat) :
    (g.view window i).length = min window (g.recordedText.length - i) := by
  rw [view, List.length_take, List.length_drop]

/-- There is room in memory for both windows. -/
abbrev Roomy (g : Grammar) (i j window found : Nat) : Prop :=
  g.clip (i + found) window ≤ Storage.maxRoom ∧ g.clip (j + found) window ≤ Storage.maxRoom

/-- The texts differ before they have filled all windows that there is room for, or one ends. -/
abbrev Short (g : Grammar) (i j common : Nat) : Prop :=
  common < 2 ^ 61 - 8 ∨ g.textLength - min i j < 2 ^ 62 - 8

/-- Windows that double are as large together as twice all but the last, and the first. -/
theorem windows_total (window windows : Nat) :
    window * (2 ^ (windows + 1) - 1) = 2 * window * (2 ^ windows - 1) + window := by
  obtain ⟨k, hk⟩ : ∃ k, 2 ^ windows = k + 1 := Nat.exists_eq_succ_of_ne_zero (by positivity)
  have odd : 2 * (k + 1) - 1 = 2 * k + 1 := by omega
  rw [Nat.pow_succ', hk, odd, Nat.add_sub_cancel]
  ring

section Extending

variable (o : g.Ordered) (sized : g.Sized) (known : ∀ v, g.root = some v → g.Known v)

include o sized known

theorem extendFrom_succ (i j windows window found : Nat) :
    g.extendFrom i j (windows + 1) window found =
      let a := g.view window (i + found)
      let b := g.view window (j + found)
      if Text.Decides window a b then found + Text.commonPrefix a b
      else g.extendFrom i j windows (2 * window) (found + Text.commonPrefix a b) := by
  have a : g.slice (i + found) window = g.view window (i + found) :=
    (slice_eq_take_drop o sized known (i + found) window).1
  have b : g.slice (j + found) window = g.view window (j + found) :=
    (slice_eq_take_drop o sized known (j + found) window).1
  simp only [extendFrom, extendWith, pure_bind, a, b]
  by_cases stop : Text.Decides window (g.view window (i + found)) (g.view window (j + found))
  · rw [if_pos stop, if_pos stop]
    rfl
  · rw [if_neg stop, if_neg stop]

/-- Windows that are large enough together find all that the texts have in common. -/
theorem extendFrom_eq {i j windows window found : Nat}
    (enough : g.agreement i j found < window * (2 ^ windows - 1)) :
    g.extendFrom i j windows window found = found + g.agreement i j found := by
  induction windows generalizing window found with
  | zero => simp at enough
  | succ windows ih =>
      have step := extendFrom_succ o sized known i j windows window found
      by_cases stop : Text.Decides window (g.view window (i + found)) (g.view window (j + found))
      · have common : Text.commonPrefix (g.view window (i + found)) (g.view window (j + found)) =
            g.agreement i j found := stop.commonPrefix_eq
        simpa only [if_pos stop, common] using step
      · obtain ⟨full, part⟩ :
            Text.commonPrefix (g.view window (i + found)) (g.view window (j + found)) = window ∧
              window ≤ g.agreement i j found := Text.commonPrefix_eq_of_not_decides stop
        have rest := agreement_eq_add part
        have later : g.agreement i j (found + window) < 2 * window * (2 ^ windows - 1) := by
          have total := windows_total window windows
          omega
        have value := ih later
        simp only [if_neg stop, full] at step
        omega

/-- Two windows are in memory, or one of them is refused. -/
theorem bind_slice? {α : Type} (i j window found : Nat) (f : Text → Text → Option α) :
    ((g.slice? (i + found) window).bind fun a =>
        (g.slice? (j + found) window).bind fun b => f a b) =
      if g.Roomy i j window found then f (g.view window (i + found)) (g.view window (j + found))
      else none := by
  have a := slice?_eq o sized known (i + found) window
  have b := slice?_eq o sized known (j + found) window
  rw [(slice_eq_take_drop o sized known _ window).1] at a b
  by_cases first : g.clip (i + found) window ≤ Storage.maxRoom
  · by_cases second : g.clip (j + found) window ≤ Storage.maxRoom
    · rw [a, b, if_pos first, if_pos second, if_pos ⟨first, second⟩]
      rfl
    · rw [a, b, if_pos first, if_neg second, if_neg fun room => second room.2]
      rfl
  · rw [a, if_neg first, if_neg fun room => first room.1]
    rfl

theorem extendFrom?_succ (i j windows window found : Nat) :
    g.extendFrom? i j (windows + 1) window found =
      let a := g.view window (i + found)
      let b := g.view window (j + found)
      if g.Roomy i j window found then
        if Text.Decides window a b then some (found + Text.commonPrefix a b)
        else g.extendFrom? i j windows (2 * window) (found + Text.commonPrefix a b)
      else none := by
  simp only [extendFrom?, extendWith, Option.bind_eq_bind, bind_slice? o sized known]
  rfl

theorem textLength_lt : g.textLength < wordSpace := by
  have recorded := textLength_eq o sized known
  have : lengthCap < wordSpace := by decide
  omega

/-- No step but a request for room is refused inside the text. -/
theorem extendFromChecked_succ {i j found : Nat} (windows window : Nat)
    (inside : i + found ≤ g.textLength ∧ j + found ≤ g.textLength) :
    g.extendFromChecked i j (windows + 1) window found =
      let a := g.view window (i + found)
      let b := g.view window (j + found)
      if g.Roomy i j window found then
        if Text.Decides window a b then some (found + Text.commonPrefix a b)
        else Checked.mul 2 window >>= fun double =>
          g.extendFromChecked i j windows double (found + Text.commonPrefix a b)
      else none := by
  have bounded := textLength_lt o sized known
  have total := length_recordedText o sized known
  have part := g.commonPrefix_view_le i j window found
  have left := g.agreement_le_left i j found
  have wordI : i + found < wordSpace := by omega
  have wordJ : j + found < wordSpace := by omega
  have word : found + Text.commonPrefix (g.view window (i + found)) (g.view window (j + found)) <
      wordSpace := by omega
  simp only [extendFromChecked, Checked.add_of_lt wordI, Checked.add_of_lt wordJ,
    sliceChecked_eq o sized known, Option.bind_eq_bind, Option.bind_some,
    bind_slice? o sized known, Checked.add_of_lt word]
  rfl

/-- Further windows find all that the texts have in common, unless room runs out for them before,
and nothing else is refused. -/
structure FindsAll (g : Grammar) (i j windows window found : Nat) : Prop where
  stored : g.extendFrom? i j windows window found =
    if g.Short i j (found + g.agreement i j found) then some (found + g.agreement i j found)
    else none
  checked : g.extendFromChecked i j windows window found = g.extendFrom? i j windows window found

section Window

variable {i j windows window found : Nat}
variable (inside : i + found ≤ g.textLength ∧ j + found ≤ g.textLength)

include inside

/-- There is no room for this window. -/
theorem findsAll_of_not_roomy (room : ¬ g.Roomy i j window found)
    (long : ¬ g.Short i j (found + g.agreement i j found)) :
    g.FindsAll i j (windows + 1) window found := by
  have step := extendFrom?_succ o sized known i j windows window found
  have stepChecked := extendFromChecked_succ o sized known windows window inside
  simp only [if_neg room] at step stepChecked
  constructor
  · rw [step, if_neg long]
  · rw [stepChecked, step]

/-- This window is the last one. -/
theorem findsAll_of_decides (room : g.Roomy i j window found)
    (stop : Text.Decides window (g.view window (i + found)) (g.view window (j + found)))
    (short : g.Short i j (found + g.agreement i j found)) :
    g.FindsAll i j (windows + 1) window found := by
  have common : Text.commonPrefix (g.view window (i + found)) (g.view window (j + found)) =
      g.agreement i j found := stop.commonPrefix_eq
  have step := extendFrom?_succ o sized known i j windows window found
  have stepChecked := extendFromChecked_succ o sized known windows window inside
  simp only [if_pos room, if_pos stop, common] at step stepChecked
  constructor
  · rw [step, if_pos short]
  · rw [stepChecked, step]

/-- This window is used up, and a larger one follows. -/
theorem findsAll_of_not_decides (room : g.Roomy i j window found)
    (more : ¬ Text.Decides window (g.view window (i + found)) (g.view window (j + found)))
    (word : 2 * window < wordSpace)
    (later : i + (found + window) ≤ g.textLength ∧ j + (found + window) ≤ g.textLength →
      g.FindsAll i j windows (2 * window) (found + window)) :
    g.FindsAll i j (windows + 1) window found := by
  obtain ⟨full, part⟩ :
      Text.commonPrefix (g.view window (i + found)) (g.view window (j + found)) = window ∧
        window ≤ g.agreement i j found := Text.commonPrefix_eq_of_not_decides more
  have total := length_recordedText o sized known
  have left := g.agreement_le_left i j found
  have right := g.agreement_le_right i j found
  have rest : found + g.agreement i j found =
      found + window + g.agreement i j (found + window) := by
    rw [agreement_eq_add part, Nat.add_assoc]
  have next := later (by omega)
  have step := extendFrom?_succ o sized known i j windows window found
  have stepChecked := extendFromChecked_succ o sized known windows window inside
  simp only [if_pos room, if_neg more, full] at step stepChecked
  constructor
  · rw [step, next.stored, rest]
  · rw [stepChecked, Checked.mul_of_lt word, Option.bind_eq_bind, Option.bind_some, next.checked,
      step]

/-- A window of `2 ^ 61` symbols is refused, unless the text ends inside both windows. -/
theorem findsAll_of_largest (first : window = found + firstWindow) (largest : window = 2 ^ 61) :
    g.FindsAll i j (windows + 1) window found := by
  have eight : firstWindow = 8 := rfl
  have most := Storage.maxRoom_eq
  have total := length_recordedText o sized known
  have left := g.agreement_le_left i j found
  have right := g.agreement_le_right i j found
  by_cases room : g.Roomy i j window found
  · have ends := room
    rw [Roomy, clip, clip] at ends
    have stop : Text.Decides window (g.view window (i + found)) (g.view window (j + found)) := by
      right
      left
      rw [length_view]
      omega
    have short : g.Short i j (found + g.agreement i j found) := by
      right
      omega
    exact findsAll_of_decides o sized known inside room stop short
  · have long : ¬ g.Short i j (found + g.agreement i j found) := by
      rw [Roomy, clip, clip] at room
      rw [Short]
      omega
    exact findsAll_of_not_roomy o sized known inside room long

end Window

/-- Windows that double up to `2 ^ 61` find all that the texts have in common, unless they are
still full then and one of the texts goes on. The induction is on how often they double. -/
theorem findsAll_of_doubling (i j windows window found count : Nat)
    (inside : i + found ≤ g.textLength ∧ j + found ≤ g.textLength)
    (first : window = found + firstWindow) (last : window * 2 ^ count = 2 ^ 61)
    (enough : count < windows) : g.FindsAll i j windows window found := by
  have space : wordSpace = 2 ^ 64 := rfl
  have eight : firstWindow = 8 := rfl
  have most := Storage.maxRoom_eq
  induction count generalizing windows window found with
  | zero =>
      obtain ⟨windows, rfl⟩ : ∃ k, windows = k + 1 := ⟨windows - 1, by omega⟩
      rw [pow_zero, Nat.mul_one] at last
      exact findsAll_of_largest o sized known inside first last
  | succ count ih =>
      obtain ⟨windows, rfl⟩ : ∃ k, windows = k + 1 := ⟨windows - 1, by omega⟩
      have last' : 2 * window * 2 ^ count = 2 ^ 61 := by
        rw [← last, Nat.pow_succ]
        ring
      have small : 2 * window ≤ 2 ^ 61 := last' ▸ Nat.le_mul_of_pos_right _ (Nat.two_pow_pos count)
      have room : g.Roomy i j window found := by
        rw [Roomy, clip, clip]
        omega
      by_cases stop : Text.Decides window (g.view window (i + found)) (g.view window (j + found))
      · have common : Text.commonPrefix (g.view window (i + found)) (g.view window (j + found)) =
            g.agreement i j found := stop.commonPrefix_eq
        have part : g.agreement i j found < window := common ▸ stop.commonPrefix_lt
        have short : g.Short i j (found + g.agreement i j found) := by
          left
          omega
        exact findsAll_of_decides o sized known inside room stop short
      · apply findsAll_of_not_decides o sized known inside room stop (by omega)
        intro later
        exact ih windows (2 * window) (found + window) later (by omega) last' (by omega)

/-- There are windows enough for every text whose length is represented, but there may not be room
for all of them. -/
theorem commonExtension_eq {i j : Nat} (hi : i < g.textLength) (hj : j < g.textLength) :
    g.commonExtension i j = g.agreement i j 0 ∧
      g.commonExtension? i j =
        (if i = j ∨ g.Short i j (g.agreement i j 0) then some (g.agreement i j 0) else none) ∧
      g.commonExtensionChecked i j = g.commonExtension? i j := by
  have total := length_recordedText o sized known
  have inside : ¬ (g.textLength ≤ i ∨ g.textLength ≤ j) := by omega
  by_cases same : i = j
  · subst same
    have all : g.agreement i i 0 = g.textLength - i := by
      rw [agreement, Text.commonPrefix_self, List.length_drop, total, Nat.add_zero]
    rw [commonExtension, commonExtension?, commonExtensionChecked, if_neg inside, if_neg inside,
      if_neg inside, if_pos rfl, if_pos rfl, if_pos rfl, if_pos (.inl rfl), all,
      Checked.sub_of_le hi.le]
    exact ⟨rfl, rfl, rfl⟩
  · have enough : g.agreement i j 0 < firstWindow * (2 ^ maxWindows - 1) := by
      have bounded := agreement_le_left (g := g) i j 0
      have recorded := textLength_eq o sized known
      have : lengthCap < firstWindow * (2 ^ maxWindows - 1) := by decide
      omega
    have value := extendFrom_eq o sized known enough
    obtain ⟨stored, checked⟩ := findsAll_of_doubling o sized known i j maxWindows firstWindow 0 58
      ⟨hi.le, hj.le⟩ (Nat.zero_add firstWindow).symm (by decide) (by decide)
    have differ : i = j ∨ g.Short i j (g.agreement i j 0) ↔ g.Short i j (g.agreement i j 0) :=
      or_iff_right same
    rw [Nat.zero_add] at value stored
    rw [commonExtension, commonExtension?, commonExtensionChecked, if_neg inside, if_neg inside,
      if_neg inside, if_neg same, if_neg same, if_neg same]
    simp only [differ]
    exact ⟨value, stored, checked⟩

end Extending

theorem agreement_comm (g : Grammar) (i j found : Nat) :
    g.agreement i j found = g.agreement j i found :=
  Text.commonPrefix_comm _ _

/-- Longest common extension queries are exact. A position outside the text has the answer zero.
Otherwise the answer is the length of the longest common prefix of the texts that start at the two
positions; their order does not matter. The text is the one that a grammar stands for, as far as
its recorded length reaches. A query at different positions is refused for want of room if the
texts have `2 ^ 61 - 8` symbols or more in common and the first of the positions is `2 ^ 62 - 8`
symbols or more before the end of the text. Every other query is answered, and no other step is
refused. -/
theorem commonExtension_exact (valid : g.validate = .ok ()) (computed : g.computeLengths = g)
    (i j : Nat) :
    g.recordedText.length = g.textLength ∧
      (g.isEmpty = true ∨ g.recordedText.length ≤ i ∨ g.recordedText.length ≤ j →
        g.commonExtension i j = 0 ∧ g.commonExtension? i j = some 0) ∧
      (i < g.recordedText.length → j < g.recordedText.length →
        Text.LongestCommonPrefix (g.recordedText.drop i) (g.recordedText.drop j)
          (g.commonExtension i j) ∧
        g.commonExtension? i j =
          if i = j ∨ g.commonExtension i j < 2 ^ 61 - 8 ∨
            g.recordedText.length - min i j < 2 ^ 62 - 8
          then some (g.commonExtension i j) else none) ∧
      g.commonExtension i j = g.commonExtension j i ∧
      g.commonExtension? i j = g.commonExtension? j i ∧
      g.commonExtensionChecked i j = g.commonExtension? i j := by
  obtain ⟨o, known⟩ := validate_eq_ok_iff.mp valid
  have sized := (computeLengths_eq_self_iff o).mp computed
  have total := length_recordedText o sized known
  have outside : ∀ {i j}, g.textLength ≤ i ∨ g.textLength ≤ j →
      g.commonExtension i j = 0 ∧ g.commonExtension? i j = some 0 ∧
        g.commonExtensionChecked i j = some 0 :=
    fun past => ⟨if_pos past, if_pos past, if_pos past⟩
  rw [total]
  refine ⟨rfl, ?_, ?_, ?_⟩
  · rintro (empty | past)
    · have none : g.textLength = 0 := by
        rw [isEmpty, Option.isNone_iff_eq_none] at empty
        rw [textLength, empty]
        rfl
      obtain ⟨zero, stored, _⟩ := outside (i := i) (j := j) (.inl (by omega))
      exact ⟨zero, stored⟩
    · obtain ⟨zero, stored, _⟩ := outside past
      exact ⟨zero, stored⟩
  · intro hi hj
    obtain ⟨value, stored, _⟩ := commonExtension_eq o sized known hi hj
    rw [value]
    exact ⟨Text.longestCommonPrefix_commonPrefix _ _, stored⟩
  · by_cases past : g.textLength ≤ i ∨ g.textLength ≤ j
    · obtain ⟨zero, stored, checked⟩ := outside past
      obtain ⟨zero', stored', _⟩ := outside past.symm
      rw [zero, zero', stored, stored', checked]
      exact ⟨rfl, rfl, rfl⟩
    · obtain ⟨value, stored, checked⟩ := commonExtension_eq o sized known (i := i) (j := j)
        (by omega) (by omega)
      obtain ⟨value', stored', _⟩ := commonExtension_eq o sized known (i := j) (j := i)
        (by omega) (by omega)
      have turned : j = i ∨ g.Short j i (g.agreement i j 0) ↔
          i = j ∨ g.Short i j (g.agreement i j 0) := by
        rw [eq_comm, Short, Nat.min_comm]
      rw [checked, value, value', stored, stored', agreement_comm g j i 0]
      simp only [turned]
      exact ⟨trivial, trivial, trivial⟩

/-- Two positions of a text whose length has been cut off, near its end. -/
theorem commonExtension_exact_saturated :
    saturated.validate = .ok () ∧ saturated.computeLengths = saturated ∧
      saturated.commonExtension? (lengthCap - 3) (lengthCap - 20) = some 3 ∧
      Text.LongestCommonPrefix (saturated.recordedText.drop (lengthCap - 3))
        (saturated.recordedText.drop (lengthCap - 20)) 3 := by
  have valid : saturated.validate = .ok () := by rfl
  have computed : saturated.computeLengths = saturated := by decide
  have value : saturated.commonExtension (lengthCap - 3) (lengthCap - 20) = 3 := by decide +kernel
  obtain ⟨total, _, exact, _⟩ :=
    commonExtension_exact valid computed (lengthCap - 3) (lengthCap - 20)
  have length : saturated.textLength = lengthCap := by decide
  rw [total, length, value] at exact
  obtain ⟨longest, stored⟩ := exact (by decide) (by decide)
  rw [if_pos (by decide)] at stored
  exact ⟨valid, computed, stored, longest⟩

theorem text_monotone : monotone.text = List.replicate (2 ^ 62) 0 := by
  have o : monotone.Ordered := (validate_eq_ok_iff.mp (by rfl : monotone.validate = .ok ())).1
  have letter : monotone.expand 0 = [0] := expand_of_rule?_none (by decide)
  have inner : monotone.expand 1 = List.replicate (2 ^ 31) 0 := by
    have found : monotone.rule? 1 = some (.block 0 2147483648) := by decide
    rw [expand_of_rule? o found, expandRule, letter]
    exact List.flatten_replicate_singleton
  have found : monotone.rule? 2 = some (.block 1 2147483648) := by decide
  calc
    monotone.text = monotone.expand 2 := rfl
    _ = (List.replicate (2 ^ 31) (List.replicate (2 ^ 31) 0)).flatten := by
      rw [expand_of_rule? o found, expandRule, inner]
      rfl
    _ = List.replicate (2 ^ 31 * 2 ^ 31) 0 := List.flatten_replicate_replicate
    _ = List.replicate (2 ^ 62) 0 := by rw [← Nat.pow_add]

/-- Texts that agree in less than `2 ^ 62` symbols, with windows that there is no room for. -/
theorem commonExtension_refused_monotone :
    monotone.validate = .ok () ∧ monotone.terminals + monotone.size ≤ idSpace ∧
      monotone.computeLengths = monotone ∧
      Text.LongestCommonPrefix (monotone.recordedText.drop 0) (monotone.recordedText.drop 1)
        (2 ^ 62 - 1) ∧
      2 ^ 62 - 1 < 2 ^ 62 ∧
      monotone.commonExtension? 0 1 = none ∧
      monotone.commonExtension? 0 1 ≠ some (2 ^ 62 - 1) := by
  have valid : monotone.validate = .ok () := by rfl
  have computed : monotone.computeLengths = monotone := by decide
  obtain ⟨o, known⟩ := validate_eq_ok_iff.mp valid
  have sized := (computeLengths_eq_self_iff o).mp computed
  have length : monotone.textLength = 2 ^ 62 := by decide
  have whole : monotone.recordedText = List.replicate (2 ^ 62) 0 := by
    rw [recordedText, text_monotone, length, List.take_replicate, Nat.min_self]
  have common : Text.commonPrefix (monotone.recordedText.drop 0) (monotone.recordedText.drop 1) =
      2 ^ 62 - 1 := by
    rw [whole, List.drop_replicate, List.drop_replicate, Text.commonPrefix_replicate]
    decide
  have longest := Text.longestCommonPrefix_commonPrefix (monotone.recordedText.drop 0)
    (monotone.recordedText.drop 1)
  obtain ⟨-, stored, -⟩ := commonExtension_eq o sized known (i := 0) (j := 1)
    (length ▸ by decide) (length ▸ by decide)
  have found : monotone.agreement 0 1 0 = 2 ^ 62 - 1 := common
  have long : ¬ ((0 : Nat) = 1 ∨ monotone.Short 0 1 (2 ^ 62 - 1)) := by
    rw [Short, length]
    decide
  rw [found, if_neg long] at stored
  rw [common] at longest
  exact ⟨valid, by decide, computed, longest, by decide, stored, stored ▸ nofun⟩

end Grammar

end RunGrammar
