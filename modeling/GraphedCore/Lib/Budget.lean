import Mathlib.Data.Nat.Init

/-!
# Runs under a limit on time

A run passes one check after another. It ends at the first check at which more time
than the limit was spent, and at its last check in any case. What it does between the
checks is left open, and so is where they are: after an iteration, or inside of one.

Whatever the clock, a run ends at one of its checks, and for each of them there is a
clock under which it ends there. So a result is the same under all clocks exactly when
it is the same at all checks.
-/

namespace Budget

universe u

/-- The time spent when a check is reached. The clock gives the time that passes
between a check and the one after it. -/
def spent (clock : Nat → Nat) : Nat → Nat
  | 0 => 0
  | check + 1 => spent clock check + clock check

/-- A run whose last check is `last` ends at the check `count`. The checks before
that one were reached in time. -/
structure EndsAt (limit : Nat) (clock : Nat → Nat) (last count : Nat) : Prop where
  started : 1 ≤ count
  within : count ≤ last
  early : ∀ check, 1 ≤ check → check < count → spent clock check ≤ limit
  late : count < last → limit < spent clock count

/-- The check at which a run ends, if it has reached `check` and there are `left`
more to come. -/
def stopFrom (limit : Nat) (clock : Nat → Nat) : Nat → Nat → Nat
  | 0, check => check
  | left + 1, check =>
    if limit < spent clock check then check else stopFrom limit clock left (check + 1)

/-- The check at which a run ends. -/
def stop (limit : Nat) (clock : Nat → Nat) (last : Nat) : Nat :=
  stopFrom limit clock (last - 1) 1

/-- A clock under which all time is spent right before one check. -/
def stall (limit check before : Nat) : Nat :=
  if before + 1 = check then limit + 1 else 0

variable {limit last count count' : Nat} {clock : Nat → Nat}

/-- A run ends at one check only. Were there two, the later one would be reached
in time and the earlier one would not. -/
theorem EndsAt.unique (ends : EndsAt limit clock last count)
    (ends' : EndsAt limit clock last count') : count = count' := by
  rcases Nat.lt_trichotomy count count' with before | same | after
  · have reached := ends'.early count ends.started before
    exact absurd (ends.late (Nat.lt_of_lt_of_le before ends'.within)) (Nat.not_lt_of_le reached)
  · exact same
  · have reached := ends.early count' ends'.started after
    exact absurd (ends'.late (Nat.lt_of_lt_of_le after ends.within)) (Nat.not_lt_of_le reached)

/-- Where the recursion stops, the run ends, provided that the checks before were
reached in time. -/
theorem stopFrom_endsAt {left check : Nat} (started : 1 ≤ check) (reach : check + left = last)
    (early : ∀ before, 1 ≤ before → before < check → spent clock before ≤ limit) :
    EndsAt limit clock last (stopFrom limit clock left check) := by
  induction left generalizing check with
  | zero =>
    obtain rfl : check = last := reach
    exact ⟨started, Nat.le_refl check, early, fun before => absurd before (Nat.lt_irrefl check)⟩
  | succ left ih =>
    rw [stopFrom]
    split
    · next late => exact ⟨started, by omega, early, fun _ => late⟩
    · next intime =>
      refine ih (Nat.le_succ_of_le started) (by omega) (fun before positive within => ?_)
      rcases Nat.eq_or_lt_of_le (Nat.le_of_lt_succ within) with rfl | within
      · exact Nat.le_of_not_lt intime
      · exact early before positive within

/-- Every run with a check ends at one. -/
theorem stop_endsAt (limit : Nat) (clock : Nat → Nat) (checked : 1 ≤ last) :
    EndsAt limit clock last (stop limit clock last) := by
  refine stopFrom_endsAt (Nat.le_refl 1) (by omega) (fun before positive within => ?_)
  exact absurd positive (Nat.not_le_of_lt within)

/-- Before the stall no time is spent. -/
theorem spent_stall_before {check before : Nat} (early : before < check) :
    spent (stall limit check) before = 0 := by
  induction before with
  | zero => rfl
  | succ before ih =>
    rw [spent, ih (Nat.lt_of_succ_lt early), stall, if_neg (Nat.ne_of_lt early)]

/-- At the stalled check the limit is exceeded. -/
theorem spent_stall {check : Nat} (positive : 1 ≤ check) :
    spent (stall limit check) check = limit + 1 := by
  obtain ⟨before, rfl⟩ := Nat.exists_eq_add_of_le' positive
  rw [spent, spent_stall_before (Nat.lt_succ_self before), stall, if_pos rfl, Nat.zero_add]

/-- A stalled run ends at the stalled check, so every check is where some run
ends. -/
theorem endsAt_stall (limit : Nat) (started : 1 ≤ count) (within : count ≤ last) :
    EndsAt limit (stall limit count) last count := by
  refine ⟨started, within, fun check _ before => ?_, fun _ => ?_⟩
  · rw [spent_stall_before before]
    exact Nat.zero_le limit
  · rw [spent_stall started]
    exact Nat.lt_succ_self limit

/-- A result does not depend on the clock exactly when it is the same at every check as
    at the last one.

    Proof: the run that is stalled right before a check ends there, and the one that is
    stalled before the last check ends at the last. Conversely, both runs end at some
    check. -/
theorem independent_iff {β : Type u} (result : Nat → β) (limit : Nat) (checked : 1 ≤ last) :
    (∀ clock clock' count count', EndsAt limit clock last count →
        EndsAt limit clock' last count' → result count = result count') ↔
      ∀ count, 1 ≤ count → count ≤ last → result count = result last := by
  constructor
  · intro independent count started within
    exact independent _ _ count last (endsAt_stall limit started within)
      (endsAt_stall limit checked (Nat.le_refl last))
  · intro same clock clock' count count' ends ends'
    exact (same count ends.started ends.within).trans (same count' ends'.started ends'.within).symm

end Budget
