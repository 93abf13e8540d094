import Mathlib.Data.Setoid.Basic
import Mathlib.SetTheory.Cardinal.Finite

/-!
# Partitions whose blocks have one exit

Items are used by items, and some are bound to leave their block. A partition is legal
when no block has two exits: two items that are bound, or used from another block. A
partition is greedy when an item that is not bound is in the block of its users whenever
they share one. If no chain of users is infinite, every legal partition refines every
greedy one.
-/

universe u

namespace Exits

variable {α : Type u} {used : α → α → Prop} {bound : α → Prop}

/-- Bound, or used from another block. `used i k` says that `k` uses `i`. -/
def Exit (used : α → α → Prop) (bound : α → Prop) (r : Setoid α) (i : α) : Prop :=
  bound i ∨ ∃ k, used i k ∧ ¬ r i k

/-- A block has at most one exit. -/
def Legal (used : α → α → Prop) (bound : α → Prop) (r : Setoid α) : Prop :=
  ∀ i j, r i j → Exit used bound r i → Exit used bound r j → i = j

/-- What is not bound joins the block of its users, when these are all in one
block. -/
def Greedy (used : α → α → Prop) (bound : α → Prop) (s : Setoid α) : Prop :=
  ∀ i t, ¬ bound i → (∀ k, used i k → s k t) → s i t

/-- Every block has an exit: from a member that is not bound one goes to a user,
and this ends. -/
theorem exit_exists (ends : WellFounded (fun k i => used i k))
    (continued : ∀ i, ¬ bound i → ∃ k, used i k) (r : Setoid α) (i : α) :
    ∃ e, r i e ∧ Exit used bound r e := by
  induction i using ends.induction with
  | h i ih =>
    by_cases exit : Exit used bound r i
    · exact ⟨i, r.refl i, exit⟩
    · rw [Exit, not_or, not_exists] at exit
      obtain ⟨k, uses⟩ := continued i exit.1
      have same : r i k := by
        by_contra other
        exact exit.2 k ⟨uses, other⟩
      obtain ⟨e, related, leaves⟩ := ih k uses
      exact ⟨e, r.trans same related, leaves⟩

/-- In a legal partition every member is in the greedy block of the exit. -/
theorem Legal.greedy_exit {r s : Setoid α} (legal : Legal used bound r)
    (greedy : Greedy used bound s) (ends : WellFounded (fun k i => used i k)) {e : α}
    (leaves : Exit used bound r e) (i : α) (related : r i e) : s i e := by
  induction i using ends.induction with
  | h i ih =>
    by_cases exit : Exit used bound r i
    · rw [legal i e related exit leaves]
    · rw [Exit, not_or, not_exists] at exit
      refine greedy i e exit.1 (fun k uses => ?_)
      have same : r i k := by
        by_contra other
        exact exit.2 k ⟨uses, other⟩
      exact ih k uses (r.trans (r.symm same) related)

/-- Every legal partition refines the greedy one. -/
theorem Legal.le_greedy {r s : Setoid α} (legal : Legal used bound r)
    (greedy : Greedy used bound s) (ends : WellFounded (fun k i => used i k))
    (continued : ∀ i, ¬ bound i → ∃ k, used i k) : r ≤ s := by
  intro i j related
  obtain ⟨e, toExit, leaves⟩ := exit_exists ends continued r i
  have first := legal.greedy_exit greedy ends leaves i toExit
  have second := legal.greedy_exit greedy ends leaves j (r.trans (r.symm related) toExit)
  exact s.trans first (s.symm second)

/-- A coarser partition has no more blocks. -/
theorem card_le_of_le [Finite α] {r s : Setoid α} (finer : r ≤ s) :
    Nat.card (Quotient s) ≤ Nat.card (Quotient r) := by
  refine Nat.card_le_card_of_surjective (Quotient.map id (fun _ _ related => finer related)) ?_
  intro block
  obtain ⟨i, rfl⟩ := Quotient.exists_rep block
  exact ⟨Quotient.mk r i, rfl⟩

end Exits
