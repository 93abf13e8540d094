import Mathlib.Data.List.Dedup
import Mathlib.Data.List.DropRight

/-!
# Recency

The items of a history in the order of their last uses, and the most recent of these.
A bounded cache that moves what it is asked for to the end, and drops from the front,
needs only what it holds to keep them.
-/

universe u

namespace Recency

variable {α : Type u} [DecidableEq α]

/-- The `bound` items used last, the latest at the end. -/
def recent (bound : Nat) (history : List α) : List α := history.dedup.rtake bound

/-- A new item moves behind the others. -/
theorem dedup_concat (history : List α) (x : α) :
    (history ++ [x]).dedup = history.dedup.filter (· ≠ x) ++ [x] := by
  induction history with
  | nil => rfl
  | cons y rest ih =>
    rw [List.cons_append]
    by_cases later : y ∈ rest
    · rw [List.dedup_cons_of_mem (List.mem_append_left _ later), List.dedup_cons_of_mem later, ih]
    · rw [List.dedup_cons_of_notMem later]
      by_cases same : y = x
      · subst same
        rw [List.dedup_cons_of_mem (by simp), ih]
        simp
      · rw [List.dedup_cons_of_notMem (by simp [later, same]), ih]
        simp [same]

/-- Nothing is recent before the first item. -/
theorem recent_nil (bound : Nat) : recent bound ([] : List α) = [] := List.rtake_nil _

/-- No more than the bound are recent. -/
theorem recent_length (bound : Nat) (history : List α) :
    (recent bound history).length ≤ bound := by
  rw [recent, List.rtake, List.length_drop]
  omega

omit [DecidableEq α] in
/-- A short list has no more than its last items. -/
theorem rtake_of_length_le {items : List α} {bound : Nat} (small : items.length ≤ bound) :
    items.rtake bound = items := by
  rw [List.rtake, Nat.sub_eq_zero_of_le small, List.drop_zero]

omit [DecidableEq α] in
/-- The last items of two lists are in the second one when it is long enough. -/
theorem rtake_append {front back : List α} {bound : Nat} (enough : bound ≤ back.length) :
    (front ++ back).rtake bound = back.rtake bound := by
  rw [List.rtake_eq_reverse_take_reverse, List.rtake_eq_reverse_take_reverse, List.reverse_append,
    List.take_append_of_le_length (by rwa [List.length_reverse])]

/-- Dropping an item from a list without repetition drops at most one. -/
theorem length_filter_ne {items : List α} (once : items.Nodup) (x : α) :
    items.length - 1 ≤ (items.filter (· ≠ x)).length := by
  have erased : items.filter (· ≠ x) = items.erase x := by
    rw [once.erase_eq_filter]
    exact List.filter_congr (fun y _ => by by_cases same : y = x <;> simp [same])
  rw [erased]
  exact List.le_length_erase

/-- Removing one item from the last ones leaves all but one of them. -/
theorem rtake_filter {items : List α} (once : items.Nodup) (bound : Nat) (x : α) :
    ((items.rtake (bound + 1)).filter (· ≠ x)).rtake bound =
      (items.filter (· ≠ x)).rtake bound := by
  by_cases small : items.length ≤ bound + 1
  · rw [rtake_of_length_le small]
  · have split : items = items.rdrop (bound + 1) ++ items.rtake (bound + 1) :=
      (List.take_append_drop _ _).symm
    have length : (items.rtake (bound + 1)).length = bound + 1 := by
      rw [List.rtake, List.length_drop]
      omega
    have enough := length_filter_ne (once.sublist (List.drop_sublist _ _) :
      (items.rtake (bound + 1)).Nodup) x
    rw [length, Nat.add_sub_cancel] at enough
    conv_rhs => rw [split, List.filter_append, rtake_append enough]

/-- A use moves its item to the end, and the oldest is dropped if there are too
many. -/
theorem recent_concat {bound : Nat} (positive : 0 < bound) (history : List α) (x : α) :
    recent bound (history ++ [x]) =
      ((recent bound history).filter (· ≠ x) ++ [x]).rtake bound := by
  obtain ⟨less, rfl⟩ := Nat.exists_eq_succ_of_ne_zero (Nat.ne_of_gt positive)
  rw [recent, dedup_concat, List.rtake_concat_succ, List.rtake_concat_succ, recent,
    rtake_filter (List.nodup_dedup history)]

end Recency
