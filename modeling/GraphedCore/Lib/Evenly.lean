import Mathlib.Algebra.Order.Ring.Int
import Mathlib.Order.Monotone.Basic
import Mathlib.Data.Nat.Find

/-!
# Cutting a length into even pieces

Piece `k` of `parts` goes from `k * total / parts` to `(k + 1) * total / parts`. The cuts
ascend from zero to the total, and two pieces differ by at most one. Between ascending cuts,
every point lies in exactly one piece.
-/

namespace Evenly

/-! ## Pieces between ascending cuts -/

section Pieces

variable {α : Type*} [LinearOrder α] {cut : Nat → α}

/-- A point below the last cut and not below the first lies between two
neighbours. -/
theorem piece_exists {n : Nat} {x : α} (first : cut 0 ≤ x) (last : x < cut n) :
    ∃ k < n, cut k ≤ x ∧ x < cut (k + 1) := by
  induction n with
  | zero => exact absurd first (not_le_of_gt last)
  | succ n ih =>
    rcases lt_or_ge x (cut n) with before | here
    · obtain ⟨k, inside, piece⟩ := ih before
      exact ⟨k, Nat.lt_succ_of_lt inside, piece⟩
    · exact ⟨n, Nat.lt_succ_self n, here, last⟩

/-- Different pieces have no point in common. -/
theorem piece_unique (ascending : Monotone cut) {j k : Nat} {x : α} (above : cut j ≤ x)
    (below : x < cut (j + 1)) (above' : cut k ≤ x) (below' : x < cut (k + 1)) : j = k := by
  have apart {a b : Nat} (less : a < b) (below : x < cut (a + 1)) (above : cut b ≤ x) : False :=
    absurd (below.trans_le ((ascending less).trans above)) (lt_irrefl x)
  rcases Nat.lt_trichotomy j k with less | same | greater
  · exact (apart less below above').elim
  · exact same
  · exact (apart greater below' above).elim

end Pieces

/-! ## Even cuts -/

/-- The start of piece `k`, which is the end of the piece before it. -/
def cut (total parts : Int) (k : Nat) : Int := k * total / parts

section Cuts

variable {total parts : Int}

/-- The first part starts at the start. -/
theorem cut_zero : cut total parts 0 = 0 := by simp [cut]

/-- The last part ends at the end. -/
theorem cut_last {k : Nat} (positive : 0 < parts) (last : (k : Int) = parts) :
    cut total parts k = total := by
  rw [cut, last, Int.mul_ediv_cancel_left _ positive.ne']

/-- Later parts start later. -/
theorem cut_mono (positive : 0 < parts) (nonneg : 0 ≤ total) {j k : Nat} (le : j ≤ k) :
    cut total parts j ≤ cut total parts k := by
  refine Int.ediv_le_ediv positive (Int.mul_le_mul_of_nonneg_right ?_ nonneg)
  exact Int.ofNat_le.mpr le

/-- Each piece has the length of the quotient, or one more. -/
theorem cut_succ (positive : 0 < parts) (k : Nat) :
    cut total parts k + total / parts ≤ cut total parts (k + 1) ∧
      cut total parts (k + 1) ≤ cut total parts k + total / parts + 1 := by
  have next : ((k + 1 : Nat) : Int) * total = k * total + total := by
    rw [Nat.cast_add, Nat.cast_one, add_mul, one_mul]
  rw [cut, cut, next]
  generalize (k : Int) * total = before
  have left := Int.ediv_mul_le before positive.ne'
  have right := Int.ediv_mul_le total positive.ne'
  have left' := Int.lt_ediv_add_one_mul_self before positive
  have right' := Int.lt_ediv_add_one_mul_self total positive
  rw [add_mul, one_mul] at left' right'
  constructor
  · rw [Int.le_ediv_iff_mul_le positive, add_mul]
    omega
  · rw [← Int.lt_add_one_iff, Int.ediv_lt_iff_lt_mul positive, add_mul, add_mul, add_mul, one_mul]
    omega

/-- No part is longer than another by more than one. -/
theorem cut_even (positive : 0 < parts) (j k : Nat) :
    cut total parts (j + 1) - cut total parts j ≤
      cut total parts (k + 1) - cut total parts k + 1 := by
  obtain ⟨_, atMost⟩ := @cut_succ total parts positive j
  obtain ⟨atLeast, _⟩ := @cut_succ total parts positive k
  omega

end Cuts

end Evenly
