import Mathlib.Algebra.BigOperators.Group.List.Basic

/-!
# Values of ranges

A value of ranges in a monoid is additive when a range has the product of the values of its two
parts, wherever it is cut. Then it has the product of the values of any pieces that tile it, in
their order.
-/

namespace Tiling

universe u v

/-- Pieces that follow one another from one end to the other. -/
inductive Tiles {α : Type u} (first last : α → Int) : Int → Int → List α → Prop
  | nil (a : Int) : Tiles first last a a []
  | cons {a b : Int} {x : α} {xs : List α} : first x = a → a ≤ last x →
      Tiles first last (last x) b xs → Tiles first last a b (x :: xs)

/-- The value of a range is that of its parts, in their order. -/
structure Additive {M : Type v} [Monoid M] (value : Int → Int → M) : Prop where
  empty : ∀ a, value a a = 1
  split : ∀ a b c, a ≤ b → b ≤ c → value a c = value a b * value b c

variable {α : Type u} {M : Type v} [Monoid M] {first last : α → Int} {value : Int → Int → M}
  {a b : Int} {xs : List α}

/-- What is tiled does not run backwards. -/
theorem Tiles.le (tiles : Tiles first last a b xs) : a ≤ b := by
  induction tiles with
  | nil a => exact Int.le_refl a
  | cons starts forward _ ih => exact Int.le_trans forward ih

/-- The value of a range is the product over its tiles. -/
theorem Tiles.prod (tiles : Tiles first last a b xs) (additive : Additive value) :
    (xs.map (fun x => value (first x) (last x))).prod = value a b := by
  induction tiles with
  | nil a => rw [List.map_nil, List.prod_nil, additive.empty]
  | @cons a b x xs starts forward rest ih =>
    rw [List.map_cons, List.prod_cons, ih, starts]
    exact (additive.split a (last x) b forward rest.le).symm

/-- Consecutive cuts of an interval tile it. -/
theorem tiles_range {cut : Nat → Int} (ascending : ∀ k, cut k ≤ cut (k + 1)) {piece : Nat → α}
    (starts : ∀ k, first (piece k) = cut k) (ends : ∀ k, last (piece k) = cut (k + 1)) (n i : Nat) :
    Tiles first last (cut i) (cut (i + n)) ((List.range' i n).map piece) := by
  induction n generalizing i with
  | zero => exact .nil _
  | succ n ih =>
    rw [List.range'_succ, List.map_cons]
    refine .cons (starts i) ?_ ?_
    · rw [ends]
      exact ascending i
    · rw [ends, show i + (n + 1) = i + 1 + n by omega]
      exact ih (i + 1)

end Tiling
