import GraphedCore.Lib.Compact
import Mathlib.Order.Interval.Finset.Nat

/-!
# A graph inside a longer one

Inserting nodes into a graph shifts the positions of the nodes after them. What the
old roots reach is shifted with them, and since nodes are numbered by counting the
kept ones, dropping what the roots do not reach forgets what was inserted.
-/

namespace Dag

universe u

open Wired

variable {ν : Type u} [Wired ν] {nodes more : List ν} {shift : Nat → Nat} {roots : List Nat}

/-- The nodes of one graph stand in another, in order, over the shifted inputs. -/
structure Embedded (nodes more : List ν) (shift : Nat → Nat) : Prop where
  increasing : ∀ i j, i < j → j < nodes.length → shift i < shift j
  copied : ∀ i node, nodes[i]? = some node → more[shift i]? = some (rewire shift node)

/-- An embedding keeps the order, so it sends no two nodes to one place. -/
theorem Embedded.injective (embedded : Embedded nodes more shift) {i j : Nat}
    (inside : i < nodes.length) (inside' : j < nodes.length) (same : shift i = shift j) :
    i = j := by
  rcases Nat.lt_trichotomy i j with less | equal | greater
  · exact absurd same (Nat.ne_of_lt (embedded.increasing i j less inside'))
  · exact equal
  · exact absurd same.symm (Nat.ne_of_lt (embedded.increasing j i greater inside))

/-- The shifted roots reach shifted nodes only. -/
theorem Embedded.reaches_shifted (embedded : Embedded nodes more shift)
    (topological : Topological nodes) (inside : ∀ o ∈ roots, o < nodes.length) {k : Nat}
    (reached : Reaches more (roots.map shift) k) :
    ∃ i, Reaches nodes roots i ∧ k = shift i := by
  induction reached with
  | root member =>
    obtain ⟨o, present, rfl⟩ := List.mem_map.mp member
    exact ⟨o, .root present, rfl⟩
  | input _ lookup member ih =>
    obtain ⟨i, reached, rfl⟩ := ih
    obtain ⟨node, found⟩ := lookup_exists (reached.bound topological inside)
    obtain rfl := Option.some.inj (lookup.symm.trans (embedded.copied i node found))
    rw [inputs_rewire] at member
    obtain ⟨x, present, rfl⟩ := List.mem_map.mp member
    exact ⟨x, reached.input found present, rfl⟩

/-- What the roots reach, the shifted roots reach at the shifted places. -/
theorem Embedded.reaches (embedded : Embedded nodes more shift) {i : Nat}
    (reached : Reaches nodes roots i) : Reaches more (roots.map shift) (shift i) := by
  induction reached with
  | root member => exact .root (List.mem_map_of_mem member)
  | @input i x node _ lookup member ih =>
    refine ih.input (embedded.copied i node lookup) ?_
    rw [inputs_rewire]
    exact List.mem_map_of_mem member

/-- As many kept nodes before a shifted node as before the node. -/
theorem Embedded.number (embedded : Embedded nodes more shift)
    (topological : Topological nodes) (inside : ∀ o ∈ roots, o < nodes.length) {i : Nat}
    (bound : i < nodes.length) :
    number (Reaches more (roots.map shift)) (shift i) = number (Reaches nodes roots) i := by
  classical
  have image : (Finset.range (shift i)).filter (Reaches more (roots.map shift)) =
      ((Finset.range i).filter (Reaches nodes roots)).image shift := by
    ext k
    simp only [Finset.mem_filter, Finset.mem_range, Finset.mem_image]
    constructor
    · rintro ⟨before, reached⟩
      obtain ⟨j, kept, rfl⟩ := embedded.reaches_shifted topological inside reached
      refine ⟨j, ⟨?_, kept⟩, rfl⟩
      by_contra late
      rcases Nat.eq_or_lt_of_le (Nat.le_of_not_lt late) with rfl | later
      · exact Nat.lt_irrefl _ before
      · exact Nat.lt_asymm before
          (embedded.increasing i j later (kept.bound topological inside))
    · rintro ⟨j, ⟨before, kept⟩, rfl⟩
      exact ⟨embedded.increasing j i before bound, embedded.reaches kept⟩
  rw [Dag.number, Dag.number, Nat.count_eq_card_filter_range, Nat.count_eq_card_filter_range,
    image, Finset.card_image_of_injOn]
  intro j member j' member' same
  have below {x : Nat} (listed : x ∈ ((Finset.range i).filter (Reaches nodes roots) : Finset Nat)) :
      x < nodes.length :=
    (Finset.mem_range.mp (Finset.mem_filter.mp listed).1).trans bound
  exact embedded.injective (below member) (below member') same

/-- The kept nodes are the kept nodes, shifted. -/
theorem Embedded.pick_eq (embedded : Embedded nodes more shift)
    (topological : Topological nodes) (inside : ∀ o ∈ roots, o < nodes.length) :
    pick (Reaches more (roots.map shift)) more =
      (pick (Reaches nodes roots) nodes).map (rewire shift) := by
  refine List.ext_getElem? (fun k => Option.ext (fun item => ?_))
  rw [pick_getElem?_iff, List.getElem?_map, Option.map_eq_some_iff]
  constructor
  · rintro ⟨_, reached, lookup, rfl⟩
    obtain ⟨i, kept, rfl⟩ := embedded.reaches_shifted topological inside reached
    have bound := kept.bound topological inside
    obtain ⟨node, found⟩ := lookup_exists bound
    obtain rfl := Option.some.inj (lookup.symm.trans (embedded.copied i node found))
    exact ⟨node, (pick_getElem?_iff _ _ _ _).mpr
      ⟨i, kept, found, embedded.number topological inside bound⟩, rfl⟩
  · rintro ⟨node, picked, rfl⟩
    obtain ⟨i, kept, found, rfl⟩ := (pick_getElem?_iff _ _ _ _).mp picked
    exact ⟨shift i, embedded.reaches kept, embedded.copied i node found,
      (embedded.number topological inside (lookup_bound found)).symm⟩

/-- What the roots reach is the same graph, under the same numbers. -/
theorem Embedded.compact_eq (embedded : Embedded nodes more shift)
    (topological : Topological nodes) (inside : ∀ o ∈ roots, o < nodes.length) :
    compact (Reaches more (roots.map shift)) id more = compact (Reaches nodes roots) id nodes ∧
      (roots.map shift).map (Dag.number (Reaches more (roots.map shift))) =
        roots.map (Dag.number (Reaches nodes roots)) := by
  constructor
  · rw [compact, compact, embedded.pick_eq topological inside, List.map_map]
    refine List.map_congr_left (fun node member => ?_)
    obtain ⟨k, picked⟩ := List.mem_iff_getElem?.mp member
    obtain ⟨i, _, found, _⟩ := (pick_getElem?_iff _ _ _ _).mp picked
    rw [Function.comp_apply, rewire_rewire]
    refine rewire_congr _ _ node (fun x read => ?_)
    exact embedded.number topological inside
      ((topological i node found x read).trans (lookup_bound found))
  · rw [List.map_map]
    exact List.map_congr_left (fun o member => embedded.number topological inside (inside o member))

end Dag
