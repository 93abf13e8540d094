import GraphedCore.Lib.HashCons
import Mathlib.Combinatorics.Enumerative.DoubleCounting

/-!
# Graphs of one layout

Two graphs, each with an equivalence, whose classes correspond. Corresponding
classes have the same place when the first members of the classes come in the
same order in both graphs. If moreover the first members read corresponding
classes, in order, then the two quotients are one list.
-/

namespace Dag

universe u

open Wired

/-- Kept positions before `i` that inject into kept positions before `j`. -/
theorem number_le_number {keep more : Nat → Prop} {i j : Nat} (F : Nat → Nat → Prop)
    (maps : ∀ k < i, keep k → ∃ l < j, more l ∧ F k l)
    (injective : ∀ k k' l, keep k → keep k' → F k l → F k' l → k = k') :
    number keep i ≤ number more j := by
  classical
  simp only [number, Nat.count_eq_card_filter_range]
  apply Finset.card_le_card_of_forall_subsingleton F
  · intro k member
    obtain ⟨before, kept⟩ := Finset.mem_filter.mp member
    obtain ⟨l, before', kept', related⟩ := maps k (Finset.mem_range.mp before) kept
    exact ⟨l, Finset.mem_filter.mpr ⟨Finset.mem_range.mpr before', kept'⟩, related⟩
  · rintro l _ k ⟨member, related⟩ k' ⟨member', related'⟩
    exact injective k k' l (Finset.mem_filter.mp member).2 (Finset.mem_filter.mp member').2 related
      related'

variable {ν : Type u} [Wired ν] {r s : Nat → Nat → Prop} {n m : Nat} {C : Nat → Nat → Prop}

/-- The classes of `r` below `n` correspond to those of `s` below `m`, and their
first members come in the same order. -/
structure SameLayout (r s : Nat → Nat → Prop) (n m : Nat) (C : Nat → Nat → Prop) : Prop where
  bound : ∀ i j, C i j → i < n ∧ j < m
  total : ∀ i < n, ∃ j, C i j
  onto : ∀ j < m, ∃ i, C i j
  agree : ∀ i j i' j', C i j → C i' j' → (r i i' ↔ s j j')
  order : ∀ i j i' j', C i j → C i' j' → (leader r i < leader r i' ↔ leader s j < leader s j')

/-- A layout can be read from either side. -/
theorem SameLayout.flip (layout : SameLayout r s n m C) :
    SameLayout s r m n (fun j i => C i j) where
  bound j i related := (layout.bound i j related).symm
  total := layout.onto
  onto := layout.total
  agree j i j' i' related related' := (layout.agree i j i' j' related related').symm
  order j i j' i' related related' := (layout.order i j i' j' related related').symm

/-- A leader is sent to the leader of a corresponding class, and two leaders never
to the same. -/
theorem SameLayout.number_le (layout : SameLayout r s n m C) (first : Equivalence r)
    (second : Equivalence s) {p q : Nat} (inside : p ≤ n)
    (below : ∀ k l, k < p → IsLeader r k → C k l → leader s l < q) :
    number (IsLeader r) p ≤ number (IsLeader s) q := by
  apply number_le_number (fun k l => ∃ l', C k l' ∧ leader s l' = l)
  · intro k before leads
    obtain ⟨l, related⟩ := layout.total k (before.trans_le inside)
    exact ⟨leader s l, below k l before leads related, leader_isLeader second l, l, related, rfl⟩
  · rintro k k' _ leads leads' ⟨l, related, rfl⟩ ⟨l', related', same⟩
    have classes := (layout.agree k l k' l' related related').mpr ((leader_eq_iff second).mp same.symm)
    rw [← leads.leader_eq, ← leads'.leader_eq]
    exact (leader_eq_iff first).mpr classes

/-- A class comes no later than its partner: the leaders before it have partners
before. -/
theorem SameLayout.place_le (layout : SameLayout r s n m C) (first : Equivalence r)
    (second : Equivalence s) {i j : Nat} (related : C i j) : place r i ≤ place s j := by
  have inside := (layout.bound i j related).1
  refine layout.number_le first second ((leader_le first i).trans inside.le) ?_
  intro k l before leads related'
  refine (layout.order k l i j related' related).mp ?_
  rwa [leads.leader_eq]

/-- Corresponding classes have one place. -/
theorem SameLayout.place_eq (layout : SameLayout r s n m C) (first : Equivalence r)
    (second : Equivalence s) {i j : Nat} (related : C i j) : place r i = place s j :=
  Nat.le_antisymm (layout.place_le first second related)
    (layout.flip.place_le second first related)

/-- There are as many classes on either side. -/
theorem SameLayout.number_eq (layout : SameLayout r s n m C) (first : Equivalence r)
    (second : Equivalence s) : number (IsLeader r) n = number (IsLeader s) m := by
  apply Nat.le_antisymm
  · exact layout.number_le first second le_rfl
      (fun k l _ _ related => (leader_le second l).trans_lt (layout.bound k l related).2)
  · exact layout.flip.number_le second first le_rfl
      (fun l k _ _ related => (leader_le first k).trans_lt (layout.bound k l related).1)

/-- Corresponding inputs are at the same places. -/
theorem SameLayout.map_place (layout : SameLayout r s n m C) (first : Equivalence r)
    (second : Equivalence s) {xs ys : List Nat} (pairs : List.Forall₂ C xs ys) :
    xs.map (place r) = ys.map (place s) := by
  induction pairs with
  | nil => rfl
  | cons related _ ih => rw [List.map_cons, List.map_cons, layout.place_eq first second related, ih]

/-- Classes in one order whose first members agree up to the places: one
quotient. -/
theorem SameLayout.quotient_eq {nodes nodes' : List ν}
    (layout : SameLayout r s nodes.length nodes'.length C) (first : Equivalence r)
    (second : Equivalence s)
    (shape : ∀ i j node node', C i j → nodes[leader r i]? = some node →
      nodes'[leader s j]? = some node' → rewire (place r) node = rewire (place s) node') :
    quotient r nodes = quotient s nodes' := by
  have lengths : (quotient r nodes).length = (quotient s nodes').length := by
    rw [quotient_length, quotient_length, layout.number_eq first second]
  refine List.ext_getElem? (fun k => ?_)
  by_cases inside : k < (quotient r nodes).length
  · obtain ⟨i, bound, rfl⟩ := place_surjective inside
    obtain ⟨j, related⟩ := layout.total i bound
    have bound' := (layout.bound i j related).2
    have leads := (leader_le first i).trans_lt bound
    have leads' := (leader_le second j).trans_lt bound'
    obtain ⟨node, lookup⟩ := lookup_exists leads
    obtain ⟨node', lookup'⟩ := lookup_exists leads'
    have stored := quotient_take_stored leads (leader_isLeader first i) lookup
    have stored' := quotient_take_stored leads' (leader_isLeader second j) lookup'
    rw [List.take_length, (place_eq_iff first).mpr (leader_related first i)] at stored
    rw [List.take_length, (place_eq_iff second).mpr (leader_related second j),
      ← layout.place_eq first second related] at stored'
    rw [stored, stored', shape i j node node' related lookup lookup']
  · rw [List.getElem?_eq_none (Nat.le_of_not_lt inside),
      List.getElem?_eq_none (lengths ▸ Nat.le_of_not_lt inside)]

end Dag
