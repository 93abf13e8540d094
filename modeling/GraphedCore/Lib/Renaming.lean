import GraphedCore.Lib.Term
import Mathlib.Data.Set.Card
import Mathlib.Order.Interval.Finset.Nat

/-!
# Graphs that differ in their numbering

A graph in which no two nodes agree in label and inputs is determined, up to its
numbering, by the set of trees its nodes unfold to: each tree has one position in
either graph, and the map between the positions keeps labels and carries inputs
to inputs.
-/

namespace Dag

universe u v

open Wired

variable {ν : Type u} [Wired ν] {α : Type v} {label : ν → α} {nodes nodes' : List ν}

/-- The trees the nodes of a graph unfold to. -/
def trees (label : ν → α) (nodes : List ν) : Set (Term α) :=
  {term | ∃ i, termAt label nodes i = some term}

/-- The positions of one graph go to those of the other, one to one. A node keeps
its label, and its inputs are renamed. -/
structure Renaming (label : ν → α) (nodes nodes' : List ν) (rename : Nat → Nat) : Prop where
  bijective : Set.BijOn rename (Set.Iio nodes.length) (Set.Iio nodes'.length)
  carried : ∀ i node, nodes[i]? = some node → ∃ node', nodes'[rename i]? = some node' ∧
    label node' = label node ∧ inputs node' = (inputs node).map rename

/-- Distinct nodes have distinct trees, so there are as many trees as nodes. -/
theorem encard_trees (topological : Topological nodes) (distinct : Distinct label nodes) :
    (trees label nodes).encard = nodes.length := by
  have image : some '' trees label nodes = termAt label nodes '' Set.Iio nodes.length := by
    ext value
    constructor
    · rintro ⟨term, ⟨i, known⟩, rfl⟩
      exact ⟨i, (termAt_exists_iff label topological).mp ⟨term, known⟩, known⟩
    · rintro ⟨i, inside, rfl⟩
      obtain ⟨term, known⟩ := (termAt_exists_iff label topological).mpr inside
      exact ⟨term, ⟨i, known⟩, known.symm⟩
  have injective : Set.InjOn (termAt label nodes) (Set.Iio nodes.length) :=
    fun i inside j inside' same => (termAt_injective topological distinct inside inside').mp same
  rw [← (Option.some_injective _).encard_image, image, injective.encard_image,
    Set.encard_eq_coe_toFinset_card]
  simp

/-- Nodes of one tree have one label, and renaming the inputs of the one to
positions of their trees gives the inputs of the other. -/
theorem same_tree (topological : Topological nodes) (topological' : Topological nodes')
    (distinct' : Distinct label nodes') {rename : Nat → Nat}
    (kept : ∀ i < nodes.length, rename i < nodes'.length ∧
      termAt label nodes' (rename i) = termAt label nodes i)
    {i : Nat} {node node' : ν} (lookup : nodes[i]? = some node)
    (lookup' : nodes'[rename i]? = some node') :
    label node' = label node ∧ inputs node' = (inputs node).map rename := by
  have agree := (kept i (lookup_bound lookup)).2
  obtain ⟨term, known⟩ := (termAt_exists_iff label topological).mpr (lookup_bound lookup)
  rw [known, termAt_node topological' lookup', Option.map_eq_some_iff] at agree
  rw [termAt_node topological lookup, Option.map_eq_some_iff] at known
  obtain ⟨args, read, rfl⟩ := known
  obtain ⟨args', read', applied⟩ := agree
  obtain ⟨labels, rfl⟩ := Term.apply.inj applied
  refine ⟨labels, ?_⟩
  have pointwise := ((Enumerate.mapM_eq_some_iff _ _ _).mp read').trans
    ((Enumerate.mapM_eq_some_iff _ _ _).mp read).symm
  have lengths : (inputs node').length = (inputs node).length := by
    simpa using congrArg List.length pointwise
  refine List.ext_getElem (by simp [lengths]) (fun k left right => ?_)
  have inside : k < (inputs node).length := lengths ▸ left
  have same : termAt label nodes' (inputs node')[k] = termAt label nodes (inputs node)[k] := by
    have values := congrArg (fun values => values[k]?) pointwise
    simpa [List.getElem?_eq_getElem left, List.getElem?_eq_getElem inside] using values
  have before := (topological i node lookup _ (List.getElem_mem inside)).trans (lookup_bound lookup)
  have before' :=
    (topological' _ node' lookup' _ (List.getElem_mem left)).trans (lookup_bound lookup')
  obtain ⟨bound, renamed⟩ := kept _ before
  rw [List.getElem_map]
  exact (termAt_injective topological' distinct' before' bound).mp (same.trans renamed.symm)

/-- Graphs of distinct nodes with the same trees differ in their numbering
only. -/
theorem renaming_exists (topological : Topological nodes) (topological' : Topological nodes')
    (distinct : Distinct label nodes) (distinct' : Distinct label nodes')
    (same : trees label nodes = trees label nodes') :
    ∃ rename, Renaming label nodes nodes' rename ∧
      ∀ i < nodes.length, termAt label nodes' (rename i) = termAt label nodes i := by
  have partner (i : Nat) : ∃ j, i < nodes.length → j < nodes'.length ∧
      termAt label nodes' j = termAt label nodes i := by
    by_cases inside : i < nodes.length
    · obtain ⟨term, known⟩ := (termAt_exists_iff label topological).mpr inside
      obtain ⟨j, found⟩ : term ∈ trees label nodes' := same ▸ ⟨i, known⟩
      exact ⟨j, fun _ => ⟨(termAt_exists_iff label topological').mp ⟨term, found⟩,
        found.trans known.symm⟩⟩
    · exact ⟨0, fun inside' => absurd inside' inside⟩
  choose rename kept using partner
  refine ⟨rename, ⟨⟨?_, ?_, ?_⟩, ?_⟩, fun i inside => (kept i inside).2⟩
  · intro i inside
    exact (kept i inside).1
  · intro i inside j inside' equal
    have agree := (kept i inside).2.symm.trans (equal ▸ (kept j inside').2)
    exact (termAt_injective topological distinct inside inside').mp agree
  · intro j inside
    obtain ⟨term, known⟩ := (termAt_exists_iff label topological').mpr inside
    obtain ⟨i, found⟩ : term ∈ trees label nodes := same ▸ ⟨j, known⟩
    have bound := (termAt_exists_iff label topological).mp ⟨term, found⟩
    obtain ⟨before, agree⟩ := kept i bound
    refine ⟨i, bound, (termAt_injective topological' distinct' before inside).mp ?_⟩
    exact (agree.trans found).trans known.symm
  · intro i node lookup
    obtain ⟨node', lookup'⟩ := lookup_exists (kept i (lookup_bound lookup)).1
    exact ⟨node', lookup', same_tree topological topological' distinct' kept lookup lookup'⟩

end Dag
