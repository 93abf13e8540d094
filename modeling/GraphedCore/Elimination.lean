import GraphedCore.DeadCode
import GraphedCore.Lib.Embedding
import GraphedCore.Lib.Term

/-!
# Dead-code elimination is exact

The pass keeps the nodes that the outputs reach, in their order, and every kept node
unfolds to the tree it unfolded to. Nothing else of the arena shows in the result:
on its own result the pass changes nothing, and nodes put between the others, which
the outputs do not reach, leave no trace but the shift of the ids.
-/

namespace GraphedCore

open Dag Wired

/-- A key with its inputs forgotten, which is the label of a node. -/
def NodeKey.bare (key : NodeKey) : NodeKey := key.withInputs []

/-- What is left of an arena, where `new` is the id that a reached node is given:
all reached nodes, in their order, over the new ids of their inputs. -/
structure Eliminated (nodes : List NodeKey) (outputs : List NodeId) (kept : List NodeKey)
    (outs : List NodeId) (new : NodeId → NodeId) : Prop where
  covers : ∀ k, k < kept.length ↔ ∃ i, Reaches nodes outputs i ∧ new i = k
  sorted : ∀ i j, Reaches nodes outputs i → Reaches nodes outputs j → i < j → new i < new j
  copied : ∀ i node, Reaches nodes outputs i → nodes[i]? = some node →
    kept[new i]? = some (node.withInputs (node.inputs.map new))
  requested : outs = outputs.map new
  earlier : Topological kept
  terms : ∀ i, Reaches nodes outputs i → i < nodes.length ∧
    termAt NodeKey.bare kept (new i) = termAt NodeKey.bare nodes i

section Elimination

variable {nodes : List NodeKey} {outputs : List NodeId}

/-- Renumbering the nodes that the outputs reach keeps exactly these, in order and
reading what they read. -/
theorem compact_eliminated (topological : Topological nodes)
    (inside : ∀ o ∈ outputs, o < nodes.length) :
    Eliminated nodes outputs (compact (Reaches nodes outputs) id nodes)
      (outputs.map (number (Reaches nodes outputs))) (number (Reaches nodes outputs)) := by
  have closed := reaches_closed topological outputs
  have copied (i : Nat) (node : NodeKey) (reached : Reaches nodes outputs i)
      (lookup : nodes[i]? = some node) :
      (compact (Reaches nodes outputs) id nodes)[number (Reaches nodes outputs) i]? =
        some (rewire (number (Reaches nodes outputs)) node) := by
    have kept := compact_getElem? id nodes reached
    rw [lookup] at kept
    exact kept
  refine ⟨fun k => ?_, fun i j first _ less => number_lt first less, copied, rfl,
    compact_topological closed, fun i reached => ?_⟩
  · constructor
    · intro before
      obtain ⟨i, reached, _, position⟩ := compact_surjective before
      exact ⟨i, reached, position⟩
    · rintro ⟨i, reached, rfl⟩
      rw [compact_length]
      exact number_lt reached (reached.bound topological inside)
  · refine ⟨reached.bound topological inside, ?_⟩
    refine termAt_agree (R := fun k j => Reaches nodes outputs j ∧
      k = number (Reaches nodes outputs) j) (compact_topological closed) topological ?_ i
      ⟨reached, rfl⟩
    rintro _ j ⟨reached, rfl⟩
    obtain ⟨node, lookup⟩ := lookup_exists (reached.bound topological inside)
    refine ⟨_, node, copied j node reached lookup, lookup, NodeKey.withInputs_withInputs _ _ _, ?_⟩
    rw [inputs_rewire, List.forall₂_map_left_iff, List.forall₂_same]
    exact fun x member => ⟨reached.input lookup member, rfl⟩

/-- Where everything is reached nothing is dropped. -/
theorem deadCodeElimination_alive (topological : Topological nodes)
    (inside : ∀ o ∈ outputs, o < nodes.length)
    (alive : ∀ i < nodes.length, Reaches nodes outputs i) :
    deadCodeElimination nodes outputs = some (nodes, outputs) := by
  rw [deadCodeElimination_eq topological inside, compact_all nodes topological alive,
    map_number_all alive inside]

/-- On an arena whose inputs are earlier ids, with outputs in range, the pass
succeeds: exactly the reached nodes are kept, in order and over renamed inputs,
and unfold as before. Its result is its own result, and the result of every arena
that the nodes are embedded in. -/
theorem deadCodeElimination_exact (topological : Topological nodes)
    (inside : ∀ o ∈ outputs, o < nodes.length) :
    ∃ kept outs new, deadCodeElimination nodes outputs = some (kept, outs) ∧
      Eliminated nodes outputs kept outs new ∧
      deadCodeElimination kept outs = some (kept, outs) ∧
      ∀ more shift, Topological more → Embedded nodes more shift →
        deadCodeElimination more (outputs.map shift) = some (kept, outs) := by
  have eliminated := compact_eliminated topological inside
  refine ⟨_, _, _, deadCodeElimination_eq topological inside, eliminated, ?_, ?_⟩
  · refine deadCodeElimination_alive eliminated.earlier ?_ (fun k before => ?_)
    · intro o member
      obtain ⟨old, present, rfl⟩ := List.mem_map.mp member
      exact (eliminated.covers _).mpr ⟨old, .root present, rfl⟩
    · obtain ⟨i, reached, rfl⟩ := (eliminated.covers k).mp before
      exact compact_reaches reached
  · intro more shift topological' embedded
    have inside' : ∀ o ∈ outputs.map shift, o < more.length := by
      intro o member
      obtain ⟨old, present, rfl⟩ := List.mem_map.mp member
      obtain ⟨node, found⟩ := lookup_exists (inside old present)
      exact lookup_bound (embedded.copied old node found)
    obtain ⟨same, numbers⟩ := embedded.compact_eq topological inside
    rw [deadCodeElimination_eq topological' inside', same, numbers]

/-- A dead source before a source and an op. The op is what is asked for. -/
def deadArena : List NodeKey :=
  [.source "unused" (.new []), .source "x" (.new []), .op "pt" (.new []) [1]]

/-- The same with a dead op of the dead source in between, which shifts the ids of
the others. -/
def deadArenaMore : List NodeKey :=
  [.source "unused" (.new []), .op "eta" (.new []) [0], .source "x" (.new []),
    .op "pt" (.new []) [2]]

/-- A dead node is dropped, a second run changes nothing, and a dead node more
makes no difference. -/
theorem deadCodeElimination_exact_of_unused :
    ∃ kept outs, deadCodeElimination deadArena [2, 2] = some (kept, outs) ∧
      deadCodeElimination kept outs = some (kept, outs) ∧
      deadCodeElimination deadArenaMore [3, 3] = some (kept, outs) := by
  have copies : ∀ i < deadArena.length, deadArenaMore[if i = 0 then 0 else i + 1]? =
      deadArena[i]?.map (rewire (fun i => if i = 0 then 0 else i + 1)) := by decide
  have embedded : Embedded deadArena deadArenaMore (fun i => if i = 0 then 0 else i + 1) := by
    refine ⟨fun i j less inside => ?_, fun i node lookup => ?_⟩
    · split <;> split <;> omega
    · rw [copies i (lookup_bound lookup), lookup]
      rfl
  obtain ⟨kept, outs, new, done, _, again, blind⟩ :=
    @deadCodeElimination_exact deadArena [2, 2] (by decide) (by decide)
  exact ⟨kept, outs, done, again, blind deadArenaMore _ (by decide) embedded⟩

end Elimination

end GraphedCore
