import GraphedCore.Meaning

/-!
# Extraction is safe for any partition

The quotient loop trusts the partition with nothing. The first member of a class
reads nodes before it, whose classes have therefore begun, so every class that is
looked up was emitted, even when a class holds a node together with what that node
is computed from.

The flags of the loaded nodes are not read: an emitted node has the flag of its
token. The loop is therefore the same on the graph whose flags are the tokens'.
-/

namespace GraphedCore

open Dag Wired

universe u

/-- No earlier node is of its class. Only first members are emitted. -/
def FirstMember (cls : Nat → Nat) (i : Nat) : Prop := ∀ j < i, cls j ≠ cls i

/-- What extraction makes of a graph under an assignment of classes. A class has
one node, `new` says which, and nodes come in the order in which classes begin.
The node of a class is that of its first member, over the classes it reads, which
were emitted before it. -/
structure Extraction (cls : Nat → Nat) (graph result : EngineGraph) (new : Nat → Nat) :
    Prop where
  merged : ∀ i < graph.nodes.length, ∀ j < graph.nodes.length, new i = new j ↔ cls i = cls j
  covers : ∀ k, k < result.nodes.length ↔ ∃ i < graph.nodes.length, new i = k
  sorted : ∀ i j, FirstMember cls i → FirstMember cls j → i < j → new i < new j
  emitted : ∀ i node, graph.nodes[i]? = some node → FirstMember cls i →
    result.nodes[new i]? =
      some ⟨node.token, boundaryFromToken node.token, node.inputs.map new⟩
  earlier : Topological result.nodes
  outputs : result.outputs = graph.outputs.map new

/-- The node with the flag that the token tells. -/
def EngineNode.flagged (node : EngineNode) : EngineNode :=
  { node with boundary := boundaryFromToken node.token }

/-- The graph with boundaries read off the tokens, as the engine rebuilds them. -/
def EngineGraph.flagged (graph : EngineGraph) : EngineGraph :=
  { graph with nodes := graph.nodes.map EngineNode.flagged }

namespace EngineGraph

variable {graph : EngineGraph}

/-- Flagging keeps the nodes in their places. -/
theorem flagged_length (graph : EngineGraph) : graph.flagged.nodes.length = graph.nodes.length :=
  List.length_map _

/-- A flagged node is the node flagged. -/
theorem flagged_getElem? (graph : EngineGraph) (i : Nat) :
    graph.flagged.nodes[i]? = graph.nodes[i]?.map EngineNode.flagged :=
  List.getElem?_map

/-- A flagged graph is well formed whatever the flags were before. -/
theorem Ordered.flagged (ordered : graph.Ordered) : graph.flagged.WellFormed where
  earlier i node lookup x member := by
    rw [flagged_getElem?, Option.map_eq_some_iff] at lookup
    obtain ⟨source, found, rfl⟩ := lookup
    exact ordered.earlier i source found x member
  inside o member := by
    rw [flagged_length]
    exact ordered.inside o member
  kinds node member := by
    obtain ⟨source, _, rfl⟩ := List.mem_map.mp member
    rfl

/-- Nor are the flags evaluated. -/
theorem flagged_valuation {V : Type u} {interp : String → List V → V} {vals : List V}
    (valuation : Valuation (EngineNode.apply interp) graph.nodes vals) :
    Valuation (EngineNode.apply interp) graph.flagged.nodes vals := by
  refine ⟨valuation.length.trans graph.flagged_length.symm, fun i node lookup => ?_⟩
  rw [flagged_getElem?, Option.map_eq_some_iff] at lookup
  obtain ⟨source, found, rfl⟩ := lookup
  exact valuation.value i source found

end EngineGraph

namespace EggEngine

variable {find : EngineGraph → Nat → Nat} {graph : EngineGraph}

/-- Loading and extraction read no flag. -/
theorem canonicalize_flagged (find : EngineGraph → Nat → Nat) (graph : EngineGraph) :
    canonicalize find graph = canonicalize (fun _ => find graph) graph.flagged := by
  simp only [canonicalize, EngineGraph.flagged, Enumerate.scan_map, List.length_map]
  rfl

/-- The leader of a class is the node that the extraction meets first. -/
theorem isLeader_iff (i : Nat) :
    IsLeader (kernel find graph) i ↔ FirstMember (find graph) i := by
  have equivalence := kernel_equivalence find graph
  constructor
  · intro leads j before same
    have le : leader (kernel find graph) i ≤ j := leader_le_of_related same
    rw [leads.leader_eq] at le
    exact Nat.not_lt_of_ge le before
  · intro first
    by_contra follows
    obtain ⟨before, _, related⟩ := leader_of_follower equivalence follows
    exact first _ before related

/-- For every graph in topological order and every assignment of classes,
extraction fails at no lookup and gives every class the node of its first member.
Under an interpretation that gives the members of each class one value, that node
has it. -/
theorem extraction_safe (find : EngineGraph → Nat → Nat) (ordered : graph.Ordered) :
    ∃ result new, canonicalize find graph = some result ∧
      Extraction (find graph) graph result new ∧
      ∀ {V : Type u} (interp : String → List V → V) (vals : List V),
        Dag.eval (EngineNode.apply interp) graph.nodes = some vals →
        (∀ i < graph.nodes.length, ∀ j < graph.nodes.length, find graph i = find graph j →
          vals[i]? = vals[j]?) →
        ∃ values, Dag.eval (EngineNode.apply interp) result.nodes = some values ∧
          ∀ i < graph.nodes.length, values[new i]? = vals[i]? := by
  have wellFormed := ordered.flagged
  have equivalence := kernel_equivalence find graph
  have length := graph.flagged_length
  have quotiented : (graph.flagged.quotient (kernel find graph)).WellFormed :=
    wellFormed.quotient equivalence
  refine ⟨graph.flagged.quotient (kernel find graph), place (kernel find graph), ?_, ?_, ?_⟩
  · rw [canonicalize_flagged]
    exact canonicalize_eq (fun _ => find graph) wellFormed
  · refine ⟨fun i _ j _ => place_eq_iff equivalence, fun k => ?_, fun i j first second less => ?_,
      fun i node lookup first => ?_, quotiented.earlier, rfl⟩
    · constructor
      · intro inside
        obtain ⟨i, before, position⟩ := place_surjective inside
        exact ⟨i, length ▸ before, position⟩
      · rintro ⟨i, inside, rfl⟩
        rw [EngineGraph.quotient, quotient_length, length]
        exact place_lt equivalence inside
    · have leads := (isLeader_iff i).mpr first
      rw [place_of_leader leads, place_of_leader ((isLeader_iff j).mpr second)]
      exact number_lt leads less
    · have leads := (isLeader_iff i).mpr first
      have found : graph.flagged.nodes[leader (kernel find graph) i]? = some node.flagged := by
        rw [leads.leader_eq, graph.flagged_getElem?, lookup]
        rfl
      exact quotient_stored equivalence found
  · intro V interp vals evaluated faithful
    have valuation := EngineGraph.flagged_valuation
      ((eval_eq_some_iff _ _ ordered.earlier vals).mp evaluated)
    obtain ⟨kept, same⟩ := quotient_valuation equivalence wellFormed valuation
      (fun i j inside inside' => faithful i (length ▸ inside) j (length ▸ inside'))
    exact ⟨_, (eval_eq_some_iff _ _ quotiented.earlier _).mpr kept,
      fun i inside => same i (length.symm ▸ inside)⟩

/-- An identity op in one class with its own input, and an op that reads it. -/
def identityGraph : EngineGraph :=
  ⟨[⟨"src|x", true, []⟩, ⟨"op|mul|scalar=f3ff0000000000000;side=sr", false, [0]⟩,
    ⟨"op|pt", false, [1]⟩], [1, 2]⟩

/-- An identity op has the value of its input. Other operators give a number that
depends on their token and arity. -/
def passing (token : String) (args : List Nat) : Nat :=
  if token ∈ identityTokens then args.headD 0 else token.length + args.length

/-- An identity op that an engine put into the class of its input, and an op that
reads it. -/
theorem extraction_safe_of_identity :
    ∃ result new, canonicalize (fun _ i => i / 2) identityGraph = some result ∧
      Extraction (fun i => i / 2) identityGraph result new ∧
      ∃ values, Dag.eval (EngineNode.apply passing) result.nodes = some values ∧
        values[new 1]? = some 5 := by
  have ordered : identityGraph.Ordered := ⟨by decide, by decide⟩
  obtain ⟨result, new, done, extraction, kept⟩ :=
    extraction_safe.{0} (fun _ i => i / 2) ordered
  have evaluated : Dag.eval (EngineNode.apply passing) identityGraph.nodes = some [5, 5, 6] := by
    decide +kernel
  obtain ⟨values, again, same⟩ := kept passing [5, 5, 6] evaluated (by decide)
  exact ⟨result, new, done, extraction, values, again, same 1 (by decide)⟩

end EggEngine

end GraphedCore
