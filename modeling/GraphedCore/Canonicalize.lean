import GraphedCore.Engine
import GraphedCore.Lib.HashCons

/-!
# Engine graphs and their quotient

Loading a graph and extracting it again computes the quotient by the partition
the e-graph reports, whatever that partition is: the earliest node of every class
survives, over the classes it reads.

What is assumed of the e-graph library is stated here, in three strengths. A
sound partition relates only nodes that the rules relate. A generated partition
is the congruence closure of the rule instances that were applied before the
runner stopped. A saturated partition is the closure of all of them.
-/

namespace GraphedCore

open Dag Wired

instance : Wired EngineNode where
  inputs := EngineNode.inputs
  rewire f node := { node with inputs := node.inputs.map f }
  inputs_rewire _ _ := rfl
  rewire_congr f g node same := by rw [List.map_congr_left same]
  rewire_rewire f g node := by rw [List.map_map]
  rewire_id node := by rw [List.map_id]

/-- What a loaded node reads. -/
@[simp] theorem EngineNode.wired_inputs (node : EngineNode) : Wired.inputs node = node.inputs := rfl

/-- Rewiring changes the inputs of a loaded node and nothing else. -/
@[simp] theorem EngineNode.token_rewire (f : Nat → Nat) (node : EngineNode) :
    (rewire f node).token = node.token := rfl

/-- Inputs earlier, outputs in range, and the flag the token tells. It is so for
every graph that is loaded from keys. -/
structure EngineGraph.WellFormed (graph : EngineGraph) : Prop where
  earlier : Topological graph.nodes
  inside : ∀ o ∈ graph.outputs, o < graph.nodes.length
  kinds : ∀ node ∈ graph.nodes, node.boundary = boundaryFromToken node.token

/-- Inputs earlier and outputs in range, whatever the flags are. Extraction asks
for no more. -/
structure EngineGraph.Ordered (graph : EngineGraph) : Prop where
  earlier : Topological graph.nodes
  inside : ∀ o ∈ graph.outputs, o < graph.nodes.length

/-- The inputs of a well-formed graph come earlier, and its outputs are nodes. -/
theorem EngineGraph.WellFormed.ordered {graph : EngineGraph} (wellFormed : graph.WellFormed) :
    graph.Ordered :=
  ⟨wellFormed.earlier, wellFormed.inside⟩

/-- The rewrite rules of the engine, read off the tokens: commuting ones by name,
identities by the whole token. -/
def engineRules : Rules EngineNode String where
  label := EngineNode.token
  commutes token := token ∈ symmetricOps.map (fun name => "op|" ++ name)
  drops token := token ∈ identityTokens
  label_rewire _ _ := rfl

/-- The partition relates only what the rules relate. It is what the engine is
trusted for; saturation is not needed for meaning. -/
def EggSound (find : EngineGraph → Nat → Nat) : Prop :=
  ∀ graph : EngineGraph, graph.WellFormed → ∀ i j, i < graph.nodes.length →
    j < graph.nodes.length → find graph i = find graph j → Least engineRules graph.nodes i j

/-- The partition is the congruence generated by the rule instances that were
applied. -/
def EggGenerated (find : EngineGraph → Nat → Nat)
    (fired : EngineGraph → Nat → Nat → Prop) : Prop :=
  ∀ graph : EngineGraph, graph.WellFormed → ∀ i j, i < graph.nodes.length →
    j < graph.nodes.length →
    (find graph i = find graph j ↔ Cong engineRules (fired graph) graph.nodes i j)

/-- The partition is the least congruence closed under the rules, as after a run
that was not cut short. -/
def EggSaturates (find : EngineGraph → Nat → Nat) : Prop :=
  EggGenerated find (fun _ _ _ => True)

/-- An engine that merges what instances of its rules generate merges no more than
the rules allow. -/
theorem EggGenerated.sound {find : EngineGraph → Nat → Nat}
    {fired : EngineGraph → Nat → Nat → Prop} (generated : EggGenerated find fired) :
    EggSound find :=
  fun graph wellFormed i j inside inside' same =>
    ((generated graph wellFormed i j inside inside').mp same).least

/-- The partition `find` reports for a graph, as a relation between its nodes. -/
def kernel (find : EngineGraph → Nat → Nat) (graph : EngineGraph) (i j : Nat) : Prop :=
  find graph i = find graph j

/-- Having one class is an equivalence, whatever assigns the classes. -/
theorem kernel_equivalence (find : EngineGraph → Nat → Nat) (graph : EngineGraph) :
    Equivalence (kernel find graph) :=
  ⟨fun _ => rfl, fun same => same.symm, fun first second => first.trans second⟩

/-- The classes of the least congruence, named by their first members: a library
that saturates. -/
noncomputable def saturatedFind (graph : EngineGraph) : Nat → Nat :=
  leader (Least engineRules graph.nodes)

/-- The reference engine, which merges all that the rules allow, saturates. So the
assumption on engines can be met. -/
theorem saturatedFind_saturates : EggSaturates saturatedFind :=
  fun _ _ _ _ _ _ => leader_eq_iff least_equivalence

/-- The quotient of a graph by a relation, outputs included. Classes come in the
order of their first members. -/
noncomputable def EngineGraph.quotient (r : Nat → Nat → Prop) (graph : EngineGraph) :
    EngineGraph :=
  ⟨Dag.quotient r graph.nodes, graph.outputs.map (place r)⟩

/-- Every node of a quotient is a node of the graph, read through the classes. -/
theorem quotient_mem {ν : Type} [Wired ν] {r : Nat → Nat → Prop} {nodes : List ν} {node : ν}
    (member : node ∈ Dag.quotient r nodes) :
    ∃ source ∈ nodes, node = rewire (place r) source := by
  obtain ⟨source, picked, rfl⟩ := List.mem_map.mp member
  obtain ⟨k, lookup⟩ := List.mem_iff_getElem?.mp picked
  obtain ⟨i, _, found, _⟩ := (pick_getElem?_iff _ _ _ _).mp lookup
  exact ⟨source, List.mem_of_getElem? found, rfl⟩

/-- The place of a class lies in the quotient of every part that holds a member of
it. -/
theorem place_lt {r : Nat → Nat → Prop} (equivalence : Equivalence r) {i n : Nat}
    (inside : i < n) : place r i < number (IsLeader r) n :=
  number_lt (leader_isLeader equivalence i) ((leader_le equivalence i).trans_lt inside)

/-- A quotient reads earlier places only, since the first member of a class reads
the first members of its inputs' classes. -/
theorem EngineGraph.Ordered.quotient {graph : EngineGraph} (ordered : graph.Ordered)
    {r : Nat → Nat → Prop} (equivalence : Equivalence r) : (graph.quotient r).Ordered where
  earlier := compact_topological (quotient_closed equivalence ordered.earlier)
  inside o member := by
    obtain ⟨old, present, rfl⟩ := List.mem_map.mp member
    rw [EngineGraph.quotient, quotient_length]
    exact place_lt equivalence (ordered.inside old present)

/-- A quotient is well formed: a first member reads nodes before it, so their
first members come before it too. -/
theorem EngineGraph.WellFormed.quotient {graph : EngineGraph} (wellFormed : graph.WellFormed)
    {r : Nat → Nat → Prop} (equivalence : Equivalence r) : (graph.quotient r).WellFormed where
  earlier := (wellFormed.ordered.quotient equivalence).earlier
  inside := (wellFormed.ordered.quotient equivalence).inside
  kinds node member := by
    obtain ⟨source, present, rfl⟩ := quotient_mem member
    exact wellFormed.kinds source present

/-- Nothing is merged by a relation that relates nothing, and the graph stays as
it is. -/
theorem EngineGraph.Ordered.quotient_discrete {graph : EngineGraph}
    (ordered : graph.Ordered) {r : Nat → Nat → Prop} (equivalence : Equivalence r)
    (discrete : Discrete r graph.nodes.length) : graph.quotient r = graph := by
  have outs : graph.outputs.map (place r) = graph.outputs := by
    conv_rhs => rw [← List.map_id graph.outputs]
    exact List.map_congr_left (fun o member =>
      discrete.place equivalence (ordered.inside o member))
  rw [EngineGraph.quotient, discrete.quotient equivalence ordered.earlier, outs]

namespace EggEngine

variable {find : EngineGraph → Nat → Nat} {graph : EngineGraph}

/-- The first node of a class, as the extraction searches for it, is the leader of
the class. -/
theorem find?_leader (find : EngineGraph → Nat → Nat) (graph : EngineGraph) {i n : Nat}
    (inside : i < n) :
    (List.range n).find? (fun j => find graph j == find graph i) =
      some (leader (kernel find graph) i) := by
  have equivalence := kernel_equivalence find graph
  rw [List.find?_range_eq_some]
  refine ⟨?_, List.mem_range.mpr ((leader_le equivalence i).trans_lt inside), ?_⟩
  · simpa [kernel] using leader_related equivalence i
  · intro j before
    by_contra same
    have related : kernel find graph j i := by simpa [kernel] using same
    exact Nat.not_lt_of_ge (leader_le_of_related related) before

/-- Loading the nodes into the engine finds every input among the nodes that were
loaded before. -/
theorem load_complete (earlier : Topological graph.nodes) :
    ∃ final, Enumerate.scan loadStep graph.nodes () = some final ∧ True :=
  Enumerate.scan_complete loadStep (fun _ _ => True) graph.nodes () True.intro
    (fun index node _ lookup _ => by
      refine ⟨(), ?_, True.intro⟩
      rw [loadStep, if_pos]
      simpa using earlier index node lookup)

/-- The representative of a class is its first member, since only the first
insertion counts. -/
theorem rep_complete (find : EngineGraph → Nat → Nat) (graph : EngineGraph) :
    ∃ rep, Enumerate.scan repStep ((List.range graph.nodes.length).map (find graph)) [] = some rep ∧
      ∀ cls, Table.get? (· == ·) rep cls =
        (List.range graph.nodes.length).find? (fun j => find graph j == cls) := by
  have loop := Enumerate.scan_complete repStep
    (fun index rep => ∀ cls, Table.get? (· == ·) rep cls =
      (List.range index).find? (fun j => find graph j == cls))
    ((List.range graph.nodes.length).map (find graph)) [] (by simp)
    (fun index cls rep lookup inv => by
      have here : cls = find graph index := by
        rw [List.getElem?_map, Option.map_eq_some_iff] at lookup
        obtain ⟨position, found, rfl⟩ := lookup
        rw [(List.getElem?_eq_some_iff.mp found).2.symm, List.getElem_range]
      refine ⟨_, rfl, fun other => ?_⟩
      rw [Table.get?_orInsert Table.compares_beq, inv, List.range_succ, List.find?_append, here]
      by_cases same : find graph index = other <;> simp [same])
  simpa using loop

/-- Extraction so far: the classes that have begun are emitted at their places, as
their first members over those of their inputs. -/
structure Extracted (find : EngineGraph → Nat → Nat) (graph : EngineGraph) (index : Nat)
    (state : List (Nat × Nat) × List EngineNode) : Prop where
  emitted : ∀ i, leader (kernel find graph) i < index →
    Table.get? (· == ·) state.1 (find graph i) = some (place (kernel find graph) i)
  nodes : state.2 = Dag.quotient (kernel find graph) (graph.nodes.take index)

/-- One node of the extraction. A node that is not the first of its class takes
the place of the first, and a first one is appended with its inputs read through
the places so far. -/
theorem Extracted.step {rep : List (Nat × Nat)} {index : Nat} {node : EngineNode}
    {state : List (Nat × Nat) × List EngineNode} (wellFormed : graph.WellFormed)
    (reps : ∀ cls, Table.get? (· == ·) rep cls =
      (List.range graph.nodes.length).find? (fun j => find graph j == cls))
    (lookup : graph.nodes[index]? = some node) (extracted : Extracted find graph index state) :
    ∃ next, extractStep ((List.range graph.nodes.length).map (find graph)) rep state index node =
        some next ∧ Extracted find graph (index + 1) next := by
  have equivalence := kernel_equivalence find graph
  have bound := lookup_bound lookup
  have canon {i : Nat} (inside : i < graph.nodes.length) :
      ((List.range graph.nodes.length).map (find graph))[i]? = some (find graph i) := by
    simp [inside]
  have first : Table.get? (· == ·) rep (find graph index) =
      some (leader (kernel find graph) index) := by
    rw [reps, find?_leader find graph bound]
  by_cases leads : IsLeader (kernel find graph) index
  · have reads : node.inputs.mapM (fun j =>
        (((List.range graph.nodes.length).map (find graph))[j]?).bind
          (fun child => Table.get? (· == ·) state.1 child)) =
        some (node.inputs.map (place (kernel find graph))) := by
      apply Enumerate.mapM_complete
      intro x member
      have earlier := wellFormed.earlier index node lookup x member
      rw [canon (earlier.trans bound), Option.bind_some]
      exact extracted.emitted x ((leader_le equivalence x).trans_lt earlier)
    have position : place (kernel find graph) index = state.2.length :=
      extracted.nodes ▸ place_fresh bound leads
    refine ⟨((find graph index, state.2.length) :: state.1, state.2 ++
      [rewire (place (kernel find graph)) node]), ?_, ?_, ?_⟩
    · have kind := wellFormed.kinds node (List.mem_of_getElem? lookup)
      simp only [extractStep, canon bound, first, Option.bind_eq_bind, Option.bind_some, reads,
        leads.leader_eq, ne_eq, not_true, if_false]
      rw [← kind]
      rfl
    · intro i begun
      rw [Table.get?_cons]
      by_cases same : find graph index = find graph i
      · have places := (place_eq_iff equivalence (i := index) (j := i)).mpr same
        simp [same, ← places, position]
      · have earlier : leader (kernel find graph) i < index := by
          refine lt_of_le_of_ne (Nat.lt_succ_iff.mp begun) (fun here => same ?_)
          have related := leader_related equivalence i
          rwa [here] at related
        simpa [same] using extracted.emitted i earlier
    · rw [quotient_take_leader lookup leads, extracted.nodes]
  · refine ⟨state, ?_, ?_, ?_⟩
    · simp only [extractStep, canon bound, first, Option.bind_eq_bind, Option.bind_some]
      rw [if_pos (show leader (kernel find graph) index ≠ index from leads)]
    · intro i begun
      refine extracted.emitted i (lt_of_le_of_ne (Nat.lt_succ_iff.mp begun) (fun here => leads ?_))
      exact here ▸ leader_isLeader equivalence i
    · rw [quotient_take_follower lookup leads, extracted.nodes]

/-- Loading and extraction compute the quotient by the reported partition. No
lookup fails on a well-formed graph. -/
theorem canonicalize_eq (find : EngineGraph → Nat → Nat) {graph : EngineGraph}
    (wellFormed : graph.WellFormed) :
    canonicalize find graph = some (graph.quotient (kernel find graph)) := by
  obtain ⟨_, loaded, _⟩ := load_complete wellFormed.earlier
  obtain ⟨rep, represented, reps⟩ := rep_complete find graph
  obtain ⟨state, ran, extracted⟩ := Enumerate.scan_complete
    (extractStep ((List.range graph.nodes.length).map (find graph)) rep)
    (Extracted find graph) graph.nodes ([], [])
    ⟨fun i begun => absurd begun (Nat.not_lt_zero _), by simp [Dag.quotient, compact, pick_nil]⟩
    (fun index node state lookup extracted => extracted.step wellFormed reps lookup)
  have outs : graph.outputs.mapM (fun o =>
      (((List.range graph.nodes.length).map (find graph))[o]?).bind
        (fun cls => Table.get? (· == ·) state.1 cls)) =
      some (graph.outputs.map (place (kernel find graph))) := by
    apply Enumerate.mapM_complete
    intro o member
    have inside := wellFormed.inside o member
    simp only [List.getElem?_map, List.getElem?_range inside, Option.map_some, Option.bind_some]
    exact extracted.emitted o ((leader_le (kernel_equivalence find graph) o).trans_lt inside)
  have nodes : state.2 = Dag.quotient (kernel find graph) graph.nodes := by
    rw [extracted.nodes, List.take_length]
  simp only [canonicalize, loaded, represented, ran, outs, nodes, Option.bind_eq_bind,
    Option.bind_some, EngineGraph.quotient]

/-- Nodes of different tokens, none of them an identity op, are not merged,
whichever rule instances are applied. -/
theorem cong_different {fired : Nat → Nat → Prop} {nodes : List EngineNode}
    (different : (nodes.map EngineNode.token).Nodup)
    (undropped : ∀ node ∈ nodes, node.token ∉ identityTokens) {i j : Nat}
    (related : Cong engineRules fired nodes i j) : i = j := by
  refine cong_discrete ?_ ?_ ?_ related
  · intro i _ node lookup drops
    exact absurd drops (undropped node (List.mem_of_getElem? lookup))
  · intro i j node other first second labels _
    exact label_injective different first second labels
  · intro i j node other first second labels _
    exact label_injective different first second labels

/-- Nodes of different tokens, none of them an identity op, are left as they
are. -/
theorem canonicalize_different {fired : EngineGraph → Nat → Nat → Prop}
    (generated : EggGenerated find fired) (wellFormed : graph.WellFormed)
    (different : (graph.nodes.map EngineNode.token).Nodup)
    (undropped : ∀ node ∈ graph.nodes, node.token ∉ identityTokens) :
    canonicalize find graph = some graph := by
  have discrete : Discrete (kernel find graph) graph.nodes.length :=
    fun i j inside inside' same => cong_different different undropped
      ((generated graph wellFormed i j inside inside').mp same)
  rw [canonicalize_eq find wellFormed,
    wellFormed.ordered.quotient_discrete (kernel_equivalence find graph) discrete]

end EggEngine

end GraphedCore
