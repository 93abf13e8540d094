import GraphedCore.DeadCode
import GraphedCore.Cse
import GraphedCore.Stages
import GraphedCore.Tokens

/-!
# The reduction pipeline as quotients

On an arena whose inputs come earlier the pipeline never panics, whatever
partition the engine reports. The live nodes are loaded, quotiented by the
partition, quotiented again by congruence of tokens, and fused.
-/

namespace GraphedCore

open Dag Wired StageFusion

/-- Rewiring a key is rewiring what is loaded for it. -/
theorem toEngineNode_rewire (f : Nat → Nat) (key : NodeKey) :
    toEngineNode (rewire f key) = rewire f (toEngineNode key) := by
  have inputs : (rewire f key).inputs = key.inputs.map f := inputs_rewire f key
  simp only [toEngineNode, inputs, NodeKey.token_rewire]
  simp [rewire]

/-- What is loaded reads what the key reads. -/
@[simp] theorem toEngineNode_inputs (key : NodeKey) : (toEngineNode key).inputs = key.inputs := rfl

/-- Loading keeps that inputs come earlier. -/
theorem toEngineNode_topological {keys : List NodeKey} (topological : Topological keys) :
    Topological (keys.map toEngineNode) := by
  intro i node lookup
  rw [List.getElem?_map, Option.map_eq_some_iff] at lookup
  obtain ⟨key, found, rfl⟩ := lookup
  exact topological i key found

/-- A topological arena is loaded as a well-formed graph: tokens tell the
boundaries. -/
theorem toEngineGraph_wellFormed {keys : List NodeKey} {outputs : List Nat}
    (topological : Topological keys) (inside : ∀ o ∈ outputs, o < keys.length) :
    (toEngineGraph keys outputs).WellFormed where
  earlier := toEngineNode_topological topological
  inside := by simpa [toEngineGraph] using inside
  kinds node member := by
    obtain ⟨key, _, rfl⟩ := List.mem_map.mp member
    exact (NodeKey.boundaryFromToken_token key).symm

/-! ## The graphs between the passes -/

/-- The nodes the outputs reach, renumbered in their order. It says what dead-code
elimination computes. -/
noncomputable def live (nodes : List NodeKey) (outputs : List NodeId) : List NodeKey :=
  compact (Reaches nodes outputs) id nodes

/-- What is handed to the engine: the live nodes, renumbered, and the outputs at
their new numbers. -/
noncomputable def liveGraph (nodes : List NodeKey) (outputs : List NodeId) : EngineGraph :=
  toEngineGraph (live nodes outputs) (outputs.map (number (Reaches nodes outputs)))

/-- What the engine answers: the live graph with the nodes of each class merged
into the earliest one. -/
noncomputable def canonicalGraph (find : EngineGraph → Nat → Nat) (nodes : List NodeKey)
    (outputs : List NodeId) : EngineGraph :=
  (liveGraph nodes outputs).quotient (kernel find (liveGraph nodes outputs))

/-- What stage fusion is given: the answer of the engine, with nodes of one token
and congruent inputs merged. -/
noncomputable def dedupedGraph (find : EngineGraph → Nat → Nat) (nodes : List NodeKey)
    (outputs : List NodeId) : EngineGraph :=
  (canonicalGraph find nodes outputs).quotient
    (Least tokenRules (canonicalGraph find nodes outputs).nodes)

variable {find : EngineGraph → Nat → Nat} {nodes : List NodeKey} {outputs : List NodeId}

/-- Live nodes read live nodes before them, since what a live node reads is
live. -/
theorem live_topological (topological : Topological nodes) (outputs : List NodeId) :
    Topological (live nodes outputs) :=
  compact_topological (reaches_closed topological outputs)

/-- As many nodes are live as are reached. -/
theorem live_length (nodes : List NodeKey) (outputs : List NodeId) :
    (live nodes outputs).length = number (Reaches nodes outputs) nodes.length :=
  compact_length _ _ _

/-- A live node sits at its number, with its inputs renumbered and all else as it
was. -/
theorem live_getElem? {i : Nat} {key : NodeKey} (reached : Reaches nodes outputs i)
    (lookup : nodes[i]? = some key) :
    (live nodes outputs)[number (Reaches nodes outputs) i]? =
      some (rewire (number (Reaches nodes outputs)) key) := by
  have kept := compact_getElem? id nodes reached
  rw [lookup] at kept
  exact kept

/-- A live key is a reached key of the arena over the numbers of its inputs. -/
theorem live_source {key : NodeKey} (member : key ∈ live nodes outputs) :
    ∃ i source, Reaches nodes outputs i ∧ nodes[i]? = some source ∧
      key = rewire (number (Reaches nodes outputs)) source := by
  obtain ⟨k, lookup⟩ := List.mem_iff_getElem?.mp member
  obtain ⟨i, source, reached, found, _, rfl⟩ := compact_lookup lookup
  exact ⟨i, source, reached, found, rfl⟩

/-- Every live node is one of the arena, renumbered. -/
theorem live_mem {key : NodeKey} (member : key ∈ live nodes outputs) :
    ∃ source ∈ nodes, key = rewire (number (Reaches nodes outputs)) source := by
  obtain ⟨i, source, _, found, rfl⟩ := live_source member
  exact ⟨source, List.mem_of_getElem? found, rfl⟩

/-- What is handed to the engine is well formed, so its extraction fails at no
lookup. -/
theorem liveGraph_wellFormed (topological : Topological nodes)
    (inside : ∀ o ∈ outputs, o < nodes.length) : (liveGraph nodes outputs).WellFormed := by
  refine toEngineGraph_wellFormed (live_topological topological outputs) ?_
  intro o member
  obtain ⟨old, present, rfl⟩ := List.mem_map.mp member
  rw [live_length]
  exact number_lt (.root present) (inside old present)

/-- What comes back from the engine is well formed, whatever classes it
reports. -/
theorem canonicalGraph_wellFormed (find : EngineGraph → Nat → Nat)
    (topological : Topological nodes) (inside : ∀ o ∈ outputs, o < nodes.length) :
    (canonicalGraph find nodes outputs).WellFormed :=
  (liveGraph_wellFormed topological inside).quotient (kernel_equivalence _ _)

/-- So is what is handed to fusion, whatever classes the engine reported. -/
theorem dedupedGraph_wellFormed (find : EngineGraph → Nat → Nat)
    (topological : Topological nodes) (inside : ∀ o ∈ outputs, o < nodes.length) :
    (dedupedGraph find nodes outputs).WellFormed :=
  (canonicalGraph_wellFormed find topological inside).quotient least_equivalence

/-- The place of a live node between the passes: its number among the live ones,
then that of its class, then that of its tokens. -/
noncomputable def position (find : EngineGraph → Nat → Nat) (nodes : List NodeKey)
    (outputs : List NodeId) (i : NodeId) : Nat :=
  place (Least tokenRules (canonicalGraph find nodes outputs).nodes)
    (place (kernel find (liveGraph nodes outputs)) (number (Reaches nodes outputs) i))

/-- The outputs of the deduplicated graph are the positions of the requested
ones. -/
theorem dedupedGraph_outputs (find : EngineGraph → Nat → Nat) (nodes : List NodeKey)
    (outputs : List NodeId) :
    (dedupedGraph find nodes outputs).outputs = outputs.map (position find nodes outputs) := by
  simp [dedupedGraph, canonicalGraph, liveGraph, toEngineGraph, EngineGraph.quotient, position]

/-- The engine is handed as many nodes as are reached. -/
theorem liveGraph_length (nodes : List NodeKey) (outputs : List NodeId) :
    (liveGraph nodes outputs).nodes.length = number (Reaches nodes outputs) nodes.length := by
  rw [liveGraph, toEngineGraph, List.length_map, live_length]

/-- Merging adds no nodes. -/
theorem dedupedGraph_length_le_live (find : EngineGraph → Nat → Nat) (nodes : List NodeKey)
    (outputs : List NodeId) :
    (dedupedGraph find nodes outputs).nodes.length ≤ (live nodes outputs).length := by
  rw [dedupedGraph, EngineGraph.quotient, quotient_length]
  refine (number_le _ _).trans ?_
  rw [canonicalGraph, EngineGraph.quotient, quotient_length]
  refine (number_le _ _).trans ?_
  rw [liveGraph, toEngineGraph, List.length_map]

/-- A live node is loaded. -/
theorem loaded_lt (topological : Topological nodes) (inside : ∀ o ∈ outputs, o < nodes.length)
    {i : NodeId} (reached : Reaches nodes outputs i) :
    number (Reaches nodes outputs) i < (liveGraph nodes outputs).nodes.length := by
  rw [liveGraph_length]
  exact number_lt reached (reached.bound topological inside)

/-- Every node between the passes is a live key over other inputs. Merging makes
no new operators. -/
theorem dedupedGraph_mem {node : EngineNode}
    (member : node ∈ (dedupedGraph find nodes outputs).nodes) :
    ∃ key ∈ live nodes outputs, node.token = key.token ∧ node.boundary = key.isBoundary ∧
      node.inputs.length = key.inputs.length := by
  obtain ⟨canonical, present, rfl⟩ := quotient_mem member
  obtain ⟨loaded, listed, rfl⟩ := quotient_mem present
  obtain ⟨key, live, rfl⟩ := List.mem_map.mp listed
  exact ⟨key, live, rfl, rfl, by simp [rewire, toEngineNode]⟩

/-- The template of a token is the first key that carries it. Later keys of the
same token are not used. -/
theorem templates_get? (keys : List NodeKey) (token : String) :
    Table.get? (· == ·) (templates keys) token = keys.find? (fun key => key.token == token) := by
  rw [templates, Table.get?_foldl_orInsert Table.compares_beq]
  simp

/-- Every token of the arena has a template, which carries it. So no boundary is
without one. -/
theorem template_exists {keys : List NodeKey} {key : NodeKey} (member : key ∈ keys) :
    ∃ template ∈ keys, Table.get? (· == ·) (templates keys) key.token = some template ∧
      template.token = key.token := by
  rw [templates_get?]
  cases found : keys.find? (fun other => other.token == key.token) with
  | none =>
    have absent := List.find?_eq_none.mp found key member
    simp at absent
  | some template =>
    exact ⟨template, List.mem_of_find?_eq_some found, rfl, by simpa using List.find?_some found⟩

/-- Keys of one token are sources together, so they take the same inputs. -/
theorem inputs_withInputs_of_token {key template : NodeKey} (same : template.token = key.token)
    (ids : List Nat) (arity : ids.length = key.inputs.length) :
    (template.withInputs ids).inputs = ids := by
  have tags := NodeKey.tag_eq same
  cases template with
  | source =>
    cases key <;> simp [NodeKey.tag] at tags
    exact (List.length_eq_zero_iff.mp arity).symm
  | _ => rfl

/-- The template stored for a node between the passes: a live key of its token,
which takes the inputs of the node. -/
theorem dedupedGraph_template {node : EngineNode} {template : NodeKey}
    (member : node ∈ (dedupedGraph find nodes outputs).nodes)
    (stored : Table.get? (· == ·) (templates (live nodes outputs)) node.token = some template) :
    template ∈ live nodes outputs ∧ template.token = node.token ∧
      ∀ ids : List Nat, ids.length = node.inputs.length → (template.withInputs ids).inputs = ids := by
  rw [templates_get?] at stored
  have token : template.token = node.token := by simpa using List.find?_some stored
  obtain ⟨key, _, keyToken, _, arity⟩ := dedupedGraph_mem member
  refine ⟨List.mem_of_find?_eq_some stored, token, fun ids length => ?_⟩
  exact inputs_withInputs_of_token (token.trans keyToken) ids (length.trans arity)

/-- What a node between the passes finds in the template table: a key of its token
that takes its inputs. -/
def Tabled (graph : EngineGraph) (table : List (String × NodeKey)) : Prop :=
  ∀ node ∈ graph.nodes, ∀ template, Table.get? (· == ·) table node.token = some template →
    template.token = node.token ∧
    ∀ ids : List Nat, ids.length = node.inputs.length → (template.withInputs ids).inputs = ids

/-- What the pipeline hands to fusion finds templates of its own tokens, which
take its inputs. -/
theorem dedupedGraph_tabled (find : EngineGraph → Nat → Nat) (nodes : List NodeKey)
    (outputs : List NodeId) :
    Tabled (dedupedGraph find nodes outputs) (templates (live nodes outputs)) :=
  fun _ member _ stored => (dedupedGraph_template member stored).2

/-- The pipeline fuses the deduplicated graph and fills in the report. This is
what all four passes come to, for any partition. -/
theorem reduceWithMode_eq (find : EngineGraph → Nat → Nat) (topological : Topological nodes)
    (inside : ∀ o ∈ outputs, o < nodes.length) (mode : FusionMode) :
    reduceWithMode nodes outputs (EggEngine.canonicalize find) mode =
      (stageFusion (dedupedGraph find nodes outputs) (templates (live nodes outputs)) mode).map
        (fun out => { out with report := { out.report with
          inputNodes := nodes.length
          reachableNodes := (live nodes outputs).length
          canonicalNodes := (dedupedGraph find nodes outputs).nodes.length } }) := by
  have dead := deadCodeElimination_eq topological inside
  have canonical := EggEngine.canonicalize_eq find (liveGraph_wellFormed topological inside)
  have deduped := cse_eq (canonicalGraph_wellFormed find topological inside).ordered
  rw [liveGraph] at canonical
  rw [canonicalGraph, liveGraph] at deduped
  simp only [reduceWithMode, dead, Option.bind_eq_bind, Option.bind_some]
  rw [← live, canonical, Option.bind_some, deduped, Option.bind_some]
  rw [dedupedGraph, canonicalGraph, liveGraph]
  cases stageFusion _ _ mode <;> rfl

/-- The pipeline ends with a fused form of the deduplicated graph, whose stages
read no slot twice. -/
theorem reduceWithMode_slotted (find : EngineGraph → Nat → Nat)
    (topological : Topological nodes) (inside : ∀ o ∈ outputs, o < nodes.length)
    (mode : FusionMode) :
    ∃ reduced comp, reduceWithMode nodes outputs (EggEngine.canonicalize find) mode =
        some reduced ∧
      Fused (dedupedGraph find nodes outputs) (templates (live nodes outputs)) comp reduced ∧
      Slotted (dedupedGraph find nodes outputs) comp (dedupedGraph find nodes outputs).nodes.length
        reduced.nodes := by
  have known : ∀ node ∈ (dedupedGraph find nodes outputs).nodes, node.boundary = true →
      ∃ template, Table.get? (· == ·) (templates (live nodes outputs)) node.token =
        some template := by
    intro node member _
    obtain ⟨key, present, token, _⟩ := dedupedGraph_mem member
    obtain ⟨template, _, stored, _⟩ := template_exists present
    exact ⟨template, by rw [token, stored]⟩
  obtain ⟨out, comp, fused, form, slotted⟩ :=
    stageFusion_slotted (dedupedGraph_wellFormed find topological inside).ordered known mode
  refine ⟨⟨out.nodes, out.outputs, { out.report with
      inputNodes := nodes.length
      reachableNodes := (live nodes outputs).length
      canonicalNodes := (dedupedGraph find nodes outputs).nodes.length }⟩, comp, ?_,
    ⟨form.components, form.length, form.rebuilt, form.outputs⟩, slotted⟩
  rw [reduceWithMode_eq find topological inside, fused]
  rfl

/-- The pipeline does not fail on a topological arena and outputs within it,
whatever classes the engine reports, and what it returns is fused from the
deduplicated graph. -/
theorem reduceWithMode_complete (find : EngineGraph → Nat → Nat)
    (topological : Topological nodes) (inside : ∀ o ∈ outputs, o < nodes.length)
    (mode : FusionMode) :
    ∃ reduced comp, reduceWithMode nodes outputs (EggEngine.canonicalize find) mode =
        some reduced ∧
      Fused (dedupedGraph find nodes outputs) (templates (live nodes outputs)) comp reduced := by
  obtain ⟨reduced, comp, reduces, fused, _⟩ := reduceWithMode_slotted find topological inside mode
  exact ⟨reduced, comp, reduces, fused⟩

/-- The fused node that stands for a live node whose position is an exit. Other
live nodes are inside a stage. -/
noncomputable def representative (find : EngineGraph → Nat → Nat) (nodes : List NodeKey)
    (outputs : List NodeId) (comp : Nat → Nat) (i : NodeId) : Nat :=
  number (Exit (dedupedGraph find nodes outputs) comp) (position find nodes outputs i)

/-- The pipeline returns the representatives of the requested outputs, in
order. -/
theorem fused_outputs {comp : Nat → Nat} {red : Reduced}
    (fused : Fused (dedupedGraph find nodes outputs) (templates (live nodes outputs)) comp red) :
    red.outputs = outputs.map (representative find nodes outputs comp) := by
  rw [fused.outputs, dedupedGraph_outputs, List.map_map]
  rfl

/-- An output leaves its stage, so its value is the stage's. No output is hidden
inside one. -/
theorem position_exit {comp : Nat → Nat} {red : Reduced} (topological : Topological nodes)
    (inside : ∀ o ∈ outputs, o < nodes.length)
    (fused : Fused (dedupedGraph find nodes outputs) (templates (live nodes outputs)) comp red)
    {o : NodeId} (member : o ∈ outputs) :
    Exit (dedupedGraph find nodes outputs) comp (position find nodes outputs o) := by
  refine fused.components.output_exit (dedupedGraph_wellFormed find topological inside).ordered ?_
  rw [dedupedGraph_outputs]
  exact List.mem_map_of_mem member

/-- When the live keys differ in token and none is an identity op, the pipeline
runs as if without an engine. -/
theorem reduceWithMode_of_different {fired : EngineGraph → Nat → Nat → Prop}
    (generated : EggGenerated find fired) {kept : List NodeKey} {outs : List Nat}
    (dead : deadCodeElimination nodes outputs = some (kept, outs)) (topological : Topological kept)
    (inside : ∀ o ∈ outs, o < kept.length) (different : (kept.map NodeKey.token).Nodup)
    (undropped : ∀ key ∈ kept, key.token ∉ identityTokens) (mode : FusionMode) :
    reduceWithMode nodes outputs (EggEngine.canonicalize find) mode =
      reduceWithMode nodes outputs some mode := by
  have answer : EggEngine.canonicalize find (toEngineGraph kept outs) =
      some (toEngineGraph kept outs) := by
    refine EggEngine.canonicalize_different generated (toEngineGraph_wellFormed topological inside)
      ?_ ?_
    · rw [toEngineGraph, List.map_map]
      exact different
    · intro node member
      obtain ⟨key, present, rfl⟩ := List.mem_map.mp member
      exact undropped key present
  simp only [reduceWithMode, dead, answer, Option.bind_eq_bind, Option.bind_some]

/-- Where all tokens differ and no rule applies, the reduction returns the
recorded nodes, fused. -/
theorem GraphStore.reduceWithOutputs_of_different {store : GraphStore} {outs : List NodeId}
    {fired : EngineGraph → Nat → Nat → Prop} (generated : EggGenerated find fired)
    (dead : deadCodeElimination store.nodes outs = some (store.nodes, outs))
    (topological : Topological store.nodes) (inside : ∀ o ∈ outs, o < store.nodes.length)
    (different : (store.nodes.map NodeKey.token).Nodup)
    (undropped : ∀ key ∈ store.nodes, key.token ∉ identityTokens) (mode : FusionMode) :
    store.reduceWithOutputs outs (EggEngine.canonicalize find) mode =
      store.reduceWithOutputs outs some mode := by
  rw [reduceWithOutputs, reduceWithMode_of_different generated dead topological inside different
    undropped, ← reduceWithOutputs]

end GraphedCore
