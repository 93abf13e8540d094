import GraphedCore.Meaning
import GraphedCore.Rebuild

/-!
# What stands for a live node

Between the passes every live node is represented by one node. Two of them share
it exactly when the partition of the engine, closed under congruence, relates
them. No two nodes of the fused list agree in operator and inputs, so interning
the list merges nothing.
-/

namespace GraphedCore

open Dag Wired StageFusion

section Position

variable {find : EngineGraph → Nat → Nat} {nodes : List NodeKey} {outputs : List NodeId}

/-- Nodes that come to share a place are related by what the partition relates. -/
theorem cong_of_position {fired : Nat → Nat → Prop} (topological : Topological nodes)
    (inside : ∀ o ∈ outputs, o < nodes.length)
    (sound : ∀ i j, i < (liveGraph nodes outputs).nodes.length →
      j < (liveGraph nodes outputs).nodes.length → kernel find (liveGraph nodes outputs) i j →
      Cong engineRules fired (liveGraph nodes outputs).nodes i j)
    {i j : NodeId} (first : Reaches nodes outputs i) (second : Reaches nodes outputs j)
    (same : position find nodes outputs i = position find nodes outputs j) :
    Cong engineRules fired (liveGraph nodes outputs).nodes (number (Reaches nodes outputs) i)
      (number (Reaches nodes outputs) j) :=
  cong_of_quotient (kernel_equivalence find _) (liveGraph_wellFormed topological inside).earlier
    sound (show tokenRules.label = engineRules.label from rfl) (fun _ => False.elim)
    (fun _ => False.elim) ((place_eq_iff least_equivalence).mp same)
    _ _ (loaded_lt topological inside first) (loaded_lt topological inside second) rfl rfl

/-- With a partition that is the congruence of the rule instances applied, two
live nodes share a place exactly when that congruence relates them. -/
theorem position_eq_iff {fired : EngineGraph → Nat → Nat → Prop}
    (generated : EggGenerated find fired) (topological : Topological nodes)
    (inside : ∀ o ∈ outputs, o < nodes.length) {i j : NodeId} (first : Reaches nodes outputs i)
    (second : Reaches nodes outputs j) :
    position find nodes outputs i = position find nodes outputs j ↔
      Cong engineRules (fired (liveGraph nodes outputs)) (liveGraph nodes outputs).nodes
        (number (Reaches nodes outputs) i) (number (Reaches nodes outputs) j) := by
  have related := generated (liveGraph nodes outputs) (liveGraph_wellFormed topological inside)
  constructor
  · intro same
    exact cong_of_position topological inside
      (fun i j inside inside' => (related i j inside inside').mp) first second same
  · intro merged
    have same := (related _ _ (loaded_lt topological inside first)
      (loaded_lt topological inside second)).mpr merged
    rw [position, position, (place_eq_iff (kernel_equivalence find _)).mpr same]

/-- No two nodes that the pipeline hands to fusion have one token and one list of
inputs. -/
theorem dedupedGraph_distinct (find : EngineGraph → Nat → Nat) (nodes : List NodeKey)
    (outputs : List NodeId) : Distinct EngineNode.token (dedupedGraph find nodes outputs).nodes :=
  quotient_tokens_distinct (canonicalGraph find nodes outputs)

end Position

/-! ## What is emitted for a boundary -/

section Emitted

variable {graph : EngineGraph} {table : List (String × NodeKey)} {comp : Nat → Nat}
  {reduced : Reduced}

/-- Only a plain op is emitted as a stage. -/
theorem StageFusion.Rebuilt.boundary_of_free {e : Nat} {key : NodeKey}
    (rebuilt : Rebuilt graph table comp e key) (free : ¬ key.IsStage) :
    ∀ node, graph.nodes[e]? = some node → node.boundary = true := by
  intro node lookup
  cases rebuilt with
  | boundary found boundary _ =>
    rw [Option.some.inj (lookup.symm.trans found)]
    exact boundary
  | stage => exact absurd trivial free

/-- A node emitted for a boundary is the template of its token over other
inputs. -/
theorem StageFusion.Rebuilt.template {e : Nat} {key : NodeKey}
    (rebuilt : Rebuilt graph table comp e key) (tabled : Tabled graph table)
    (boundary : ∀ node, graph.nodes[e]? = some node → node.boundary = true) : ∃ template,
      Table.get? (· == ·) table key.token = some template ∧ key = template.withInputs key.inputs := by
  cases rebuilt with
  | @boundary node template found _ stored =>
    obtain ⟨token, takes⟩ := tabled node (List.mem_of_getElem? found) template stored
    refine ⟨template, by rw [NodeKey.token_withInputs, token, stored], ?_⟩
    rw [takes _ (List.length_map _)]
  | stage found op =>
    rw [boundary _ found] at op
    cases op

/-- What is emitted for a node of the graph is a boundary or a stage, never a
plain op. -/
theorem StageFusion.Rebuilt.isBoundary {e : Nat} {key : NodeKey}
    (rebuilt : Rebuilt graph table comp e key) (wellFormed : graph.WellFormed)
    (tabled : Tabled graph table) : key.isBoundary = true := by
  cases rebuilt with
  | @boundary node template found boundary stored =>
    have member := List.mem_of_getElem? found
    have token := (tabled node member template stored).1
    rw [← NodeKey.boundaryFromToken_token, NodeKey.token_withInputs, token,
      ← wellFormed.kinds node member, boundary]
  | stage => rfl

/-- Every node of the fused list was emitted for an exit. -/
theorem Fused.rebuilt_of_mem (fused : Fused graph table comp reduced) {key : NodeKey}
    (member : key ∈ reduced.nodes) : ∃ e, Exit graph comp e ∧ Rebuilt graph table comp e key := by
  obtain ⟨k, lookup⟩ := List.mem_iff_getElem?.mp member
  obtain ⟨e, exit, rfl⟩ := fused.exit_of_lookup lookup
  obtain ⟨built, present, rebuilt⟩ := fused.rebuilt e exit
  obtain rfl := Option.some.inj (lookup.symm.trans present)
  exact ⟨e, exit, rebuilt⟩

end Emitted

/-! ## The fused list is distinct -/

/-- Keys of one operator compute one function. -/
theorem NodeKey.apply_operator {V : Type u} (interp : String → List V → V) (key : NodeKey) :
    key.operator.apply interp = key.apply interp := by
  cases key with
  | stage => rfl
  | _ =>
    rw [NodeKey.apply_token (by simp [NodeKey.operator, NodeKey.canon, NodeKey.withInputs,
      NodeKey.IsStage]), NodeKey.token_operator]
    rfl

/-- Fusing distinct nodes gives distinct nodes: read every node as the tree of
tokens its exit unfolds to. -/
theorem Fused.distinct {graph : EngineGraph} {table : List (String × NodeKey)} {comp : Nat → Nat}
    {reduced : Reduced} (fused : Fused graph table comp reduced) (wellFormed : graph.WellFormed)
    (faithful : Faithful graph table) (distinct : Distinct EngineNode.token graph.nodes) :
    Distinct NodeKey.operator reduced.nodes := by
  obtain ⟨terms, unfolded⟩ := terms_exist EngineNode.token wellFormed.earlier
  have free : Valuation (EngineNode.apply Term.apply) graph.nodes terms := unfolded
  have valued := fused.valuation wellFormed free faithful
  intro i j key other first second operators reads
  obtain ⟨e, exit, rfl⟩ := fused.exit_of_lookup first
  obtain ⟨e', exit', rfl⟩ := fused.exit_of_lookup second
  have same : terms[e]? = terms[e']? := by
    rw [← pick_getElem? terms exit, ← pick_getElem? terms exit', valued.value _ key first,
      valued.value _ other second, evalNode, evalNode, reads, ← key.apply_operator, operators,
      other.apply_operator]
  rw [unfolded.term_injective wellFormed.earlier distinct e e' exit.1 exit'.1 same]

section Reduced

variable {find : EngineGraph → Nat → Nat} {nodes : List NodeKey} {outputs : List NodeId}

/-- Reducing an arena and rebuilding the result never panics. -/
theorem reduceWithMode_rebuilds (find : EngineGraph → Nat → Nat) (topological : Topological nodes)
    (inside : ∀ o ∈ outputs, o < nodes.length) (mode : FusionMode) :
    ∃ red comp reduced, reduceWithMode nodes outputs (EggEngine.canonicalize find) mode = some red ∧
      Fused (dedupedGraph find nodes outputs) (templates (live nodes outputs)) comp red ∧
      Topological red.nodes ∧ (∀ o ∈ red.outputs, o < red.nodes.length) ∧
      GraphStore.fromReduced red = some (reduced, red.report) ∧ reduced.Interned ∧
      reduced.nodes = quotient (Least operatorRules red.nodes) red.nodes := by
  have wellFormed := dedupedGraph_wellFormed find topological inside
  obtain ⟨red, comp, reduces, fused⟩ := reduceWithMode_complete find topological inside mode
  have outputs_inside := fused.outputs_inside wellFormed.ordered
  obtain ⟨reduced, rebuilt, interned, stored, _⟩ :=
    GraphStore.fromReduced_complete (fused.topological wellFormed.ordered) outputs_inside
  exact ⟨red, comp, reduced, reduces, fused, fused.topological wellFormed.ordered, outputs_inside,
    rebuilt, interned, stored⟩

/-- A reduction that goes through for outputs of the store is what the request
answers. -/
theorem GraphStore.reduceWithOutputs_eq {store : GraphStore} {outs : List NodeId}
    (inside : ∀ o ∈ outs, o < store.nodes.length) {engine : RewriteEngine} {mode : FusionMode}
    {red : Reduced} (reduces : reduceWithMode store.nodes outs engine mode = some red)
    {reduced : GraphStore × ReductionReport} (rebuilt : fromReduced red = some reduced) :
    store.reduceWithOutputs outs engine mode = some (.ok reduced) := by
  have granted : outs.find? (fun o => decide (store.nodes.length ≤ o)) = none := by
    rw [List.find?_eq_none]
    intro o member
    simpa using inside o member
  simp only [reduceWithOutputs, granted, reduces, rebuilt, Option.bind_eq_bind, Option.bind_some]

/-- Reducing a store that holds no stage succeeds. The reduced store holds the
fused list as it stands, and marks the fused outputs in order. -/
theorem GraphStore.reduceWithOutputs_complete (find : EngineGraph → Nat → Nat) {store : GraphStore}
    (interned : store.Interned) (free : ∀ key ∈ store.nodes, ¬ key.IsStage) {outs : List NodeId}
    (inside : ∀ o ∈ outs, o < store.nodes.length) (mode : FusionMode) :
    ∃ red comp reduced, store.reduceWithOutputs outs (EggEngine.canonicalize find) mode =
        some (.ok (reduced, red.report)) ∧
      Fused (dedupedGraph find store.nodes outs) (templates (live store.nodes outs)) comp red ∧
      reduced.Interned ∧ reduced.nodes = red.nodes ∧ reduced.outputs = marked [] red.outputs := by
  have wellFormed := dedupedGraph_wellFormed find interned.earlier inside
  obtain ⟨red, comp, _, reduces, fused, topological, outputs_inside, _⟩ :=
    reduceWithMode_rebuilds find interned.earlier inside mode
  obtain ⟨reduced, rebuilt, interned', nodes, outputs⟩ :=
    fromReduced_distinct topological outputs_inside
      (fused.distinct wellFormed (dedupedGraph_faithful find free outs)
        (dedupedGraph_distinct find store.nodes outs))
  exact ⟨red, comp, reduced, reduceWithOutputs_eq inside reduces rebuilt, fused, interned', nodes,
    outputs⟩

end Reduced

end GraphedCore
