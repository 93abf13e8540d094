import GraphedCore.Deployment
import GraphedCore.Interpreting
import GraphedCore.Reloading

/-!
# From the recorder to the worker

A plan carries the recorded graph in its durable form. A worker has nothing but the bytes of
the plan: it reads the plan back, aims it at its own partitions, rebuilds the graph, reduces it
against the marks and walks the views. What it finds is what the recorder would have found by
walking the graph as it was recorded, whatever the partitions are.
-/

namespace GraphedCore

open Dag

/-! ## Reducing against the marks -/

/-- Without a list of outputs the marks are the outputs. -/
theorem GraphStore.reduceWithOutputs_marks {store : GraphStore} (interned : store.Interned)
    (engine : RewriteEngine) (mode : FusionMode) :
    store.reduceWithOutputs store.outputs engine mode =
      (store.reduceWith engine mode).map Except.ok := by
  have none : store.outputs.find? (fun o => decide (store.nodes.length ≤ o)) = none := by
    rw [List.find?_eq_none]
    intro o member beyond
    exact absurd (interned.inside o member) (Nat.not_lt.mpr (of_decide_eq_true beyond))
  rw [reduceWithOutputs, none, reduceWith]
  cases reduceWithMode store.nodes store.outputs engine mode with
  | none => rfl
  | some red =>
    simp only [Option.bind_eq_bind, Option.bind_some]
    cases fromReduced red <;> rfl

namespace Executor

universe u
variable {V : Type u} {ex : Executor V} {store other reduced : GraphStore}

/-- Only the nodes and the requested ids matter, so a store that was read back
will do. -/
theorem FindsAt.read_back {outs : List NodeId} {found : NodeId → NodeId}
    (nodes : other.nodes = store.nodes)
    (finds : ex.FindsAt other (GraphStore.marked [] outs) reduced found)
    (walkable : Walkable store.nodes) (lawful : ex.Lawful) :
    ex.FindsAt store outs reduced found := by
  obtain ⟨views, views', vals, vals', shown, shown', walked, walked', same⟩ := finds
  have clear : ∀ key ∈ store.nodes, key.Interpretable store.nodes :=
    fun key member => walkable.interpretable member
  have clear' : ∀ key ∈ other.nodes, key.Interpretable store.nodes := nodes ▸ clear
  obtain ⟨seen, visible⟩ := views_exist clear
  have walk : ex.interpret seen = some vals := by
    rw [lawful.interpret_eq walkable.payloads clear visible, ← walked,
      lawful.interpret_eq walkable.payloads clear' shown, nodes]
  refine ⟨seen, views', vals, vals', visible, shown', walk, walked', fun o member => ?_⟩
  exact same o ((GraphStore.mem_marked [] outs o).mpr (Or.inr member))

end Executor

namespace Plan

open Execution

/-- Rebuild the graph from its bytes, as a worker does. -/
def DurablePlan.graph (p : DurablePlan) : Except Serialize.DecodeError GraphStore :=
  Serialize.deserialize p.ir

universe u
variable {V : Type u}

/-- A task id depends on the graph, the process and the partition. -/
theorem DurablePlan.taskId_congr (lib : Library) {p q : DurablePlan} (ir : q.ir = p.ir)
    (process : q.process = p.process) (x : Partition) : q.taskId lib x = p.taskId lib x := by
  rw [taskId, taskId, ir, process]

/-- A plan is read back with its graph and its callables. -/
theorem DurablePlan.reloaded (lib : Library) {reader : Reader} {p : DurablePlan}
    (inverts : reader.loads (p.toBytes lib) = some (p.toJson.loaded ParamValue.floatKey))
    (whole : reader.Whole) (built : ∀ x ∈ p.partitions, x.Built) :
    ∃ q, fromBytes reader (p.toBytes lib) = .ok q ∧ q.ir = p.ir ∧ q.process = p.process ∧
      q.combine = p.combine ∧ q.empty = p.empty := by
  obtain ⟨stopping, fileLocality, resourceHints, read, _, _, _⟩ :=
    @fromJson_loaded reader whole p built
  have decoded : fromBytes reader (p.toBytes lib) =
      fromJson reader (p.toJson.loaded ParamValue.floatKey) := by
    rw [fromBytes, inverts]
  exact ⟨_, decoded.trans read, rfl, rfl, rfl, rfl⟩

/-- A worker reads the plan back, rebuilds the same graph for every choice of
partitions under the same task ids, and reduces it against its marks. Every
executor finds the outputs in what it gets. -/
theorem DurablePlan.shipped {find : EngineGraph → Nat → Nat} (egg : EggSound find)
    {store : GraphStore} (settled : store.Settled) (walkable : Walkable store.nodes)
    (fits : store.Fits) {outs : List NodeId} (few : Fits outs.length)
    (inside : ∀ o ∈ outs, o < store.nodes.length) (mode : FusionMode) {lib : Library}
    {reader : Reader} {p : DurablePlan} (carries : p.ir = Serialize.serializeWith store outs)
    (built : ∀ x ∈ p.partitions, x.Built)
    (inverts : reader.loads (p.toBytes lib) = some (p.toJson.loaded ParamValue.floatKey))
    (whole : reader.Whole) :
    ∃ q shipped reduced report found, fromBytes reader (p.toBytes lib) = .ok q ∧
      (∀ partitions, (q.withPartitions partitions).graph = .ok shipped ∧
        ∀ x, (q.withPartitions partitions).taskId lib x = p.taskId lib x) ∧
      shipped.reduceWith (EggEngine.canonicalize find) mode = some (reduced, report) ∧
      reduced.outputs = GraphStore.marked [] (outs.map found) ∧
      ∀ ex : Executor V, ex.Lawful → ex.FindsAt store outs reduced found := by
  obtain ⟨q, reloaded, ir, process, _⟩ := reloaded lib inverts whole built
  obtain ⟨shipped, decoded, nodes, marks⟩ := Serialize.graph_serializeWith settled fits few inside
  have known := Serialize.deserialize_ok_iff.mpr ⟨[], decoded⟩
  have interned := (Serialize.deserialize_settled known).interned
  have walkable' : Walkable shipped.nodes := nodes ▸ walkable
  obtain ⟨reduced, report, found, reduces, marks', finds⟩ :=
    walkable'.agrees (V := V) egg interned interned.inside mode
  have compiled : shipped.reduceWith (EggEngine.canonicalize find) mode =
      some (reduced, report) := by
    rw [GraphStore.reduceWithOutputs_marks interned] at reduces
    obtain ⟨result, reduces, same⟩ := Option.map_eq_some_iff.mp reduces
    rw [reduces, Except.ok.inj same]
  rw [marks] at marks' finds
  refine ⟨q, shipped, reduced, report, found, reloaded, fun partitions => ⟨?_, fun x => ?_⟩,
    compiled, ?_, fun ex lawful => (finds ex lawful).read_back nodes walkable lawful⟩
  · rw [graph, withPartitions, ir, carries]
    exact known
  · exact taskId_congr lib ir process x
  · rw [marks', GraphStore.marked_map_marked]
    rfl

end Plan

end GraphedCore
