import GraphedCore.Fusion
import GraphedCore.Store

/-!
# The reduction pipeline

Dead-code elimination, canonicalization by a rewrite engine, hash-consing, stage
fusion, and the re-interning of the result. `none` models a panic.
-/

namespace GraphedCore

/-- `usize::MAX`, the mark of an entry of the renumbering that was never set. No
node is ever looked up under it. -/
def usizeMax : Nat := 2 ^ 64 - 1

namespace DeadCode

/-- Pop a node, keep it unless it is kept already, and push its inputs. The
fuel bounds the number of pops, and an id outside the arena is the panic of
the index. -/
def mark (nodes : List NodeKey) : Nat → List Bool → List Nat → Option (List Bool)
  | _, keep, [] => some keep
  | 0, _, _ :: _ => none
  | fuel + 1, keep, i :: stack => do
    if ← keep[i]? then mark nodes fuel keep stack
    else
      let node ← nodes[i]?
      mark nodes fuel (keep.set i true) (node.inputs.reverse ++ stack)

/-- Enough pops: every pop is an output or an input of a kept node, and each node
is kept once. -/
def fuel (nodes : List NodeKey) (outputs : List NodeId) : Nat :=
  outputs.length + nodes.foldr (fun node total => node.inputs.length + total) 0

/-- Number a kept node and rewrite its inputs through the numbers given so far. A
node that is not kept leaves the state alone. -/
def compactStep (keep : List Bool) (state : List Nat × List NodeKey) (index : Nat)
    (node : NodeKey) : Option (List Nat × List NodeKey) := do
  if ← keep[index]? then
    let remap := state.1.set index state.2.length
    let inputs ← node.inputs.mapM (fun x => remap[x]?)
    some (remap, state.2 ++ [node.withInputs inputs])
  else some state

/-- The second loop of the pass: keep the marked nodes, renumbered in ascending
order. -/
def compact (nodes : List NodeKey) (keep : List Bool) : Option (List Nat × List NodeKey) :=
  Enumerate.scan (compactStep keep) nodes (List.replicate nodes.length usizeMax, [])

end DeadCode

/-- Keep the nodes reachable from the outputs, in ascending order. The outputs are
renumbered with them and keep their order and their repetitions. -/
def deadCodeElimination (nodes : List NodeKey) (outputs : List NodeId) :
    Option (List NodeKey × List Nat) := do
  let keep ← DeadCode.mark nodes (DeadCode.fuel nodes outputs)
    (List.replicate nodes.length false) outputs.reverse
  let (remap, kept) ← DeadCode.compact nodes keep
  let outputs ← outputs.mapM (fun o => remap[o]?)
  some (kept, outputs)

/-- A key as the engine loads it: its token, whether it is a boundary, and its
inputs. -/
def toEngineNode (key : NodeKey) : EngineNode := ⟨key.token, key.isBoundary, key.inputs⟩

/-- Keys and outputs as they are handed to the engine. Ids stay what they are. -/
def toEngineGraph (keys : List NodeKey) (outputs : List Nat) : EngineGraph :=
  ⟨keys.map toEngineNode, outputs⟩

namespace Cse

/-- Where each node went, what was stored under a token and its inputs, and what
was stored. -/
structure State where
  remap : List Nat
  seen : List ((String × List Nat) × Nat)
  nodes : List EngineNode

/-- One node of the loop: it is mapped to a stored node of the same token and
inputs, or stored. -/
def step (state : State) (index : Nat) (node : EngineNode) : Option State := do
  let inputs ← node.inputs.mapM (fun x => state.remap[x]?)
  match Table.get? (· == ·) state.seen (node.token, inputs) with
  | some idx => some { state with remap := state.remap.set index idx }
  | none =>
    some {
      remap := state.remap.set index state.nodes.length
      seen := ((node.token, inputs), state.nodes.length) :: state.seen
      nodes := state.nodes ++ [⟨node.token, node.boundary, inputs⟩] }

end Cse

/-- Hash-cons identical token and inputs. The first of several equal nodes is
kept, and outputs are mapped along. -/
def cse (graph : EngineGraph) : Option EngineGraph := do
  let state ← Enumerate.scan Cse.step graph.nodes ⟨List.replicate graph.nodes.length 0, [], []⟩
  let outputs ← graph.outputs.mapM (fun o => state.remap[o]?)
  some ⟨state.nodes, outputs⟩

/-- The first node stored under each token. Boundaries of a later graph are
rebuilt from it, with inputs of their own. -/
def templates (keys : List NodeKey) : List (String × NodeKey) :=
  keys.foldl (fun table key => Table.orInsert (· == ·) table key.token key) []

/-- The pipeline: drop what is dead, rewrite, merge equal subexpressions and fuse.
Every stage sees only what the one before returned. -/
def reduceWithMode (nodes : List NodeKey) (outputs : List NodeId) (engine : RewriteEngine)
    (mode : FusionMode) : Option Reduced := do
  let (reachableKeys, reachableOutputs) ← deadCodeElimination nodes outputs
  let canonical ← engine (toEngineGraph reachableKeys reachableOutputs)
  let deduped ← cse canonical
  let out ← stageFusion deduped (templates reachableKeys) mode
  let report := { out.report with
    inputNodes := nodes.length
    reachableNodes := reachableKeys.length
    canonicalNodes := deduped.nodes.length }
  some { out with report := report }

namespace GraphStore

/-- Re-intern the nodes of a reduction, one after another, with a map from the
places in the reduction to ids. -/
def fromReducedNodes : List NodeKey → GraphStore → List NodeId → Option (GraphStore × List NodeId)
  | [], store, map => some (store, map)
  | key :: rest, store, map => do
    let remapped ← key.inputs.mapM (fun i => map[i]?)
    match store.addKey (key.withInputs remapped) with
    | (.ok id, store) => fromReducedNodes rest store (map ++ [id])
    | (.error _, _) => none

/-- Mark the outputs of a reduction in the new store, in their order. An output
that was marked is not marked again. -/
def fromReducedOutputs (map : List NodeId) : List NodeId → GraphStore → Option GraphStore
  | [], store => some store
  | o :: rest, store => do
    let id ← map[o]?
    match store.markOutput id with
    | (.ok (), store) => fromReducedOutputs map rest store
    | (.error _, _) => none

/-- Rebuild a reduced form into a fresh interned store. Ids are mapped on the way,
as interning may merge. -/
def fromReduced (red : Reduced) : Option (GraphStore × ReductionReport) := do
  let (store, map) ← fromReducedNodes red.nodes new []
  let store ← fromReducedOutputs map red.outputs store
  some (store, red.report)

/-- Reduce against the marked outputs. There is nothing where a lookup of a pass
fails, which would be a panic. -/
def reduceWith (store : GraphStore) (engine : RewriteEngine) (mode : FusionMode) :
    Option (GraphStore × ReductionReport) := do
  let red ← reduceWithMode store.nodes store.outputs engine mode
  fromReduced red

/-- Reduce against the marks, in the default mode, which fuses an op into its only
consumer. -/
def reduce (store : GraphStore) (engine : RewriteEngine) : Option (GraphStore × ReductionReport) :=
  store.reduceWith engine .singleUse

/-- Reduce against an explicit output list, ignoring the marks. The first output
outside the arena is refused before anything is done. -/
def reduceWithOutputs (store : GraphStore) (outputs : List NodeId) (engine : RewriteEngine)
    (mode : FusionMode) : Option (Except BadNodeId (GraphStore × ReductionReport)) :=
  match outputs.find? (fun o => decide (store.nodes.length ≤ o)) with
  | some o => some (.error ⟨o⟩)
  | none => do
    let red ← reduceWithMode store.nodes outputs engine mode
    let reduced ← fromReduced red
    some (.ok reduced)

end GraphStore

end GraphedCore
