import GraphedCore.Engine
import GraphedCore.Dsu
import Mathlib.Data.List.Sort

/-!
# Stage fusion

Ops are grouped into components, each component becomes one stage, and each
boundary node is rebuilt from the template stored under its token. `none` models
a panic: an index or a map lookup that fails.
-/

namespace GraphedCore

/-- How far a stage may reach. An op joins its only consumer, or, in the maximal
mode, also several consumers that are in one stage. -/
inductive FusionMode where
  | singleUse
  | maximal
deriving DecidableEq

/-- The counts that are reported beside the reduced graph, one for each point of
the pipeline. -/
structure ReductionReport where
  inputNodes : Nat
  reachableNodes : Nat
  canonicalNodes : Nat
  stages : Nat
  reducedNodes : Nat
  boundaryNodes : Nat
deriving DecidableEq

/-- What a reduction returns: the reduced arena, where the outputs are in it, and
the counts. -/
structure Reduced where
  nodes : List NodeKey
  outputs : List NodeId
  report : ReductionReport
deriving DecidableEq

namespace StageFusion

/-- Record one consumer under each of its inputs. A consumer that reads a node
twice is recorded twice. -/
def consumersStep (lists : List (List Nat)) (index : Nat) (node : EngineNode) :
    Option (List (List Nat)) :=
  node.inputs.foldlM (fun lists inp => do
    let list ← lists[inp]?
    some (lists.set inp (list ++ [index]))) lists

/-- The consumers of every node, in node order, once for each input position that
reads it. -/
def consumers (graph : EngineGraph) : Option (List (List Nat)) :=
  Enumerate.scan consumersStep graph.nodes (List.replicate graph.nodes.length [])

/-- Which nodes are outputs, as a table. An output out of range would be a panic,
and gives nothing here. -/
def isOutput (graph : EngineGraph) : Option (List Bool) :=
  graph.outputs.foldlM (fun marks o =>
    if o < marks.length then some (marks.set o true) else none)
    (List.replicate graph.nodes.length false)

/-- Union an op with its consumer when that is an op and its only use, and the op
is no output itself. -/
def unionStep (graph : EngineGraph) (consumers : List (List Nat)) (isOutput : List Bool)
    (dsu : Dsu) (index : Nat) (node : EngineNode) : Option Dsu :=
  if node.boundary then some dsu else do
    let uses ← consumers[index]?
    let output ← isOutput[index]?
    match uses, output with
    | [c], false => do
      let consumer ← graph.nodes[c]?
      if consumer.boundary then some dsu else dsu.union index c
    | _, _ => some dsu

/-- Component ids: ops by their root, boundaries by themselves. Each lookup
compresses the walk that it makes. -/
def rootStep (state : Dsu × List Nat) (index : Nat) (node : EngineNode) :
    Option (Dsu × List Nat) :=
  if node.boundary then some (state.1, state.2 ++ [index]) else do
    let (r, dsu) ← state.1.find index
    some (dsu, state.2 ++ [r])

/-- Union every op with its only user, and number each node by the root of its
class. -/
def singleUse (graph : EngineGraph) (consumers : List (List Nat)) (isOutput : List Bool) :
    Option (List Nat) := do
  let dsu ← Enumerate.scan (unionStep graph consumers isOutput) graph.nodes
    (Dsu.new graph.nodes.length)
  let (_, ids) ← Enumerate.scan rootStep graph.nodes (dsu, [])
  some ids

/-- One visit of the descending pass: an op that is no output joins its consumers'
component when they are all ops of one component. -/
def maximalVisit (graph : EngineGraph) (consumers : List (List Nat)) (isOutput : List Bool)
    (comp : List Nat) (index : Nat) : Option (List Nat) := do
  let node ← graph.nodes[index]?
  let output ← isOutput[index]?
  let uses ← consumers[index]?
  match uses with
  | [] => some comp
  | c :: _ =>
    if node.boundary || output then some comp else do
      let boundaries ← uses.mapM (fun c => (graph.nodes[c]?).map EngineNode.boundary)
      if boundaries.any id then some comp else do
        let first ← comp[c]?
        let others ← uses.mapM (fun c => comp[c]?)
        if others.all (· == first) then some (comp.set index first) else some comp

/-- Visit nodes `count - 1` down to `0`, so that the consumers of a node are
visited before it. -/
def maximalFrom (graph : EngineGraph) (consumers : List (List Nat)) (isOutput : List Bool) :
    Nat → List Nat → Option (List Nat)
  | 0, comp => some comp
  | count + 1, comp => do
    let comp ← maximalVisit graph consumers isOutput comp count
    maximalFrom graph consumers isOutput count comp

/-- Visit the nodes from the last to the first, each one a component of its own at
the start. -/
def maximal (graph : EngineGraph) (consumers : List (List Nat)) (isOutput : List Bool) :
    Option (List Nat) :=
  maximalFrom graph consumers isOutput graph.nodes.length (List.range graph.nodes.length)

/-- The component of every node, under either mode. Both modes start from the same
consumers and outputs. -/
def compId (graph : EngineGraph) (mode : FusionMode) : Option (List Nat) := do
  let consumers ← consumers graph
  let isOutput ← isOutput graph
  match mode with
  | .singleUse => singleUse graph consumers isOutput
  | .maximal => maximal graph consumers isOutput

/-- The members of a component, ascending, which is the order of its ops in the
stage. -/
def compMembers (compId : List Nat) (comp : Nat) : List Nat :=
  (List.range compId.length).filter (fun i => compId[i]? == some comp)

/-- The last member of a component, which is where its stage is emitted. By then
everything that the stage reads has been emitted. -/
def maxMember (compId : List Nat) (comp : Nat) : Nat :=
  (compMembers compId comp).foldl max 0

/-- The components by their largest member. Largest members are distinct, so the
order in which the components are first collected does not matter. -/
def comps (compId : List Nat) : List Nat :=
  compId.dedup.insertionSort (fun a b => maxMember compId a ≤ maxMember compId b)

/-- One input of a member: an earlier member, or the slot of its component. A
component that was not read yet gets the next slot. -/
def stageRef (compId ops slots : List Nat) (inp : Nat) : Option (List Nat × StageRef) :=
  match ops.idxOf? inp with
  | some k => some (slots, .member k)
  | none => do
    let c ← compId[inp]?
    match slots.idxOf? c with
    | some slot => some (slots, .input slot)
    | none => some (slots ++ [c], .input slots.length)

/-- The slots of one member, in the order of its inputs. New inputs of the stage
are appended as they are met. -/
def stageRefs (compId ops : List Nat) : List Nat → List Nat → Option (List Nat × List StageRef)
  | slots, [] => some (slots, [])
  | slots, inp :: rest => do
    let (slots, ref) ← stageRef compId ops slots inp
    let (slots, refs) ← stageRefs compId ops slots rest
    some (slots, ref :: refs)

/-- The members of a stage over the slots met so far, each with its token and its
references. -/
def stageOps (graph : EngineGraph) (compId ops : List Nat) :
    List Nat → List Nat → Option (List Nat × List StageOp)
  | slots, [] => some (slots, [])
  | slots, op :: rest => do
    let node ← graph.nodes[op]?
    let (slots, refs) ← stageRefs compId ops slots node.inputs
    let (slots, members) ← stageOps graph compId ops slots rest
    some (slots, ⟨node.token, refs⟩ :: members)

/-- The reduced arena so far, where each component went, and the counts of stages
and boundaries. -/
structure State where
  reduced : List NodeKey
  compToReduced : List (Nat × NodeId)
  stages : Nat
  boundaryNodes : Nat

/-- Where a component went. There is nothing before it is emitted. -/
def compToReduced (state : State) (comp : Nat) : Option NodeId :=
  Table.get? (· == ·) state.compToReduced comp

/-- Rebuild one component after the components it reads: a boundary from its
template, ops as a stage. -/
def emit (graph : EngineGraph) (templates : List (String × NodeKey)) (compId : List Nat)
    (state : State) (comp : Nat) : Option State := do
  let head ← graph.nodes[comp]?
  if head.boundary then
    let inputs ← head.inputs.mapM (fun i => do
      let c ← compId[i]?
      compToReduced state c)
    let template ← Table.get? (· == ·) templates head.token
    some {
      reduced := state.reduced ++ [template.withInputs inputs]
      compToReduced := (comp, state.reduced.length) :: state.compToReduced
      stages := state.stages
      boundaryNodes := state.boundaryNodes + 1 }
  else
    let ops := compMembers compId comp
    let (slots, members) ← stageOps graph compId ops [] ops
    let inputs ← slots.mapM (compToReduced state)
    some {
      reduced := state.reduced ++ [.stage inputs members]
      compToReduced := (comp, state.reduced.length) :: state.compToReduced
      stages := state.stages + 1
      boundaryNodes := state.boundaryNodes }

end StageFusion

open StageFusion in
/-- Group ops into stages, one for each component, and rebuild the boundaries.
Outputs are sent to the components they are in. -/
def stageFusion (graph : EngineGraph) (templates : List (String × NodeKey))
    (mode : FusionMode) : Option Reduced := do
  let compId ← compId graph mode
  let state ← (comps compId).foldlM (emit graph templates compId) ⟨[], [], 0, 0⟩
  let outputs ← graph.outputs.mapM (fun o => do
    let c ← compId[o]?
    compToReduced state c)
  some ⟨state.reduced, outputs,
    ⟨0, 0, 0, state.stages, state.reduced.length, state.boundaryNodes⟩⟩

end GraphedCore
