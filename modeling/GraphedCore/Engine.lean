import GraphedCore.Node
import GraphedCore.Lib.Enumerate
import GraphedCore.Lib.Table

/-!
# The rewrite-engine boundary

An engine maps an engine graph to its canonical form. `none` models a panic: an
index or a map lookup that fails. The e-graph library itself is a parameter: the
class that `find` reports for each loaded node once the runner has stopped. The
loading of the graph and the extraction around it are the program's own code.
-/

namespace GraphedCore

/-- Symmetric binary ops of the frontend vocabulary. The engine has one rule for
each, over ops without parameters. -/
def symmetricOps : List String :=
  ["add", "mul", "and", "or", "eq", "ne", "maximum", "minimum"]

/-- An op with one of these exact tokens is equivalent to its single input: adding
zero and multiplying by one, from either side. -/
def identityTokens : List String :=
  ["op|add|scalar=f0000000000000000;side=sr",
    "op|add|scalar=f0000000000000000;side=sl",
    "op|mul|scalar=f3ff0000000000000;side=sr",
    "op|mul|scalar=f3ff0000000000000;side=sl"]

/-- A node as the engine loads it: its token, whether it is a boundary, and its
inputs. -/
structure EngineNode where
  token : String
  boundary : Bool
  inputs : List Nat
deriving DecidableEq

/-- What is handed to the engine and comes back from it. The outputs are positions
in the list of nodes. -/
structure EngineGraph where
  nodes : List EngineNode
  outputs : List Nat
deriving DecidableEq

/-- A pass over a graph, with nothing where a lookup of the pass fails, which
would be a panic. -/
abbrev RewriteEngine := EngineGraph → Option EngineGraph

/-- `starts_with("op|")`, negated. The engine tells boundaries by their tokens,
since its language keeps nothing else. -/
def boundaryFromToken (token : String) : Bool :=
  !("op|".toList.isPrefixOf token.toList)

namespace EggEngine

/-- Loading reads the class of every input, so an input must be loaded already. In
an arena in dependency order it is. -/
def loadStep (_ : Unit) (index : Nat) (node : EngineNode) : Option Unit :=
  if node.inputs.all (fun j => decide (j < index)) then some () else none

/-- Remember the earliest node of each class, which is the one that is kept. -/
def repStep (rep : List (Nat × Nat)) (index cls : Nat) : Option (List (Nat × Nat)) :=
  some (Table.orInsert (· == ·) rep cls index)

/-- Emit a node over the classes emitted so far, if it is the first of its class.
An input whose class is not emitted yet fails the lookup. -/
def extractStep (canon : List Nat) (rep : List (Nat × Nat))
    (state : List (Nat × Nat) × List EngineNode) (index : Nat) (node : EngineNode) :
    Option (List (Nat × Nat) × List EngineNode) := do
  let cls ← canon[index]?
  let first ← Table.get? (· == ·) rep cls
  if first ≠ index then some state else
    let inputs ← node.inputs.mapM (fun j => do
      let child ← canon[j]?
      Table.get? (· == ·) state.1 child)
    some ((cls, state.2.length) :: state.1,
      state.2 ++ [⟨node.token, boundaryFromToken node.token, inputs⟩])

/-- Quotient the graph by the classes that `find` reports, keeping the earliest
node of each class. -/
def canonicalize (find : EngineGraph → Nat → Nat) : RewriteEngine := fun graph => do
  Enumerate.scan loadStep graph.nodes ()
  let canon := (List.range graph.nodes.length).map (find graph)
  let rep ← Enumerate.scan repStep canon []
  let (classToNew, nodes) ← Enumerate.scan (extractStep canon rep) graph.nodes ([], [])
  let outputs ← graph.outputs.mapM (fun o => do
    let cls ← canon[o]?
    Table.get? (· == ·) classToNew cls)
  some ⟨nodes, outputs⟩

end EggEngine

end GraphedCore
