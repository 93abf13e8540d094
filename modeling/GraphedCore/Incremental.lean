import GraphedCore.Optimizer

/-!
# The incremental reducer

The reducer consumes the arena delta by delta and keeps a canonical arena:
identity ops collapse to their input, a symmetric op dedups onto the orientation
recorded first, and everything else is hash-consed. `none` models a panic, here
the read of the first input of an identity op that has none.
-/

namespace GraphedCore

/-- The canonical arena with its table, where each consumed node went, and how
many nodes were consumed by whole steps. -/
structure IncrementalReducer (τ : Type := KeyList) where
  canonNodes : List NodeKey
  canonTable : τ
  map : List NodeId
  totalWork : Nat
deriving DecidableEq

namespace IncrementalReducer

/-- Read original ids through the map, stopping at the first one it lacks. That
one is named in the refusal. -/
def translate (map : List NodeId) (ids : List NodeId) : Except BadNodeId (List NodeId) :=
  ids.mapM (fun i => match map[i]? with
    | some canon => .ok canon
    | none => .error ⟨i⟩)

variable {τ : Type}

/-- How many nodes of the arena were consumed. The map has one entry for each of
them. -/
def watermark (reducer : IncrementalReducer τ) : Nat := reducer.map.length

/-- How many canonical nodes there are, dead ones included. -/
def canonicalCount (reducer : IncrementalReducer τ) : Nat := reducer.canonNodes.length

/-- Translate the outputs, and run the pipeline over the canonical arena. Nothing
in the reducer changes. -/
def finalize (reducer : IncrementalReducer τ) (outputs : List NodeId) (engine : RewriteEngine)
    (mode : FusionMode) : Option (Except BadNodeId Reduced) :=
  match translate reducer.map outputs with
  | .error bad => some (.error bad)
  | .ok outs => do
    let red ← reduceWithMode reducer.canonNodes outs engine mode
    some (.ok red)

variable [Table.Keyed NodeKey NodeId τ]

/-- Nothing was consumed, and the canonical arena is empty. -/
def new : IncrementalReducer τ := ⟨[], Table.Keyed.empty, [], 0⟩

/-- Look the key up in the canonical arena, or append it. The inputs are canonical
ids already and are not checked. -/
def hashCons (reducer : IncrementalReducer τ) (key : NodeKey) : NodeId × IncrementalReducer τ :=
  match Table.Keyed.get? reducer.canonTable key with
  | some id => (id, reducer)
  | none =>
    (reducer.canonNodes.length,
      { reducer with
        canonNodes := reducer.canonNodes ++ [key]
        canonTable := Table.Keyed.insert reducer.canonTable key reducer.canonNodes.length })

/-- The stored node of a symmetric op, in either orientation. The given
orientation is looked up first. -/
def findSymmetric (reducer : IncrementalReducer τ) (key : NodeKey) (a b : NodeId) :
    Option NodeId :=
  match Table.Keyed.get? reducer.canonTable key with
  | some id => some id
  | none => Table.Keyed.get? reducer.canonTable (key.withInputs [b, a])

/-- The canonical node of a key whose inputs are canonical: the first input of
an identity op, a stored orientation of a symmetric op, or what hash-consing
answers. -/
def canonicalize (reducer : IncrementalReducer τ) (key : NodeKey) :
    Option (NodeId × IncrementalReducer τ) :=
  match key with
  | .op name params inputs =>
    if identityTokens.contains key.token then do
      let input ← inputs[0]?
      some (input, reducer)
    else
      match inputs with
      | [a, b] =>
        if params.isEmpty && symmetricOps.contains name then
          match reducer.findSymmetric key a b with
          | some id => some (id, reducer)
          | none => some (reducer.hashCons key)
        else some (reducer.hashCons key)
      | _ => some (reducer.hashCons key)
  | _ => some (reducer.hashCons key)

/-- The loop of `step`. What was consumed before a failing node stays consumed, so
a later step goes on from there. -/
def consume : List NodeKey → IncrementalReducer τ →
    Option (Except BadNodeId Unit × IncrementalReducer τ)
  | [], reducer => some (.ok (), reducer)
  | key :: rest, reducer =>
    match translate reducer.map key.inputs with
    | .error bad => some (.error bad, reducer)
    | .ok inputs => do
      let (canon, reducer) ← reducer.canonicalize (key.withInputs inputs)
      consume rest { reducer with map := reducer.map ++ [canon] }

/-- Consume a delta. The work is counted only when every node of it was consumed,
though the map has grown by those before the failing one. -/
def step (reducer : IncrementalReducer τ) (delta : List NodeKey) :
    Option (Except BadNodeId Nat × IncrementalReducer τ) := do
  let (result, reducer) ← consume delta reducer
  match result with
  | .error bad => some (.error bad, reducer)
  | .ok () =>
    some (.ok delta.length, { reducer with totalWork := reducer.totalWork + delta.length })

end IncrementalReducer

end GraphedCore
