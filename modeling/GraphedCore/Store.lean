import GraphedCore.Node
import GraphedCore.Lib.Table

/-!
# The interned graph store

One mutex guards the arena, the intern table and the marked outputs, so every
operation is one atomic step on the state below. An operation returns its
result together with the state it leaves behind.

The intern table is searched with the structural equality of keys: the first
key stored under an equality class stays the stored one. The store is written over
what the table can do. Where nothing else is said the table is the list of its
insertions; the hash map of the program is another.
-/

namespace GraphedCore

/-- Returned when a referenced node id is not in the arena. It names the first
such id. -/
structure BadNodeId where
  id : NodeId
deriving DecidableEq

/-- The table of a store or of a reducer that is the list of what was stored in
it, the newest entry first. Lookup goes by the comparison of keys. -/
abbrev KeyList := List (NodeKey × NodeId)

instance : Table.Keyed NodeKey NodeId KeyList :=
  ⟨[], Table.get? NodeKey.eq, fun table key id => (key, id) :: table⟩

instance : Table.LawfulKeyed KeyList NodeKey.eq where
  get?_empty _ := rfl
  get?_insert := Table.get?_cons

/-- The arena, the table that finds an interned key again, and the marked outputs
in the order of their marking. -/
structure GraphStore (τ : Type := KeyList) where
  nodes : List NodeKey
  internTable : τ
  outputs : List NodeId
deriving DecidableEq

namespace GraphStore

variable {τ : Type}

/-- How many nodes were interned. It is the id that the next new node gets. -/
def nodeCount (store : GraphStore τ) : Nat := store.nodes.length

/-- The nodes recorded at or after `start`, or none when fewer were recorded. -/
def snapshotFrom (store : GraphStore τ) (start : Nat) : List NodeKey :=
  store.nodes.drop (min start store.nodes.length)

/-- Mark a node as an output, once. An id outside the arena is refused, and
marking again changes nothing. -/
def markOutput (store : GraphStore τ) (id : NodeId) : Except BadNodeId Unit × GraphStore τ :=
  if store.nodes.length ≤ id then (.error ⟨id⟩, store)
  else if id ∈ store.outputs then (.ok (), store)
  else (.ok (), { store with outputs := store.outputs ++ [id] })

variable [Table.Keyed NodeKey NodeId τ]

/-- The store before anything is recorded. Its table is the empty table of
whichever kind. -/
def new : GraphStore τ := ⟨[], Table.Keyed.empty, []⟩

/-- Validate the input ids, then look the key up and append it when absent. The
first input outside the arena is what is refused, and a refusal leaves the store
as it was. -/
def intern (store : GraphStore τ) (key : NodeKey) : Except BadNodeId NodeId × GraphStore τ :=
  match key.inputs.find? (fun i => decide (store.nodes.length ≤ i)) with
  | some i => (.error ⟨i⟩, store)
  | none =>
    match Table.Keyed.get? store.internTable key with
    | some id => (.ok id, store)
    | none =>
      (.ok store.nodes.length,
        { store with
          nodes := store.nodes ++ [key]
          internTable := Table.Keyed.insert store.internTable key store.nodes.length })

/-- Record a source, which reads nothing and so is never refused. -/
def addSource (store : GraphStore τ) (name : String) (params : ParamMap) :
    Except BadNodeId NodeId × GraphStore τ :=
  store.intern (.source name params)

/-- Record an op over nodes of the store. The arity is not checked against the
name. -/
def addOp (store : GraphStore τ) (name : String) (inputs : List NodeId) (params : ParamMap) :
    Except BadNodeId NodeId × GraphStore τ :=
  store.intern (.op name params inputs)

/-- Record a reduction. It differs from an op in its key only, and fusion keeps it
apart. -/
def addReduction (store : GraphStore τ) (name : String) (inputs : List NodeId)
    (params : ParamMap) : Except BadNodeId NodeId × GraphStore τ :=
  store.intern (.reduction name params inputs)

/-- Record an external payload, known by its descriptor alone, over nodes of the
store. -/
def addExternal (store : GraphStore τ) (descriptor : PayloadDescriptor)
    (inputs : List NodeId) (params : ParamMap) : Except BadNodeId NodeId × GraphStore τ :=
  store.intern (.external descriptor params inputs)

/-- Intern a pre-built key, as the decoder and the optimizer do. The same checks
are made as for a recorded node. -/
def addKey (store : GraphStore τ) (key : NodeKey) : Except BadNodeId NodeId × GraphStore τ :=
  store.intern key

end GraphStore

end GraphedCore
