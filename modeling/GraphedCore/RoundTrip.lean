import GraphedCore.Session

/-!
# Round trip through the byte form

The nodes of an interned store are pairwise unequal and come after their inputs, so
interning them in order gives every node its own position, and marking its distinct
outputs in order gives the outputs. What the reader makes of the bytes of a store
is therefore the store, whatever sequence of requests produced it.
-/

namespace GraphedCore

open Dag Wired Parsing

namespace GraphStore

/-- Every count, length and slot of the store is written without a cut. Other
stores cannot be told by their bytes. -/
def Fits (store : GraphStore) : Prop :=
  GraphedCore.Fits store.nodes.length ∧ ∀ key ∈ store.nodes, key.Fits

instance (store : GraphStore) : Decidable store.Fits :=
  inferInstanceAs (Decidable (_ ∧ ∀ key ∈ store.nodes, key.Fits))

/-- Keys that are unequal to each other and to what is stored are appended. -/
theorem addKeys_distinct {store : GraphStore} (interned : store.Interned) {records rest : List NodeKey}
    (topological : Topological records)
    (apart : records.Pairwise (fun key other => key.eq other = false))
    (split : records = store.nodes ++ rest) :
    ∃ final ids, store.addKeys rest = some (final, ids) ∧ final.nodes = records ∧
      final.outputs = store.outputs := by
  induction rest generalizing store with
  | nil => exact ⟨store, [], rfl, by simp [split], rfl⟩
  | cons key rest ih =>
    have lookup : records[store.nodes.length]? = some key := by simp [split]
    rcases store.intern_cases key with ⟨x, member, outside, _⟩ | ⟨inside, ⟨id, hit, _⟩ | ⟨absent, did⟩⟩
    · exact absurd (topological _ key lookup x member) (Nat.not_lt_of_ge outside)
    · obtain ⟨node, stored, equal⟩ := (interned.found key id).mp hit
      rw [split, List.pairwise_append] at apart
      rw [apart.2.2 node (List.mem_of_getElem? stored) key List.mem_cons_self] at equal
      cases equal
    · obtain ⟨final, ids, ran, nodes, outputs⟩ :=
        ih (interned.push inside absent) (by simp [split, GraphStore.push])
      exact ⟨final, store.nodes.length :: ids, by simp [addKeys, addKey, did, ran], nodes, outputs⟩

/-- No two nodes of an interned store are equal. -/
theorem Interned.apart {store : GraphStore} (interned : store.Interned) :
    store.nodes.Pairwise (fun key other => key.eq other = false) := by
  rw [List.pairwise_iff_getElem]
  intro i j inside inside' before
  by_contra equal
  have same := interned.injective (List.getElem?_eq_getElem inside)
    (List.getElem?_eq_getElem inside') (by simpa using equal)
  exact absurd before (same ▸ lt_irrefl i)

/-- Ids of the arena are all marked. -/
theorem markOutputs_complete {store : GraphStore} {outs : List NodeId}
    (inside : ∀ o ∈ outs, o < store.nodes.length) :
    store.markOutputs outs = some { store with outputs := marked store.outputs outs } := by
  induction outs generalizing store with
  | nil => rfl
  | cons o rest ih =>
    have bound := inside o List.mem_cons_self
    have later : ∀ x ∈ rest, x < store.nodes.length :=
      fun x member => inside x (List.mem_cons_of_mem o member)
    rcases store.markOutput_cases o with ⟨outside, _⟩ | ⟨_, ⟨old, did⟩ | ⟨fresh, did⟩⟩
    · exact absurd bound (Nat.not_lt_of_ge outside)
    · simp only [markOutputs, did, ih later, marked, List.foldl_cons, if_pos old]
    · have marks := @ih { store with outputs := store.outputs ++ [o] } later
      simp only [markOutputs, did]
      rw [marks]
      simp only [marked, List.foldl_cons, if_neg fresh]

/-- There are no more outputs than nodes. -/
theorem Interned.outputs_length {store : GraphStore} (interned : store.Interned) :
    store.outputs.length ≤ store.nodes.length := by
  have listed : store.outputs ⊆ List.range store.nodes.length :=
    fun o member => List.mem_range.mpr (interned.inside o member)
  simpa using (interned.once.subperm listed).length_le

end GraphStore

namespace Serialize

/-- The reader of a blob takes the bytes of a store for its nodes and the
outputs. -/
theorem blob_consumes {store : GraphStore} (settled : store.Settled) (fits : store.Fits)
    {outs : List NodeId} (few : Fits outs.length) (inside : ∀ o ∈ outs, o < store.nodes.length) :
    Consumes Reader.blob (serializeWith store outs) (store.nodes, outs) := by
  obtain ⟨count, keys⟩ := fits
  have records : Consumes (Reader.repeated Reader.node 0 store.nodes.length)
      (store.nodes.flatMap putNode) store.nodes := by
    refine Reader.repeated_consumes store.nodes 0 (fun k key lookup => ?_)
    have member := List.mem_of_getElem? lookup
    rw [Nat.zero_add]
    exact Reader.node_consumes (keys key member) ((lookup_bound lookup).trans count)
      (settled.interned.earlier k key lookup) (settled.ordered key member)
  have outputs : Consumes (Reader.repeated (fun _ => Reader.u64) 0 outs.length)
      (outs.flatMap putU64) outs := by
    refine Reader.repeated_consumes outs 0 (fun k o lookup => ?_)
    have bound := inside o (List.mem_of_getElem? lookup)
    exact Reader.u64_consumes ((bound.trans count).trans (by decide))
  rw [serializeWith]
  simp only [List.append_assoc]
  refine (Reader.take_consumes magic).bind ?_
  exact (Reader.u32_consumes count).bind <| records.bind <| (Reader.u32_consumes few).bind <|
    outputs.map (fun outs => (store.nodes, outs))

/-- The reader takes all bytes of a store and an output list. -/
theorem graph_serializeWith {store : GraphStore} (settled : store.Settled) (fits : store.Fits)
    {outs : List NodeId} (few : Fits outs.length) (inside : ∀ o ∈ outs, o < store.nodes.length) :
    ∃ decoded, Reader.graph (serializeWith store outs) = .ok (decoded, []) ∧
      decoded.nodes = store.nodes ∧ decoded.outputs = GraphStore.marked [] outs := by
  have blob := blob_consumes settled fits few inside []
  rw [List.append_nil] at blob
  obtain ⟨middle, created, keys, nodes, unmarked⟩ :=
    GraphStore.addKeys_distinct GraphStore.interned_new settled.interned.earlier
      settled.interned.apart (show store.nodes = GraphStore.new.nodes ++ store.nodes from rfl)
  have marks := GraphStore.markOutputs_complete (nodes ▸ inside)
  refine ⟨_, Reader.graph_ok_iff.mpr ⟨_, _, middle, created, blob, keys, marks⟩, nodes, ?_⟩
  rw [unmarked]
  rfl

/-- What a settled store is written as reads back to its nodes and outputs, when
it fits the format. -/
theorem deserialize_serialize {store : GraphStore} (settled : store.Settled) (fits : store.Fits) :
    ∃ decoded, deserialize (serialize store) = .ok decoded ∧ decoded.nodes = store.nodes ∧
      decoded.outputs = store.outputs := by
  have few : GraphedCore.Fits store.outputs.length :=
    settled.interned.outputs_length.trans_lt fits.1
  obtain ⟨decoded, read, nodes, outputs⟩ :=
    graph_serializeWith settled fits few settled.interned.inside
  refine ⟨decoded, deserialize_ok_iff.mpr ⟨[], read⟩, nodes, ?_⟩
  rw [outputs]
  exact GraphStore.marked_fresh (by simpa using settled.interned.once)

/-- A store that any sequence of requests produced is read back from its bytes:
the same node at every id, the same outputs in order, and the same bytes again. -/
theorem serialize_round_trip (requests : List Request) (store : GraphStore)
    (produced : store ∈ (Session.run requests).stores) (fits : store.Fits) :
    ∃ decoded, deserialize (serialize store) = .ok decoded ∧ decoded.nodes = store.nodes ∧
      decoded.outputs = store.outputs ∧ serialize decoded = serialize store := by
  obtain ⟨decoded, read, nodes, outputs⟩ :=
    deserialize_serialize ((Session.settled_run requests).stores store produced) fits
  refine ⟨decoded, read, nodes, outputs, ?_⟩
  rw [serialize, serialize, serializeWith, serializeWith, nodes, outputs]

/-- Record an op on a source and reduce, so that a store with a stage is there. -/
def reduceRequests : List Request :=
  [.newStore, .call 0 (.addSource "x" (.new [("cut", .float 0x403e000000000000)])) trivial,
    .call 0 (.addOp "neg" [0] (.new [])) trivial, .call 0 (.markOutput 1) trivial,
    .reduce 0 none .singleUse (fun _ i => i)]

/-- A store with a stage, which a reduction made. -/
theorem serialize_round_trip_of_reduced : ∃ store ∈ (Session.run reduceRequests).stores,
    store.nodes = [.source "x" (.new [("cut", .float 0x403e000000000000)]),
      .stage [0] [⟨"op|neg", [.input 0]⟩]] ∧
    ∃ decoded, deserialize (serialize store) = .ok decoded ∧ decoded.nodes = store.nodes ∧
      decoded.outputs = store.outputs ∧ serialize decoded = serialize store := by
  have produced : (Session.run reduceRequests).stores[1]? = some
      ⟨[.source "x" (.new [("cut", .float 0x403e000000000000)]),
        .stage [0] [⟨"op|neg", [.input 0]⟩]],
        [(.stage [0] [⟨"op|neg", [.input 0]⟩], 1),
          (.source "x" (.new [("cut", .float 0x403e000000000000)]), 0)], [1]⟩ := by decide +kernel
  have member := List.mem_of_getElem? produced
  exact ⟨_, member, rfl, serialize_round_trip reduceRequests _ member (by decide +kernel)⟩

end Serialize

end GraphedCore
