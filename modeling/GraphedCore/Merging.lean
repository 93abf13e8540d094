import GraphedCore.EqualBytes
import GraphedCore.Idempotence
import GraphedCore.Partition
import GraphedCore.RoundTrip
import Mathlib.Data.Finset.Card

/-!
# The bytes of a reduction tell what the engine merged

The reduced nodes partition the nodes between the passes, so the number of these is a
matter of the reduced nodes. The bytes of a store determine its nodes. A partition
that only merges more leaves fewer nodes, so of two nested partitions with equal bytes
neither merges more live nodes.
-/

namespace GraphedCore

open Dag Wired StageFusion

/-! ## Counting the nodes between the passes -/

section Places

variable {graph graph' : EngineGraph} {reduced reduced' : Reduced}
  {home position home' position' : Nat → Nat}

/-- A node is known by its home, and an op by its place in it. -/
theorem Partitioned.same_place (parts : Partitioned graph reduced home position) {i k : Nat}
    (inside : i < graph.nodes.length) (inside' : k < graph.nodes.length)
    (together : home i = home k)
    (place : IsOp graph i → IsOp graph k → position i = position k) : i = k := by
  obtain ⟨node, lookup⟩ := lookup_exists inside
  obtain ⟨other, lookup'⟩ := lookup_exists inside'
  cases kind : node.boundary with
  | true => exact ((parts.boundary i node lookup kind).2 k inside' together.symm).symm
  | false =>
    cases kind' : other.boundary with
    | true => exact (parts.boundary k other lookup' kind').2 i inside together
    | false =>
      exact parts.once i inside k inside' together
        (place ⟨node, lookup, kind⟩ ⟨other, lookup', kind'⟩)

/-- A node of another graph that is fused into the same nodes has a counterpart of
its home and its place. -/
theorem Partitioned.counterpart (parts : Partitioned graph reduced home position)
    (parts' : Partitioned graph' reduced' home' position') (nodes : reduced'.nodes = reduced.nodes)
    (unstaged : ∀ node ∈ graph'.nodes, node.boundary = true → ∀ key : NodeKey,
      key.token = node.token → ¬ key.IsStage) {i : Nat} (inside : i < graph.nodes.length) :
    ∃ j < graph'.nodes.length, home' j = home i ∧ (IsOp graph i → position' j = position i) := by
  obtain ⟨j, inside', same⟩ : ∃ j < graph'.nodes.length, home' j = home i := by
    rw [← parts'.covers, nodes, parts.covers]
    exact ⟨i, inside, rfl⟩
  obtain ⟨node, lookup⟩ := lookup_exists inside
  cases kind : node.boundary with
  | true => exact ⟨j, inside', same, fun op => absurd op (not_isOp lookup kind)⟩
  | false =>
    obtain ⟨inputs, members, op, present, found, _⟩ := parts.member i node lookup kind
    rw [← nodes, ← same] at present
    have isOp : IsOp graph' j := by
      obtain ⟨node', lookup'⟩ := lookup_exists inside'
      refine ⟨node', lookup', Bool.eq_false_iff.mpr fun boundary => ?_⟩
      obtain ⟨⟨key, present', token⟩, _⟩ := parts'.boundary j node' lookup' boundary
      obtain rfl := Option.some.inj (present'.symm.trans present)
      exact unstaged node' (List.mem_of_getElem? lookup') boundary _ token trivial
    obtain ⟨k, ⟨_, known, _⟩, together, place⟩ :=
      parts'.filled j inputs members isOp present (position i) (lookup_bound found)
    exact ⟨k, lookup_bound known, together.trans same, fun _ => place⟩

/-- If two graphs are partitioned into the same nodes, and no boundary of the
second one is a recorded stage, then the first one has no more nodes than the
second. -/
theorem Partitioned.length_le (parts : Partitioned graph reduced home position)
    (parts' : Partitioned graph' reduced' home' position') (nodes : reduced'.nodes = reduced.nodes)
    (unstaged : ∀ node ∈ graph'.nodes, node.boundary = true → ∀ key : NodeKey,
      key.token = node.token → ¬ key.IsStage) :
    graph.nodes.length ≤ graph'.nodes.length := by
  have counterpart (i : Nat) : ∃ j, i < graph.nodes.length → j < graph'.nodes.length ∧
      home' j = home i ∧ (IsOp graph i → position' j = position i) := by
    by_cases inside : i < graph.nodes.length
    · exact (parts.counterpart parts' nodes unstaged inside).imp (fun _ facts _ => facts)
    · exact ⟨0, fun inside' => absurd inside' inside⟩
  choose partner agrees using counterpart
  have maps : Set.MapsTo partner (Finset.range graph.nodes.length)
      (Finset.range graph'.nodes.length) := by
    intro i inside
    rw [Finset.mem_coe, Finset.mem_range] at inside ⊢
    exact (agrees i inside).1
  have injective : Set.InjOn partner (Finset.range graph.nodes.length) := by
    intro i inside k inside' same
    rw [Finset.mem_coe, Finset.mem_range] at inside inside'
    obtain ⟨_, home_i, place_i⟩ := agrees i inside
    obtain ⟨_, home_k, place_k⟩ := agrees k inside'
    refine parts.same_place inside inside' ?_ (fun op op' => ?_)
    · rw [← home_i, same, home_k]
    · rw [← place_i op, same, place_k op']
  simpa using Finset.card_le_card_of_injOn partner maps injective

end Places

section Sizes

variable {find : EngineGraph → Nat → Nat} {fired : EngineGraph → Nat → Nat → Prop}
  {nodes : List NodeKey} {outs : List NodeId}

/-- Congruence of tokens merges nothing that the engine has left apart. -/
theorem dedupedGraph_generated (generated : EggGenerated find fired)
    (topological : Topological nodes) (inside : ∀ o ∈ outs, o < nodes.length) :
    dedupedGraph find nodes outs = canonicalGraph find nodes outs := by
  have wellFormed := liveGraph_wellFormed topological inside
  have same := generated (liveGraph nodes outs) wellFormed
  have distinct : Distinct EngineNode.token (canonicalGraph find nodes outs).nodes := by
    refine quotient_distinct (kernel_equivalence find _) EngineNode.token_rewire ?_
    intro i j node other first second tokens reads
    refine (same i j (lookup_bound first) (lookup_bound second)).mpr ?_
    refine .of_inputs first second tokens (List.forall₂_iff_get.mpr ⟨reads.length_eq, ?_⟩)
    intro k left right
    have before := wellFormed.earlier i node first _ (List.get_mem (inputs node) ⟨k, left⟩)
    have before' := wellFormed.earlier j other second _ (List.get_mem (inputs other) ⟨k, right⟩)
    exact (same _ _ (before.trans (lookup_bound first)) (before'.trans (lookup_bound second))).mp
      ((List.forall₂_iff_get.mp reads).2 k left right)
  exact (canonicalGraph_wellFormed find topological inside).ordered.quotient_discrete
    least_equivalence
    (tokens_discrete distinct)

/-- There are as many nodes between the passes as classes of live nodes. -/
theorem dedupedGraph_length (generated : EggGenerated find fired)
    (topological : Topological nodes) (inside : ∀ o ∈ outs, o < nodes.length) :
    (dedupedGraph find nodes outs).nodes.length =
      number (IsLeader (kernel find (liveGraph nodes outs)))
        (liveGraph nodes outs).nodes.length := by
  rw [dedupedGraph_generated generated topological inside, canonicalGraph, EngineGraph.quotient,
    quotient_length]

end Sizes

/-! ## Reductions are written without a cut -/

/-- The counts and lengths of the store fit, and those of the tokens that become
the names of stage members. -/
def GraphStore.Writable (store : GraphStore) : Prop :=
  store.Fits ∧ ∀ key ∈ store.nodes, GraphedCore.Fits key.token.utf8ByteSize

instance (store : GraphStore) : Decidable store.Writable :=
  inferInstanceAs (Decidable (_ ∧ ∀ key ∈ store.nodes, _))

/-- A key that fits has a number of inputs that fits. -/
theorem NodeKey.Fits.inputs {key : NodeKey} (fits : key.Fits) :
    GraphedCore.Fits key.inputs.length := by
  cases key with
  | source => exact Nat.two_pow_pos 32
  | op | reduction | external => exact fits.2.2
  | stage => exact fits.1

/-- A key still fits over other inputs, as long as their number does. -/
theorem NodeKey.Fits.withInputs {key : NodeKey} (fits : key.Fits) {ids : List NodeId}
    (length : GraphedCore.Fits ids.length) : (key.withInputs ids).Fits := by
  cases key with
  | source => exact fits
  | op | reduction | external => exact ⟨fits.1, fits.2.1, length⟩
  | stage => exact ⟨length, fits.2⟩

section Fits

variable {find : EngineGraph → Nat → Nat} {store : GraphStore} {outs : List NodeId}

/-- Live nodes are written without a cut when the store's nodes are. -/
theorem live_fits (writable : store.Writable) {key : NodeKey}
    (member : key ∈ live store.nodes outs) :
    key.Fits ∧ GraphedCore.Fits key.token.utf8ByteSize := by
  obtain ⟨source, present, rfl⟩ := live_mem member
  have fits := writable.1.2 source present
  rw [NodeKey.token_rewire, NodeKey.wired_rewire]
  refine ⟨fits.withInputs ?_, writable.2 source present⟩
  rw [List.length_map]
  exact fits.inputs

/-- So are the nodes that the pipeline hands to fusion. -/
theorem dedupedGraph_fits (writable : store.Writable) {node : EngineNode}
    (member : node ∈ (dedupedGraph find store.nodes outs).nodes) :
    GraphedCore.Fits node.inputs.length ∧ GraphedCore.Fits node.token.utf8ByteSize := by
  obtain ⟨key, present, token, _, arity⟩ := dedupedGraph_mem member
  obtain ⟨fits, named⟩ := live_fits writable present
  rw [token, arity]
  exact ⟨fits.inputs, named⟩

/-- The pipeline adds no node. -/
theorem dedupedGraph_length_le (find : EngineGraph → Nat → Nat) (nodes : List NodeKey)
    (outs : List NodeId) : (dedupedGraph find nodes outs).nodes.length ≤ nodes.length := by
  refine (dedupedGraph_length_le_live find nodes outs).trans ?_
  rw [live_length]
  exact number_le _ _

/-- Members that are read off tokens and inputs of the graph fit, if their slots
do. -/
theorem Staged.fits (writable : store.Writable) {comp : Nat → Nat} {ops slots rest : List Nat}
    {k : Nat} {members : List StageOp}
    (staged : Staged (dedupedGraph find store.nodes outs) comp ops slots k rest members)
    (inside : ∀ op ∈ rest, op < (dedupedGraph find store.nodes outs).nodes.length)
    (slotted : GraphedCore.Fits slots.length) : ∀ op ∈ members, op.Fits := by
  intro op listed
  obtain ⟨j, place⟩ := List.mem_iff_getElem?.mp listed
  obtain ⟨i, here⟩ := lookup_exists (staged.length ▸ lookup_bound place)
  obtain ⟨node, known⟩ := lookup_exists (inside i (List.mem_of_getElem? here))
  obtain ⟨op', place', token, resolve⟩ := staged.member j i node here known
  obtain rfl := Option.some.inj (place.symm.trans place')
  obtain ⟨reads, named⟩ := dedupedGraph_fits writable (List.mem_of_getElem? known)
  refine ⟨token ▸ named, resolve.length_eq ▸ reads, fun ref refers => ?_⟩
  obtain ⟨x, _, resolved⟩ := Enumerate.forall₂_partner resolve.flip refers
  cases ref with
  | member => exact trivial
  | input s => exact Nat.lt_trans (lookup_bound resolved.2) slotted

/-- The nodes that stage fusion emits for a writable store fit. A stage reads no
more slots than there are nodes, since it reads none twice. -/
theorem Fused.fits (writable : store.Writable) (topological : Topological store.nodes)
    (inside : ∀ o ∈ outs, o < store.nodes.length) {comp : Nat → Nat} {red : Reduced}
    (fused : Fused (dedupedGraph find store.nodes outs) (templates (live store.nodes outs)) comp
      red)
    (slotted : Slotted (dedupedGraph find store.nodes outs) comp
      (dedupedGraph find store.nodes outs).nodes.length red.nodes) :
    GraphedCore.Fits red.nodes.length ∧ ∀ key ∈ red.nodes, key.Fits := by
  have ordered := (dedupedGraph_wellFormed find topological inside).ordered
  have small := dedupedGraph_length_le find store.nodes outs
  have count : GraphedCore.Fits red.nodes.length := by
    rw [fused.length]
    exact ((number_le _ _).trans small).trans_lt writable.1.1
  refine ⟨count, fun key member => ?_⟩
  obtain ⟨k, lookup⟩ := List.mem_iff_getElem?.mp member
  obtain ⟨e, exit, rfl⟩ := fused.exit_of_lookup lookup
  obtain ⟨built, present, rebuilt⟩ := fused.rebuilt e exit
  obtain rfl := Option.some.inj (lookup.symm.trans present)
  cases rebuilt with
  | @boundary node template found boundary stored =>
    have listed := List.mem_of_getElem? found
    obtain ⟨kept, _⟩ := dedupedGraph_template listed stored
    refine (live_fits writable kept).1.withInputs ?_
    rw [List.length_map]
    exact (dedupedGraph_fits writable listed).1
  | @stage node slots members found kind staged sources =>
    have once := slotted e exit.1 exit ⟨node, found, kind⟩ _ lookup
    have reads : (slots.map (spot (dedupedGraph find store.nodes outs) comp)) ⊆
        List.range red.nodes.length := by
      intro x read
      rw [List.mem_range]
      exact ((fused.topological ordered) _ _ lookup x read).trans (lookup_bound lookup)
    have ops : compMembers (ids (dedupedGraph find store.nodes outs) comp) (comp e) ⊆
        List.range (dedupedGraph find store.nodes outs).nodes.length :=
      fun i here => List.mem_range.mpr ((mem_compMembers _ _).mp here).1
    have slotCount := (once.subperm reads).length_le
    have memberCount := ((members_nodup _).subperm ops).length_le
    rw [NodeKey.inputs, List.length_map, List.length_range] at slotCount
    rw [← staged.length, List.length_range] at memberCount
    have slotsFit : GraphedCore.Fits slots.length := slotCount.trans_lt count
    refine ⟨?_, (memberCount.trans small).trans_lt writable.1.1, ?_⟩
    · rwa [List.length_map]
    · exact Staged.fits writable staged (fun op here => ((mem_compMembers _ _).mp here).1) slotsFit

end Fits

/-! ## What the bytes tell -/

/-- Stores with equal bytes hold the same nodes and mark the same outputs. -/
theorem Serialize.serialize_injective {store store' : GraphStore} (settled : store.Settled)
    (settled' : store'.Settled) (fits : store.Fits) (fits' : store'.Fits)
    (same : serialize store = serialize store') :
    store.nodes = store'.nodes ∧ store.outputs = store'.outputs := by
  obtain ⟨decoded, read, nodes, outputs⟩ := deserialize_serialize settled fits
  obtain ⟨decoded', read', nodes', outputs'⟩ := deserialize_serialize settled' fits'
  rw [same, read'] at read
  obtain rfl := Except.ok.inj read
  exact ⟨nodes.symm.trans nodes', outputs.symm.trans outputs'⟩

section Bytes

variable {find find' : EngineGraph → Nat → Nat} {fired fired' : EngineGraph → Nat → Nat → Prop}
  {store : GraphStore} {outs : List NodeId}

/-- A reduction depends on the engine through the partition of the live graph
only. -/
theorem reducedBytes_kernel (interned : store.Interned)
    (inside : ∀ o ∈ outs, o < store.nodes.length)
    (same : ∀ i < (liveGraph store.nodes outs).nodes.length,
      ∀ j < (liveGraph store.nodes outs).nodes.length,
        (kernel find (liveGraph store.nodes outs) i j ↔
          kernel find' (liveGraph store.nodes outs) i j)) (mode : FusionMode) :
    reducedBytes find store outs mode = reducedBytes find' store outs mode := by
  have wellFormed := liveGraph_wellFormed interned.earlier inside
  have equivalence := kernel_equivalence find (liveGraph store.nodes outs)
  have equivalence' := kernel_equivalence find' (liveGraph store.nodes outs)
  have canonical :
      canonicalGraph find store.nodes outs = canonicalGraph find' store.nodes outs := by
    rw [canonicalGraph, canonicalGraph, EngineGraph.quotient, EngineGraph.quotient,
      quotient_congr equivalence equivalence' wellFormed.earlier same,
      List.map_congr_left (fun o member =>
        place_congr equivalence equivalence' same (wellFormed.inside o member))]
  have deduped : dedupedGraph find store.nodes outs = dedupedGraph find' store.nodes outs := by
    rw [dedupedGraph, dedupedGraph, canonical]
  rw [reducedBytes, reducedBytes, GraphStore.reduceWithOutputs, GraphStore.reduceWithOutputs,
    reduceWithMode_eq find interned.earlier inside, reduceWithMode_eq find' interned.earlier inside,
    deduped]

/-- The bytes of a reduction of a stage-free store are those of a store that holds
the fused nodes, and these partition the nodes between the passes. -/
theorem reducedBytes_written (find : EngineGraph → Nat → Nat) (interned : store.Interned)
    (free : ∀ key ∈ store.nodes, ¬ key.IsStage) (writable : store.Writable)
    (inside : ∀ o ∈ outs, o < store.nodes.length) (mode : FusionMode) :
    ∃ red reduced home position,
      reducedBytes find store outs mode = some (.ok (Serialize.serialize reduced)) ∧
      reduced.Settled ∧ reduced.Fits ∧ reduced.nodes = red.nodes ∧
      Partitioned (dedupedGraph find store.nodes outs) red home position := by
  have wellFormed := dedupedGraph_wellFormed find interned.earlier inside
  obtain ⟨red, comp, reduces, fused, slotted⟩ :=
    reduceWithMode_slotted find interned.earlier inside mode
  obtain ⟨reduced, rebuilt, _, nodes, _⟩ := GraphStore.fromReduced_distinct
    (fused.topological wellFormed.ordered) (fused.outputs_inside wellFormed.ordered)
    (fused.distinct wellFormed (dedupedGraph_faithful find free outs)
      (dedupedGraph_distinct find store.nodes outs))
  have ordered : ∀ key ∈ store.nodes, key.Ordered := by
    intro key member
    have unstaged := free key member
    cases key <;> first | exact trivial | exact absurd trivial unstaged
  refine ⟨red, reduced, _, _, ?_,
    fromReduced_settled interned.earlier inside ordered reduces rebuilt, ?_, nodes,
    fused.partitioned wellFormed.ordered ?_ slotted⟩
  · rw [reducedBytes, GraphStore.reduceWithOutputs_eq inside reduces rebuilt]
    rfl
  · rw [GraphStore.Fits, nodes]
    exact fused.fits writable interned.earlier inside slotted
  · exact fun node member _ template stored => (dedupedGraph_template member stored).2.1

/-- A partition that merges more live nodes than another gives other bytes. -/
theorem merged_of_reducedBytes (generated : EggGenerated find fired)
    (generated' : EggGenerated find' fired') (interned : store.Interned)
    (free : ∀ key ∈ store.nodes, ¬ key.IsStage) (writable : store.Writable)
    (inside : ∀ o ∈ outs, o < store.nodes.length) {mode : FusionMode}
    (finer : ∀ i < (liveGraph store.nodes outs).nodes.length,
      ∀ j < (liveGraph store.nodes outs).nodes.length,
        kernel find (liveGraph store.nodes outs) i j →
          kernel find' (liveGraph store.nodes outs) i j)
    (same : reducedBytes find store outs mode = reducedBytes find' store outs mode) {i j : Nat}
    (first : i < (liveGraph store.nodes outs).nodes.length)
    (second : j < (liveGraph store.nodes outs).nodes.length)
    (merged : kernel find' (liveGraph store.nodes outs) i j) :
    kernel find (liveGraph store.nodes outs) i j := by
  obtain ⟨red, reduced, _, _, bytes, settled, fits, nodes, parts⟩ :=
    reducedBytes_written find interned free writable inside mode
  obtain ⟨red', reduced', _, _, bytes', settled', fits', nodes', parts'⟩ :=
    reducedBytes_written find' interned free writable inside mode
  rw [bytes, bytes', Option.some.injEq, Except.ok.injEq] at same
  have held := (Serialize.serialize_injective settled settled' fits fits' same).1
  rw [nodes, nodes'] at held
  have unstaged (find : EngineGraph → Nat → Nat) :
      ∀ node ∈ (dedupedGraph find store.nodes outs).nodes, node.boundary = true →
        ∀ key : NodeKey, key.token = node.token → ¬ key.IsStage := by
    intro node member _ key token stage
    obtain ⟨other, present, token', _⟩ := dedupedGraph_mem member
    exact live_free free other present (stage_of_token (token.trans token') stage)
  have count := Nat.le_antisymm (parts'.length_le parts held (unstaged find))
    (parts.length_le parts' held.symm (unstaged find'))
  rw [dedupedGraph_length generated interned.earlier inside,
    dedupedGraph_length generated' interned.earlier inside] at count
  exact finer_of_number (kernel_equivalence find _) (kernel_equivalence find' _) finer count first
    second merged

end Bytes

end GraphedCore
