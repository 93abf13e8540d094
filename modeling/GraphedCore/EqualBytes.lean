import GraphedCore.Agreement
import GraphedCore.Codec

/-!
# Equal graphs and their bytes

Two runs of calls that agree up to the equality of parameters build stores that agree up to
it, with the same ids and outputs. The writer emits a parameter as it is stored, so the
bytes agree exactly when the parameters of new nodes agree bit for bit; equal parameters
that differ in their bits are NaNs.
-/

namespace GraphedCore

open Dag Wired

/-! ## Corresponding calls -/

/-- Equal names, descriptors and inputs, and equal parameters. NaNs of different
bits count as equal here. -/
def Call.Same : Call → Call → Prop
  | .addSource name params, .addSource name' params' => name = name' ∧ params.eq params' = true
  | .addOp name inputs params, .addOp name' inputs' params' =>
    name = name' ∧ inputs = inputs' ∧ params.eq params' = true
  | .addReduction name inputs params, .addReduction name' inputs' params' =>
    name = name' ∧ inputs = inputs' ∧ params.eq params' = true
  | .addExternal d inputs params, .addExternal d' inputs' params' =>
    d = d' ∧ inputs = inputs' ∧ params.eq params' = true
  | .addKey key, .addKey key' => key.eq key' = true
  | .markOutput id, .markOutput id' => id = id'
  | _, _ => False

/-- The call is answered with a new id, so its bits are the ones that are
stored. -/
def Call.Fresh (store : GraphStore) (call : Call) : Prop :=
  (call.perform store).1 = .node store.nodeCount

/-- Corresponding calls ask for the same bits wherever a node is new. Where a node
is found again the bits are not looked at. -/
def NewNodesAgree (store : GraphStore) (calls calls' : List Call) : Prop :=
  ∀ (k : Nat) (call call' : Call), calls[k]? = some call → calls'[k]? = some call' →
    call.Fresh (Call.run store (calls.take k)) → call.key? = call'.key?

/-- Two calls that differ in NaN bits mark one id or ask for equal keys. -/
theorem Call.Same.keys {call call' : Call} (same : call.Same call') :
    (∃ id, call = .markOutput id ∧ call' = .markOutput id) ∨
      ∃ key key', call.key? = some key ∧ call'.key? = some key' ∧ key.canon = key'.canon := by
  cases call <;> cases call' <;> simp_all [Call.Same, Call.key?, NodeKey.canon, ParamMap.eq_iff,
    NodeKey.eq_iff]

/-- Stores that agree up to the equality of keys, node by node and mark by
mark. -/
structure Twins (store store' : GraphStore) : Prop where
  left : store.Interned
  right : store'.Interned
  nodes : store.nodes.map NodeKey.canon = store'.nodes.map NodeKey.canon
  outputs : store.outputs = store'.outputs

namespace Twins

variable {store store' : GraphStore} {key key' : NodeKey}

/-- Twins have as many nodes. -/
theorem length (twins : Twins store store') : store.nodes.length = store'.nodes.length := by
  simpa using congrArg List.length twins.nodes

/-- Twins find equal keys under one id. -/
theorem lookup (twins : Twins store store') (same : key.canon = key'.canon) :
    store.lookup key = store'.lookup key' := by
  have stored (s : GraphStore) (interned : s.Interned) (asked : NodeKey) (id : NodeId) :
      s.lookup asked = some id ↔ (s.nodes.map NodeKey.canon)[id]? = some asked.canon := by
    rw [GraphStore.lookup_eq, interned.found asked id, List.getElem?_map, Option.map_eq_some_iff]
    simp only [NodeKey.eq_iff]
  apply Option.ext
  intro id
  rw [stored store twins.left, stored store' twins.right, twins.nodes, same]

/-- Interning equal keys in twin stores. -/
theorem intern (twins : Twins store store') (same : key.canon = key'.canon) :
    Twins (store.intern key).2 (store'.intern key').2 ∧
      ((store.intern key).2.nodes = (store'.intern key').2.nodes ↔ store.nodes = store'.nodes ∧
        ((store.intern key).1 = .ok store.nodeCount → key = key')) := by
  have inputs : key.inputs = key'.inputs := by
    rw [← key.inputs_canon, same, key'.inputs_canon]
  have length := twins.length
  have found := twins.lookup same
  rcases store.intern_cases key with ⟨i, read, outside, did⟩ | ⟨inside, hit_or_miss⟩
  · rcases store'.intern_cases key' with ⟨_, _, _, did'⟩ | ⟨inside', _⟩
    · rw [did, did']
      exact ⟨twins, by simp⟩
    · exact absurd (inside' i (inputs ▸ read)) (Nat.not_lt_of_le (length ▸ outside))
  · rcases store'.intern_cases key' with ⟨i, read, outside, _⟩ | ⟨_, hit_or_miss'⟩
    · exact absurd (inside i (inputs ▸ read)) (Nat.not_lt_of_le (length ▸ outside))
    · rcases hit_or_miss with ⟨id, hit, did⟩ | ⟨miss, did⟩
      · rcases hit_or_miss' with ⟨id', hit', did'⟩ | ⟨miss', _⟩
        · rw [did, did']
          refine ⟨twins, ?_⟩
          have old : id ≠ store.nodeCount := by
            obtain ⟨_, present, _⟩ := (twins.left.found key id).mp hit
            exact Nat.ne_of_lt (lookup_bound present)
          simp [old]
        · rw [found, miss'] at hit
          cases hit
      · rcases hit_or_miss' with ⟨id', hit', _⟩ | ⟨miss', did'⟩
        · rw [found, hit'] at miss
          cases miss
        · have left := twins.left.intern key
          have right := twins.right.intern key'
          rw [did] at left
          rw [did'] at right
          rw [did, did']
          refine ⟨⟨left, right, ?_, twins.outputs⟩, ?_⟩
          · simp [GraphStore.push, twins.nodes, same]
          · constructor
            · intro equal
              obtain ⟨nodes, last⟩ := List.append_inj' equal rfl
              exact ⟨nodes, fun _ => List.singleton_injective last⟩
            · rintro ⟨nodes, last⟩
              rw [GraphStore.push, GraphStore.push, nodes, last rfl]

/-- Corresponding calls keep stores twins, and keep them equal if they were and
the call records nothing or the same bits. -/
theorem perform (twins : Twins store store') {call call' : Call} (same : call.Same call') :
    Twins (call.perform store).2 (call'.perform store').2 ∧
      ((call.perform store).2.nodes = (call'.perform store').2.nodes ↔
        store.nodes = store'.nodes ∧ (call.Fresh store → call.key? = call'.key?)) := by
  rcases same.keys with ⟨id, rfl, rfl⟩ | ⟨key, key', asks, asks', equal⟩
  · have left := twins.left.markOutput id
    have right := twins.right.markOutput id
    have length := twins.length
    have performed (s : GraphStore) : ((Call.markOutput id).perform s).2 = (s.markOutput id).2 :=
      Call.answerMark_store _
    have nodes (s : GraphStore) : (s.markOutput id).2.nodes = s.nodes := by
      rcases s.markOutput_cases id with ⟨_, did⟩ | ⟨_, ⟨_, did⟩ | ⟨_, did⟩⟩ <;> rw [did]
    have outputs : (store.markOutput id).2.outputs = (store'.markOutput id).2.outputs := by
      simp only [GraphStore.markOutput, length, twins.outputs]
      split
      · exact twins.outputs
      · split
        · exact twins.outputs
        · rfl
    rw [performed, performed, nodes, nodes]
    exact ⟨⟨left, right, by rw [nodes, nodes, twins.nodes], outputs⟩, by simp⟩
  · have interns (s : GraphStore) (c : Call) (asked : NodeKey) (asking : c.key? = some asked) :
        c.perform s = Call.answerNode (s.intern asked) := by
      rcases c.perform_cases s with ⟨other, asks, performed⟩ | ⟨_, none, _⟩
      · obtain rfl := Option.some.inj (asking.symm.trans asks)
        exact performed
      · rw [none] at asking
        cases asking
    have fresh : call.Fresh store ↔ (store.intern key).1 = .ok store.nodeCount := by
      rw [Call.Fresh, interns store call key asks]
      obtain ⟨_ | id, _⟩ := store.intern key <;> simp [Call.answerNode]
    rw [interns store call key asks, interns store' call' key' asks', Call.answerNode_store,
      Call.answerNode_store, fresh, asks, asks', Option.some.injEq]
    exact twins.intern equal

/-- Corresponding runs build twins, equal where every new node was asked for with
the same bits. -/
theorem run {calls calls' : List Call} (twins : Twins store store')
    (same : List.Forall₂ Call.Same calls calls') :
    Twins (Call.run store calls) (Call.run store' calls') ∧
      ((Call.run store calls).nodes = (Call.run store' calls').nodes ↔
        store.nodes = store'.nodes ∧ NewNodesAgree store calls calls') := by
  induction same generalizing store store' with
  | nil => exact ⟨twins, by simp [Call.run, NewNodesAgree]⟩
  | @cons call call' rest rest' first _ ih =>
    obtain ⟨next, step⟩ := twins.perform first
    obtain ⟨final, later⟩ := ih next
    refine ⟨final, later.trans ?_⟩
    rw [step, and_assoc]
    refine and_congr_right fun _ => ?_
    constructor
    · rintro ⟨here, after⟩ k other other' lookup lookup' fresh
      cases k with
      | zero =>
        obtain rfl : call = other := by simpa using lookup
        obtain rfl : call' = other' := by simpa using lookup'
        exact here fresh
      | succ k => exact after k other other' (by simpa using lookup) (by simpa using lookup') fresh
    · intro agree
      refine ⟨agree 0 call call' rfl rfl, fun k other other' lookup lookup' fresh => ?_⟩
      exact agree (k + 1) other other' (by simpa using lookup) (by simpa using lookup') fresh

end Twins

/-! ## What the bytes tell -/

namespace Serialize

open Separated

/-- A word tells its number. -/
theorem putU64_tells {m n : Nat} (small : m < 256 ^ 8) (small' : n < 256 ^ 8) :
    Tells (putU64 m) (putU64 n) (m = n) where
  length := by rw [putU64, putU64, length_leBytes, length_leBytes]
  tells same := by
    rw [← fromLeBytes_leBytes 8 m small, ← fromLeBytes_leBytes 8 n small']
    exact congrArg fromLeBytes same

/-- Equal parameters have one byte string exactly when they are the same bit for
bit. -/
theorem putParamValue_tells {a b : ParamValue} (same : a.canon = b.canon) :
    Tells (putParamValue a) (putParamValue b) (a = b) := by
  cases a with
  | float x =>
    cases b with
    | float y =>
      refine ((Tells.self [(1 : UInt8)]).append (putU64_tells x.toNat_lt y.toNat_lt)).imp ?_
      rintro ⟨_, bits⟩
      rw [UInt64.toNat_inj.mp bits]
    | _ => cases same
  | _ =>
    cases b with
    | float _ => cases same
    | _ =>
      cases same <;> exact (Tells.self _).imp fun _ => rfl

/-- Lists with one image are alike under it, position by position. -/
theorem forall₂_of_map_eq {α β : Type} {f : α → β} {xs ys : List α} (same : xs.map f = ys.map f) :
    List.Forall₂ (fun x y => f x = f y) xs ys := by
  have pairs : List.Forall₂ Eq (xs.map f) (ys.map f) := by rwa [List.forall₂_eq_eq_eq]
  rwa [List.forall₂_map_left_iff, List.forall₂_map_right_iff] at pairs

/-- The bytes of an entry tell its key and its value. -/
theorem putEntry_tells (entry entry' : String × ParamValue)
    (same : ParamMap.canonEntry entry = ParamMap.canonEntry entry') :
    Tells (putStr entry.1 ++ putParamValue entry.2) (putStr entry'.1 ++ putParamValue entry'.2)
      (entry = entry') := by
  obtain ⟨key, value⟩ := entry
  obtain ⟨key', value'⟩ := entry'
  obtain ⟨rfl, values⟩ := Prod.mk.inj same
  refine ((Tells.self (putStr key)).append (putParamValue_tells values)).imp ?_
  rintro ⟨_, rfl⟩
  rfl

/-- Equal maps have one byte string exactly when their values are the same bit for
bit. -/
theorem putParams_tells {p q : ParamMap} (same : p.canon = q.canon) :
    Tells (putParams p) (putParams q) (p = q) := by
  have entries : p.entries.map ParamMap.canonEntry = q.entries.map ParamMap.canonEntry :=
    congrArg ParamMap.entries same
  have length : p.entries.length = q.entries.length := by simpa using congrArg List.length entries
  have told := Tells.flatMap putEntry_tells (forall₂_of_map_eq entries)
  rw [putParams, putParams, length]
  exact ((Tells.self _).append told).imp fun both => ParamMap.ext both.2

/-- Equal keys have one byte string exactly when they are the same bit for bit. -/
theorem putNode_tells {key key' : NodeKey} (same : key.canon = key'.canon) :
    Tells (putNode key) (putNode key') (key = key') := by
  cases key with
  | source name params =>
    cases key' <;> simp only [NodeKey.canon, NodeKey.source.injEq, reduceCtorEq] at same
    obtain ⟨rfl, params⟩ := same
    refine ((Tells.self _).append (putParams_tells params)).imp ?_
    rintro ⟨_, rfl⟩
    rfl
  | op name params inputs =>
    cases key' <;> simp only [NodeKey.canon, NodeKey.op.injEq, reduceCtorEq] at same
    obtain ⟨rfl, params, rfl⟩ := same
    refine (((Tells.self _).append (putParams_tells params)).append (Tells.self _)).imp ?_
    rintro ⟨⟨_, rfl⟩, _⟩
    rfl
  | reduction name params inputs =>
    cases key' <;> simp only [NodeKey.canon, NodeKey.reduction.injEq, reduceCtorEq] at same
    obtain ⟨rfl, params, rfl⟩ := same
    refine (((Tells.self _).append (putParams_tells params)).append (Tells.self _)).imp ?_
    rintro ⟨⟨_, rfl⟩, _⟩
    rfl
  | external d params inputs =>
    cases key' <;> simp only [NodeKey.canon, NodeKey.external.injEq, reduceCtorEq] at same
    obtain ⟨rfl, params, rfl⟩ := same
    refine (((Tells.self _).append (putParams_tells params)).append (Tells.self _)).imp ?_
    rintro ⟨⟨_, rfl⟩, _⟩
    rfl
  | stage inputs members =>
    cases key' <;> simp only [NodeKey.canon, NodeKey.stage.injEq, reduceCtorEq] at same
    obtain ⟨rfl, rfl⟩ := same
    exact (Tells.self _).imp fun _ => rfl

/-- Twin stores are written alike exactly when they hold the same bits. Lengths
are the same, so bytes can be compared in place. -/
theorem serialize_eq_iff {store store' : GraphStore} (twins : Twins store store') :
    serialize store = serialize store' ↔ store.nodes = store'.nodes := by
  have told := Tells.flatMap (fun key key' => putNode_tells) (forall₂_of_map_eq twins.nodes)
  constructor
  · intro same
    rw [serialize, serialize, serializeWith, serializeWith, twins.outputs, twins.length] at same
    exact ((((Tells.self _).append told).append (Tells.self _)).append (Tells.self _)).tells same
      |>.1.1.2
  · intro nodes
    rw [serialize, serialize, serializeWith, serializeWith, twins.outputs, nodes]

end Serialize

/-! ## Equal bytes -/

/-- The bytes of the reduction for an output list, or the output that was
refused. -/
def reducedBytes (find : EngineGraph → Nat → Nat) (store : GraphStore) (outs : List NodeId)
    (mode : FusionMode) : Option (Except BadNodeId (List UInt8)) :=
  (store.reduceWithOutputs outs (EggEngine.canonicalize find) mode).map
    (fun result => result.map (fun reduced => Serialize.serialize reduced.1))

/-- What is reduced depends on the nodes of a store alone. -/
theorem reducedBytes_congr {store store' : GraphStore} (nodes : store.nodes = store'.nodes)
    (find : EngineGraph → Nat → Nat) (outs : List NodeId) (mode : FusionMode) :
    reducedBytes find store outs mode = reducedBytes find store' outs mode := by
  rw [reducedBytes, reducedBytes, GraphStore.reduceWithOutputs, GraphStore.reduceWithOutputs, nodes]

section Reductions

variable {store store' : GraphStore} {outs : List NodeId}

/-- Live boundaries hold the same bits. They are what a reduction takes over from
the store. -/
def LiveBoundariesAgree (store store' : GraphStore) (outs : List NodeId) : Prop :=
  ∀ (i : NodeId) (key key' : NodeKey), Reaches store.nodes outs i → store.nodes[i]? = some key →
    store'.nodes[i]? = some key' → key.isBoundary = true → key = key'

/-- A node of one twin is an equal node of the other. -/
theorem Twins.lookup_node (twins : Twins store store') {i : NodeId} {key : NodeKey}
    (found : store.nodes[i]? = some key) :
    ∃ key', store'.nodes[i]? = some key' ∧ key.canon = key'.canon := by
  have same := congrArg (fun keys => keys[i]?) twins.nodes
  simp only [List.getElem?_map, found, Option.map_some] at same
  obtain ⟨key', found', canon⟩ := Option.map_eq_some_iff.mp same.symm
  exact ⟨key', found', canon.symm⟩

/-- Twins are twins of each other. -/
theorem Twins.symm (twins : Twins store store') : Twins store' store :=
  ⟨twins.right, twins.left, twins.nodes.symm, twins.outputs.symm⟩

/-- What the outputs reach in one twin they reach in the other, since equal nodes
read the same ids. -/
theorem Twins.reaches (twins : Twins store store') {i : NodeId}
    (reached : Reaches store.nodes outs i) : Reaches store'.nodes outs i := by
  induction reached with
  | root member => exact .root member
  | @input i x key _ lookup member ih =>
    obtain ⟨key', lookup', same⟩ := twins.lookup_node lookup
    have inputs : key.inputs = key'.inputs := by rw [← key.inputs_canon, same, key'.inputs_canon]
    exact ih.input lookup' (show x ∈ key'.inputs from inputs ▸ member)

/-- The live nodes of twins are the same. -/
theorem Twins.reaches_eq (twins : Twins store store') :
    Reaches store.nodes outs = Reaches store'.nodes outs := by
  funext i
  exact propext ⟨twins.reaches, twins.symm.reaches⟩

/-- Equal keys, with the same bits in boundaries. An op is only told by its token,
which has no bits of a NaN. -/
def SameBits (key key' : NodeKey) : Prop :=
  key.canon = key'.canon ∧ (key.isBoundary = true → key = key')

/-- Keys of the same bits have one token. -/
theorem SameBits.token {key key' : NodeKey} (same : SameBits key key') : key.token = key'.token := by
  rw [← key.token_canon, same.1, key'.token_canon]

/-- The live keys of twins correspond one by one. -/
theorem Twins.forall₂_live (twins : Twins store store')
    (agree : LiveBoundariesAgree store store' outs) :
    List.Forall₂ SameBits (live store.nodes outs) (live store'.nodes outs) := by
  have length : (live store.nodes outs).length = (live store'.nodes outs).length := by
    rw [live_length, live_length, twins.reaches_eq, twins.length]
  refine List.forall₂_iff_get.mpr ⟨length, fun k inside inside' => ?_⟩
  obtain ⟨i, reached, bound, rfl⟩ := compact_surjective inside
  obtain ⟨key, lookup⟩ := lookup_exists bound
  obtain ⟨key', lookup', same⟩ := twins.lookup_node lookup
  have here := live_getElem? reached lookup
  have here' := live_getElem? (twins.reaches reached) lookup'
  rw [← twins.reaches_eq] at here'
  rw [List.get_eq_getElem, List.get_eq_getElem, (List.getElem?_eq_some_iff.mp here).2,
    (List.getElem?_eq_some_iff.mp here').2, NodeKey.wired_rewire, NodeKey.wired_rewire]
  have inputs : key.inputs = key'.inputs := by rw [← key.inputs_canon, same, key'.inputs_canon]
  refine ⟨by rw [NodeKey.canon_withInputs, NodeKey.canon_withInputs, same, inputs], fun boundary => ?_⟩
  rw [NodeKey.isBoundary_withInputs] at boundary
  rw [agree i key key' reached lookup lookup' boundary]

/-- The node that a boundary token is rebuilt from sits at one place in both
lists, so the rebuilt nodes have the same bits too. -/
theorem forall₂_find? {keys keys' : List NodeKey} (alike : List.Forall₂ SameBits keys keys')
    (token : String) (boundary : boundaryFromToken token = true) :
    keys.find? (fun key => key.token == token) = keys'.find? (fun key => key.token == token) := by
  induction alike with
  | nil => rfl
  | @cons key key' rest rest' first _ ih =>
    rw [List.find?_cons, List.find?_cons, ← first.token]
    split
    · rename_i carries
      have token : key.token = token := by simpa using carries
      rw [first.2 (by rw [← key.boundaryFromToken_token, token, boundary])]
    · exact ih

/-- The bits of op parameters do not matter to a reduction: its ops are read off
tokens. -/
theorem Twins.reducedBytes_eq (twins : Twins store store')
    (agree : LiveBoundariesAgree store store' outs) (find : EngineGraph → Nat → Nat)
    (mode : FusionMode) : reducedBytes find store outs mode = reducedBytes find store' outs mode := by
  have alike := twins.forall₂_live agree
  rw [reducedBytes, reducedBytes, GraphStore.reduceWithOutputs, GraphStore.reduceWithOutputs,
    ← twins.length]
  cases outside : outs.find? (fun o => decide (store.nodes.length ≤ o)) with
  | some o => rfl
  | none =>
    have inside : ∀ o ∈ outs, o < store.nodes.length := by simpa using outside
    have loaded : liveGraph store.nodes outs = liveGraph store'.nodes outs := by
      rw [liveGraph, liveGraph, toEngineGraph, toEngineGraph, twins.reaches_eq]
      have nodes : List.Forall₂ Eq ((live store.nodes outs).map toEngineNode)
          ((live store'.nodes outs).map toEngineNode) := by
        rw [List.forall₂_map_left_iff, List.forall₂_map_right_iff]
        refine alike.imp fun key key' same => ?_
        have inputs : key.inputs = key'.inputs := by
          rw [← key.inputs_canon, same.1, key'.inputs_canon]
        rw [toEngineNode, toEngineNode, same.token, NodeKey.isBoundary_eq same.token, inputs]
      rw [List.forall₂_eq_eq_eq] at nodes
      rw [nodes]
    have graph : dedupedGraph find store.nodes outs = dedupedGraph find store'.nodes outs := by
      rw [dedupedGraph, dedupedGraph, canonicalGraph, canonicalGraph, loaded]
    have reduced : reduceWithMode store.nodes outs (EggEngine.canonicalize find) mode =
        reduceWithMode store'.nodes outs (EggEngine.canonicalize find) mode := by
      rw [reduceWithMode_eq find twins.left.earlier inside mode,
        reduceWithMode_eq find twins.right.earlier (twins.length ▸ inside) mode, ← graph,
        alike.length_eq, twins.length]
      congr 1
      refine stageFusion_congr (fun node member boundary ids => ?_) mode
      have kind := (dedupedGraph_wellFormed find twins.left.earlier inside).kinds node member
      rw [templates_get?, templates_get?, forall₂_find? alike node.token (kind ▸ boundary)]
    simp only [reduced]

end Reductions

/-- Corresponding runs give equal bytes, of the stores and of their reductions,
exactly when every new node was asked for with the same bits. Bits differ in NaNs
only, which interning takes for equal and writing does not. -/
theorem equal_bytes_iff {calls calls' : List Call} (same : List.Forall₂ Call.Same calls calls') :
    (Serialize.serialize (Call.run .new calls) = Serialize.serialize (Call.run .new calls') ∧
      ∀ (find : EngineGraph → Nat → Nat) (outs : List NodeId) (mode : FusionMode),
        reducedBytes find (Call.run .new calls) outs mode =
          reducedBytes find (Call.run .new calls') outs mode) ↔
      NewNodesAgree .new calls calls' := by
  have interned := GraphStore.interned_new
  obtain ⟨twins, nodes⟩ := (⟨interned, interned, rfl, rfl⟩ : Twins .new .new).run same
  rw [Serialize.serialize_eq_iff twins]
  constructor
  · rintro ⟨equal, _⟩
    exact (nodes.mp equal).2
  · intro agree
    have equal := nodes.mpr ⟨rfl, agree⟩
    exact ⟨equal, reducedBytes_congr equal⟩

/-- A float that is no number, with the bits that stand for all of them. -/
def quietNan : F64 := 0x7ff8000000000000

/-- A NaN with other bits, which the comparison does not tell apart. -/
def signedNan : F64 := 0xfff8000000000000

/-- A source with a NaN as its cut, marked as output. -/
def nanCalls (bits : F64) : List Call :=
  [.addSource "events" (.new [("cut", .float bits)]), .markOutput 0]

/-- The recordings differ in NaN bits only. -/
theorem nanCalls_same : List.Forall₂ Call.Same (nanCalls quietNan) (nanCalls signedNan) :=
  .cons ⟨rfl, by decide +kernel⟩ (.cons rfl .nil)

/-- The two recordings are equal, and their bytes differ, as the condition
says. -/
theorem equal_bytes_iff_of_nan :
    (Serialize.serialize (Call.run .new (nanCalls quietNan)) =
        Serialize.serialize (Call.run .new (nanCalls signedNan)) ∧
      ∀ (find : EngineGraph → Nat → Nat) (outs : List NodeId) (mode : FusionMode),
        reducedBytes find (Call.run .new (nanCalls quietNan)) outs mode =
          reducedBytes find (Call.run .new (nanCalls signedNan)) outs mode) ↔
      NewNodesAgree .new (nanCalls quietNan) (nanCalls signedNan) :=
  equal_bytes_iff nanCalls_same

/-- Equal calls, different bytes: the NaN is written as it was given first. -/
theorem nan_bits_are_written :
    List.Forall₂ Call.Same (nanCalls quietNan) (nanCalls signedNan) ∧
      Serialize.serialize (Call.run .new (nanCalls quietNan)) ≠
        Serialize.serialize (Call.run .new (nanCalls signedNan)) :=
  ⟨nanCalls_same, by decide +kernel⟩

end GraphedCore
