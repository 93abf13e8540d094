import GraphedCore.Codec
import GraphedCore.Decoding
import GraphedCore.Recorded
import GraphedCore.Survivors

/-!
# Sessions

A session holds stores and incremental reducers and serves requests on them. A
request that is refused, or that panics, leaves the stores as they were; a panic
inside a reducer poisons the mutex around it, and the reducer cannot be used again.

However the requests go, every store stays interned and every stage in it refers to
earlier members only, so every store can be written out and read back.
-/

namespace GraphedCore

open Dag Wired StageFusion

/-! ## Requests -/

/-- A call that the bindings expose. Keys that are built elsewhere come in through
decoding and reduction only. -/
def Call.IsExposed : Call → Prop
  | .addKey _ => False
  | _ => True

/-- Which stores and reducers a request is about is told by position. The
partition that the e-graph library finds is a matter of the request: it may stop
early. -/
inductive Request where
  | newStore
  | newReducer
  | call (store : Nat) (call : Call) (exposed : call.IsExposed)
  | reduce (store : Nat) (outputs : Option (List NodeId)) (mode : FusionMode)
      (find : EngineGraph → Nat → Nat)
  | step (reducer store : Nat)
  | finalize (reducer store : Nat) (outputs : Option (List NodeId)) (mode : FusionMode)
      (find : EngineGraph → Nat → Nat)
  | deserialize (data : List UInt8)

/-- The stores and the reducers that a client holds. The slot of a reducer is
empty once a panic has poisoned its mutex. -/
structure Session where
  stores : List GraphStore
  reducers : List (Option IncrementalReducer)

namespace Session

/-- A session without stores and without reducers. -/
def new : Session := ⟨[], []⟩

/-- A new store takes the next slot. A request that fails adds none, so slots are
never reused. -/
def addStore (session : Session) : Option GraphStore → Session
  | some store => { session with stores := session.stores ++ [store] }
  | none => session

/-- Reduce against the given outputs, or against the marks. There is no store when
the outputs are refused or the reduction panics. -/
def reduce (store : GraphStore) (outputs : Option (List NodeId)) (mode : FusionMode)
    (engine : RewriteEngine) : Option GraphStore :=
  match outputs with
  | some outs =>
    match store.reduceWithOutputs outs engine mode with
    | some (.ok (reduced, _)) => some reduced
    | _ => none
  | none => (store.reduceWith engine mode).map Prod.fst

/-- Consume what the store recorded since the last step, which is all above the
watermark of the reducer. -/
def step (reducer : IncrementalReducer) (store : GraphStore) :
    Option (Except BadNodeId Nat × IncrementalReducer) :=
  reducer.step (store.snapshotFrom reducer.watermark)

/-- Step, finalize and rebuild, as the binding does. Requested outputs are checked
first, and the reducer is `none` after a panic. -/
def finalize (reducer : IncrementalReducer) (store : GraphStore) (outputs : Option (List NodeId))
    (mode : FusionMode) (engine : RewriteEngine) : Option GraphStore × Option IncrementalReducer :=
  let outs := outputs.getD store.outputs
  if outputs.isSome && outs.any (fun o => decide (store.nodeCount ≤ o)) then (none, some reducer)
  else
    match step reducer store with
    | none => (none, none)
    | some (.error _, reducer) => (none, some reducer)
    | some (.ok _, reducer) =>
      match reducer.finalize outs engine mode with
      | none => (none, none)
      | some (.error _) => (none, some reducer)
      | some (.ok red) =>
        match GraphStore.fromReduced red with
        | none => (none, none)
        | some (reduced, _) => (some reduced, some reducer)

/-- One request on a session. A request on an absent slot does nothing, since no
object of the interpreter stands for it. -/
def perform (session : Session) : Request → Session
  | .newStore => session.addStore (some .new)
  | .newReducer => { session with reducers := session.reducers ++ [some .new] }
  | .call s call _ =>
    match session.stores[s]? with
    | some store => { session with stores := session.stores.set s (call.perform store).2 }
    | none => session
  | .reduce s outputs mode find =>
    match session.stores[s]? with
    | some store => session.addStore (reduce store outputs mode (EggEngine.canonicalize find))
    | none => session
  | .step r s =>
    match session.reducers[r]?, session.stores[s]? with
    | some (some reducer), some store =>
      { session with reducers := session.reducers.set r ((step reducer store).map Prod.snd) }
    | _, _ => session
  | .finalize r s outputs mode find =>
    match session.reducers[r]?, session.stores[s]? with
    | some (some reducer), some store =>
      let result := finalize reducer store outputs mode (EggEngine.canonicalize find)
      { session.addStore result.1 with reducers := session.reducers.set r result.2 }
    | _, _ => session
  | .deserialize data => session.addStore (Serialize.deserialize data).toOption

/-- The session after a sequence of requests. Every theorem about sessions is
about such a run. -/
def run (requests : List Request) : Session := requests.foldl perform new

end Session

/-! ## What every store keeps -/

/-- Interned, and with stages whose members refer to earlier members only. Every
store of a session is so. -/
structure GraphStore.Settled (store : GraphStore) : Prop where
  interned : store.Interned
  ordered : ∀ key ∈ store.nodes, key.Ordered

namespace GraphStore

/-- The empty store is settled, since it holds no stage and no input. -/
theorem settled_new : Settled new where
  interned := interned_new
  ordered := by simp [new]

/-- A call keeps a store settled. The exposed calls record no stage, so nothing
has to be checked about members. -/
theorem Settled.perform {store : GraphStore} (settled : store.Settled) {call : Call}
    (exposed : call.IsExposed) : (call.perform store).2.Settled where
  interned := Call.interned_perform settled.interned call
  ordered := by
    intro key member
    rcases Call.mem_perform_nodes member with old | asked
    · exact settled.ordered key old
    · cases call with
      | addKey _ => exact exposed.elim
      | markOutput _ => cases asked
      | _ =>
        obtain rfl := Option.some.inj asked
        trivial

end GraphStore

/-- What is rebuilt from a reduced arena is settled: a stage of it has members
that were emitted in order, and any other node is a node of the arena over new
inputs. -/
theorem fromReduced_settled {find : EngineGraph → Nat → Nat} {nodes : List NodeKey}
    {outs : List NodeId} (topological : Topological nodes) (inside : ∀ o ∈ outs, o < nodes.length)
    (ordered : ∀ key ∈ nodes, key.Ordered) {mode : FusionMode} {red : Reduced}
    (reduces : reduceWithMode nodes outs (EggEngine.canonicalize find) mode = some red)
    {reduced : GraphStore} {report : ReductionReport}
    (rebuilt : GraphStore.fromReduced red = some (reduced, report)) : reduced.Settled := by
  obtain ⟨_, comp, _, reduces', fused, _, _, rebuilt', interned, stored⟩ :=
    reduceWithMode_rebuilds find topological inside mode
  obtain rfl := Option.some.inj (reduces.symm.trans reduces')
  obtain rfl := (Prod.mk.inj (Option.some.inj (rebuilt.symm.trans rebuilt'))).1
  refine ⟨interned, fun key member => ?_⟩
  rw [stored] at member
  obtain ⟨source, present, rfl⟩ := quotient_mem member
  rw [NodeKey.wired_rewire, NodeKey.ordered_withInputs]
  obtain ⟨e, _, built⟩ := fused.rebuilt_of_mem present
  cases built with
  | boundary lookup _ template =>
    rw [NodeKey.ordered_withInputs]
    obtain ⟨kept, _⟩ := dedupedGraph_template (List.mem_of_getElem? lookup) template
    obtain ⟨original, recorded, rfl⟩ := live_mem kept
    rw [NodeKey.wired_rewire, NodeKey.ordered_withInputs]
    exact ordered original recorded
  | stage lookup _ staged _ =>
    intro k op found j refers
    obtain ⟨i, listed⟩ := lookup_exists (staged.length ▸ lookup_bound found)
    obtain ⟨node, known⟩ :=
      lookup_exists ((mem_compMembers _ _).mp (List.mem_of_getElem? listed)).1
    obtain ⟨_, found', _, resolve⟩ := staged.member k i node listed known
    obtain rfl := Option.some.inj (found.symm.trans found')
    obtain ⟨_, _, resolved⟩ := Enumerate.forall₂_partner resolve.flip refers
    rw [← Nat.zero_add k]
    exact resolved.1

/-- A reduced store is settled, whatever classes the engine reports. Fusion refers
to earlier members by construction. -/
theorem Session.reduce_settled {find : EngineGraph → Nat → Nat} {store reduced : GraphStore}
    (settled : store.Settled) {outputs : Option (List NodeId)} {mode : FusionMode}
    (done : Session.reduce store outputs mode (EggEngine.canonicalize find) = some reduced) :
    reduced.Settled := by
  have rebuilt {outs : List NodeId} (inside : ∀ o ∈ outs, o < store.nodes.length) {red : Reduced}
      (reduces : reduceWithMode store.nodes outs (EggEngine.canonicalize find) mode = some red)
      {result : GraphStore × ReductionReport}
      (built : GraphStore.fromReduced red = some result) : result.1.Settled :=
    fromReduced_settled settled.interned.earlier inside settled.ordered reduces built
  cases outputs with
  | none =>
    simp only [Session.reduce, GraphStore.reduceWith, Option.map_eq_some_iff,
      Option.bind_eq_bind, Option.bind_eq_some_iff] at done
    obtain ⟨result, ⟨red, reduces, built⟩, rfl⟩ := done
    exact rebuilt settled.interned.inside reduces built
  | some outs =>
    by_cases inside : ∀ o ∈ outs, o < store.nodes.length
    · obtain ⟨red, _, answer, reduces, _, _, _, built, _⟩ :=
        reduceWithMode_rebuilds find settled.interned.earlier inside mode
      simp only [Session.reduce, GraphStore.reduceWithOutputs_eq inside reduces built,
        Option.some.injEq] at done
      exact done ▸ rebuilt inside reduces built
    · have refused : ∃ bad, outs.find? (fun o => decide (store.nodes.length ≤ o)) = some bad := by
        rw [← Option.isSome_iff_exists, List.find?_isSome]
        simpa using inside
      obtain ⟨bad, found⟩ := refused
      simp [Session.reduce, GraphStore.reduceWithOutputs, found] at done

namespace Serialize.Reader

open Parsing

/-- A member reference that was read is one of an earlier member. The reader
refuses all others. -/
theorem stageRef_earlier {index j : Nat} {data rest : List UInt8}
    (read : stageRef index data = .ok (.member j, rest)) : j < index := by
  simp only [stageRef, bind_ok_iff] at read
  obtain ⟨tag, _, _, v, _, _, read⟩ := read
  split at read
  · cases (pure_ok_iff.mp read).1
  · split at read
    · split at read
      · cases read
      · obtain ⟨same, _⟩ := pure_ok_iff.mp read
        obtain rfl := StageRef.member.inj same
        exact Nat.lt_of_not_le (by assumption)
    · cases read

/-- What the reader makes of a node record refers to earlier members. -/
theorem node_ordered {index : Nat} {data rest : List UInt8} {key : NodeKey}
    (read : node index data = .ok (key, rest)) : key.Ordered := by
  cases key with
  | stage ids members =>
    have listed : ∃ count front back, repeated stageOp 0 count front = .ok (members, back) := by
      simp only [node, bind_ok_iff] at read
      obtain ⟨tag, _, _, read⟩ := read
      repeat' split at read
      · simp only [bind_ok_iff, pure_ok_iff] at read
        obtain ⟨_, _, _, _, _, _, same, _⟩ := read
        cases same
      · simp only [bind_ok_iff, pure_ok_iff] at read
        obtain ⟨_, _, _, _, _, _, _, _, _, same, _⟩ := read
        cases same
      · simp only [bind_ok_iff, pure_ok_iff] at read
        obtain ⟨_, _, _, _, _, _, _, _, _, same, _⟩ := read
        cases same
      · simp only [bind_ok_iff, pure_ok_iff] at read
        obtain ⟨_, _, _, _, _, _, _, _, _, same, _⟩ := read
        cases same
      · simp only [bind_ok_iff, pure_ok_iff] at read
        obtain ⟨_, _, _, n, _, _, found, _, listed, same, _⟩ := read
        obtain ⟨rfl, rfl⟩ := NodeKey.stage.inj same
        exact ⟨n, _, _, listed⟩
      · cases read
    obtain ⟨count, front, back, listed⟩ := listed
    intro k op lookup j refers
    obtain ⟨_, _, one⟩ := repeated_ok listed lookup
    simp only [stageOp, bind_ok_iff, pure_ok_iff] at one
    obtain ⟨token, _, _, n, _, _, refs, _, all, rfl, _⟩ := one
    obtain ⟨i, found⟩ := List.mem_iff_getElem?.mp refers
    obtain ⟨_, _, last⟩ := repeated_ok all found
    rw [← Nat.zero_add k]
    exact stageRef_earlier last
  | _ => trivial

end Serialize.Reader

/-- A decoded store is settled: the reader checks every reference before it
interns the record. -/
theorem Serialize.deserialize_settled {data : List UInt8} {store : GraphStore}
    (decoded : deserialize data = .ok store) : store.Settled := by
  obtain ⟨rest, read⟩ := deserialize_ok_iff.mp decoded
  obtain ⟨records, outs, interned, created, blob, keys, marks⟩ := Reader.graph_ok_iff.mp read
  have numbered : Numbered records records.length interned created := by
    simpa using (numbered_new records).addKeys rfl keys
  obtain ⟨rfl, inside⟩ := GraphStore.markOutputs_some marks
  refine ⟨numbered.interned.marked inside, fun key member => ?_⟩
  obtain ⟨id, stored⟩ := List.mem_iff_getElem?.mp member
  obtain ⟨i, _, recorded⟩ := numbered.asked id key stored
  obtain ⟨count, front, back, listed⟩ := Reader.blob_ok blob
  obtain ⟨_, _, found⟩ := Reader.repeated_ok listed recorded
  exact Reader.node_ordered found

/-! ## What every reducer keeps -/

/-- A topological canonical arena that the map and the table point into. It holds
between any two requests, also after refusals. -/
structure IncrementalReducer.Settled (reducer : IncrementalReducer) : Prop where
  earlier : Topological reducer.canonNodes
  ordered : ∀ key ∈ reducer.canonNodes, key.Ordered
  map : ∀ c ∈ reducer.map, c < reducer.canonNodes.length
  table : ∀ key id, Table.get? NodeKey.eq reducer.canonTable key = some id →
    id < reducer.canonNodes.length

namespace IncrementalReducer

/-- A new reducer is settled. -/
theorem settled_new : Settled new where
  earlier := topological_nil
  ordered := by simp [new]
  map := by simp [new]
  table := by
    intro key id stored
    have absent : Table.get? NodeKey.eq (new : IncrementalReducer).canonTable key = none := rfl
    rw [absent] at stored
    cases stored

variable {reducer next : IncrementalReducer} {key : NodeKey} {id : NodeId}

/-- A key is answered with an input or a stored node, or it is appended. In the
first two cases nothing changes. -/
theorem canonicalize_cases (done : reducer.canonicalize key = some (id, next)) :
    (next = reducer ∧ (id ∈ key.inputs ∨
        ∃ other, Table.get? NodeKey.eq reducer.canonTable other = some id)) ∨
      (id = reducer.canonNodes.length ∧ next = { reducer with
        canonNodes := reducer.canonNodes ++ [key]
        canonTable := (key, reducer.canonNodes.length) :: reducer.canonTable }) := by
  have consed (did : reducer.hashCons key = (id, next)) :
      (next = reducer ∧ (id ∈ key.inputs ∨
        ∃ other, Table.get? NodeKey.eq reducer.canonTable other = some id)) ∨
      (id = reducer.canonNodes.length ∧ next = { reducer with
        canonNodes := reducer.canonNodes ++ [key]
        canonTable := (key, reducer.canonNodes.length) :: reducer.canonTable }) := by
    cases stored : reducer.lookup key with
    | some old =>
      rw [hashCons_hit stored] at did
      obtain ⟨rfl, rfl⟩ := Prod.mk.inj did
      exact Or.inl ⟨rfl, Or.inr ⟨key, stored⟩⟩
    | none =>
      rw [hashCons_miss stored] at did
      obtain ⟨rfl, rfl⟩ := Prod.mk.inj did
      exact Or.inr ⟨rfl, rfl⟩
  cases key with
  | op name params inputs =>
    by_cases identity : (NodeKey.op name params inputs).token ∈ identityTokens
    · simp only [canonicalize, List.contains_iff_mem, identity, if_true, Option.bind_eq_bind,
        Option.bind_eq_some_iff, Option.some.injEq, Prod.mk.injEq] at done
      obtain ⟨first, found, rfl, rfl⟩ := done
      exact Or.inl ⟨rfl, Or.inl (List.mem_of_getElem? found)⟩
    · simp only [canonicalize, List.contains_iff_mem, identity, if_false] at done
      split at done
      · split at done
        · split at done
          · rename_i a b _ old stored
            obtain ⟨rfl, rfl⟩ := Prod.mk.inj (Option.some.inj done)
            refine Or.inl ⟨rfl, Or.inr ?_⟩
            rw [findSymmetric] at stored
            split at stored
            · obtain rfl := Option.some.inj stored
              exact ⟨_, by assumption⟩
            · exact ⟨_, stored⟩
          · exact consed (Option.some.inj done)
        · exact consed (Option.some.inj done)
      · exact consed (Option.some.inj done)
  | _ => exact consed (Option.some.inj done)

/-- Canonicalizing a key keeps the reducer settled, and its answer is an id of the
canonical arena. -/
theorem Settled.canonicalize (settled : reducer.Settled) (ordered : key.Ordered)
    (inside : ∀ x ∈ key.inputs, x < reducer.canonNodes.length)
    (done : reducer.canonicalize key = some (id, next)) :
    { next with map := next.map ++ [id] }.Settled := by
  have extended {nodes : List NodeKey} {map : List NodeId}
      (grows : reducer.canonNodes.length ≤ nodes.length) (same : map = reducer.map)
      (bound : id < nodes.length) : ∀ c ∈ map ++ [id], c < nodes.length := by
    intro c member
    rcases List.mem_append.mp member with old | last
    · exact (settled.map c (same ▸ old)).trans_le grows
    · exact List.mem_singleton.mp last ▸ bound
  rcases canonicalize_cases done with ⟨rfl, known⟩ | ⟨rfl, rfl⟩
  · refine ⟨settled.earlier, settled.ordered, extended le_rfl rfl ?_, settled.table⟩
    rcases known with read | ⟨other, stored⟩
    · exact inside id read
    · exact settled.table other id stored
  · have grows : reducer.canonNodes.length ≤ (reducer.canonNodes ++ [key]).length := by simp
    have last : reducer.canonNodes.length < (reducer.canonNodes ++ [key]).length := by simp
    refine ⟨(topological_snoc _ _).mpr ⟨settled.earlier, inside⟩, ?_, extended grows rfl last, ?_⟩
    · intro other member
      rcases List.mem_append.mp member with old | fresh
      · exact settled.ordered other old
      · exact List.mem_singleton.mp fresh ▸ ordered
    · intro other c stored
      rw [Table.get?_cons] at stored
      split at stored
      · exact Option.some.inj stored ▸ last
      · exact (settled.table other c stored).trans_le grows

/-- Translated ids are ids of the map, and so of the canonical arena. -/
theorem translate_mem {map ids found : List NodeId} (done : translate map ids = .ok found) :
    ∀ c ∈ found, c ∈ map := by
  induction ids generalizing found with
  | nil =>
    obtain rfl : [] = found := by simpa [translate, pure, Except.pure] using done
    simp
  | cons i rest ih =>
    cases lookup : map[i]? with
    | none => simp [translate, lookup, bind, Except.bind] at done
    | some canon =>
      cases others : translate map rest with
      | error bad =>
        rw [translate] at others
        simp [translate, lookup, others, bind, Except.bind] at done
      | ok later =>
        have kept := ih others
        rw [translate] at others
        obtain rfl : canon :: later = found := by
          simpa [translate, lookup, others, bind, Except.bind, pure, Except.pure] using done
        intro c member
        rcases List.mem_cons.mp member with rfl | member
        · exact List.mem_of_getElem? lookup
        · exact kept c member

/-- The loop of a step keeps the reducer settled, also when it stops at a bad
id. -/
theorem Settled.consume {delta : List NodeKey} (settled : reducer.Settled)
    (ordered : ∀ key ∈ delta, key.Ordered) {result : Except BadNodeId Unit}
    (done : consume delta reducer = some (result, next)) : next.Settled := by
  induction delta generalizing reducer with
  | nil =>
    obtain ⟨_, rfl⟩ := Prod.mk.inj (Option.some.inj done)
    exact settled
  | cons key rest ih =>
    rw [IncrementalReducer.consume] at done
    cases translated : translate reducer.map key.inputs with
    | error bad =>
      rw [translated] at done
      obtain ⟨_, rfl⟩ := Prod.mk.inj (Option.some.inj done)
      exact settled
    | ok inputs =>
      simp only [translated, Option.bind_eq_bind, Option.bind_eq_some_iff] at done
      obtain ⟨⟨id, middle⟩, canonical, rest_done⟩ := done
      refine ih (settled.canonicalize ?_ ?_ canonical)
        (fun other member => ordered other (List.mem_cons_of_mem key member)) rest_done
      · exact (key.ordered_withInputs inputs).mpr (ordered key List.mem_cons_self)
      · intro x member
        exact settled.map x (translate_mem translated x (NodeKey.mem_inputs_withInputs member))

/-- A step keeps the reducer settled, also when it is refused in the middle of its
delta. -/
theorem Settled.step {delta : List NodeKey} (settled : reducer.Settled)
    (ordered : ∀ key ∈ delta, key.Ordered) {result : Except BadNodeId Nat}
    (done : reducer.step delta = some (result, next)) : next.Settled := by
  simp only [IncrementalReducer.step, Option.bind_eq_bind, Option.bind_eq_some_iff] at done
  obtain ⟨⟨outcome, middle⟩, consumed, done⟩ := done
  have kept := settled.consume ordered consumed
  cases outcome with
  | error bad =>
    obtain ⟨_, rfl⟩ := Prod.mk.inj (Option.some.inj done)
    exact kept
  | ok _ =>
    obtain ⟨_, rfl⟩ := Prod.mk.inj (Option.some.inj done)
    exact ⟨kept.earlier, kept.ordered, kept.map, kept.table⟩

/-- What a settled reducer finalizes is a settled store, whatever classes the
engine reports. -/
theorem Settled.finalize {find : EngineGraph → Nat → Nat} (settled : reducer.Settled)
    {outs : List NodeId} {mode : FusionMode} {red : Reduced}
    (done : reducer.finalize outs (EggEngine.canonicalize find) mode = some (.ok red))
    {result : GraphStore × ReductionReport} (built : GraphStore.fromReduced red = some result) :
    result.1.Settled := by
  rw [IncrementalReducer.finalize] at done
  cases translated : translate reducer.map outs with
  | error bad => simp [translated] at done
  | ok found =>
    simp only [translated, Option.bind_eq_bind, Option.bind_eq_some_iff, Option.some.injEq,
      Except.ok.injEq] at done
    obtain ⟨_, reduces, rfl⟩ := done
    exact fromReduced_settled settled.earlier
      (fun o member => settled.map o (translate_mem translated o member)) settled.ordered reduces
      built

end IncrementalReducer

/-! ## Runs -/

namespace Session

variable {session : Session} {reducer : IncrementalReducer} {store : GraphStore}

/-- Every store and every usable reducer is settled. A reducer that panicked is
not usable and nothing is asked of it. -/
structure Settled (session : Session) : Prop where
  stores : ∀ store ∈ session.stores, store.Settled
  reducers : ∀ reducer, some reducer ∈ session.reducers → reducer.Settled

/-- A session without stores is settled. -/
theorem settled_new : new.Settled where
  stores := by simp [new]
  reducers := by simp [new]

/-- A settled store may be added. Where none was made nothing changes. -/
theorem Settled.addStore (settled : session.Settled) {added : Option GraphStore}
    (kept : ∀ store ∈ added, store.Settled) : (session.addStore added).Settled := by
  cases added with
  | none => exact settled
  | some store =>
    refine ⟨fun other member => ?_, settled.reducers⟩
    rcases List.mem_append.mp member with old | fresh
    · exact settled.stores other old
    · exact List.mem_singleton.mp fresh ▸ kept store rfl

/-- A settled reducer may take a slot, and a panic may empty it. -/
theorem Settled.setReducer (settled : session.Settled) (r : Nat) {after : Option IncrementalReducer}
    (kept : ∀ reducer ∈ after, reducer.Settled) :
    { session with reducers := session.reducers.set r after }.Settled := by
  refine ⟨settled.stores, fun reducer member => ?_⟩
  rcases List.mem_or_eq_of_mem_set member with old | rfl
  · exact settled.reducers reducer old
  · exact kept reducer rfl

/-- A step over a settled store keeps the reducer settled. -/
theorem step_settled (settled : reducer.Settled) (kept : store.Settled)
    {result : Except BadNodeId Nat} {next : IncrementalReducer}
    (done : step reducer store = some (result, next)) : next.Settled :=
  settled.step (fun key member => kept.ordered key (List.mem_of_mem_drop member)) done

/-- Finalizing leaves a settled reducer and, when it succeeds, a settled store. -/
theorem finalize_settled (find : EngineGraph → Nat → Nat) (settled : reducer.Settled)
    (kept : store.Settled) (outputs : Option (List NodeId)) (mode : FusionMode) :
    (∀ reduced ∈ (finalize reducer store outputs mode (EggEngine.canonicalize find)).1,
        reduced.Settled) ∧
      ∀ next ∈ (finalize reducer store outputs mode (EggEngine.canonicalize find)).2,
        next.Settled := by
  rw [finalize]
  split
  · exact ⟨by simp, fun next same => Option.some.inj same ▸ settled⟩
  · cases stepped : step reducer store with
    | none => exact ⟨by simp, by simp⟩
    | some result =>
      obtain ⟨outcome, next⟩ := result
      have usable := step_settled settled kept stepped
      cases outcome with
      | error bad => exact ⟨by simp, fun other same => Option.some.inj same ▸ usable⟩
      | ok _ =>
        simp only
        cases finalized : next.finalize (outputs.getD store.outputs) (EggEngine.canonicalize find)
            mode with
        | none => exact ⟨by simp, by simp⟩
        | some answer =>
          cases answer with
          | error bad => exact ⟨by simp, fun other same => Option.some.inj same ▸ usable⟩
          | ok red =>
            simp only
            cases built : GraphStore.fromReduced red with
            | none => exact ⟨by simp, by simp⟩
            | some result =>
              exact ⟨fun reduced same => Option.some.inj same ▸ usable.finalize finalized built,
                fun other same => Option.some.inj same ▸ usable⟩

/-- One request keeps the session settled, by the kinds of requests. A refused or
failed one changes no store. -/
theorem Settled.perform (settled : session.Settled) (request : Request) :
    (session.perform request).Settled := by
  cases request with
  | newStore =>
    exact settled.addStore (fun store fresh => Option.some.inj fresh ▸ GraphStore.settled_new)
  | newReducer =>
    refine ⟨settled.stores, fun reducer member => ?_⟩
    rcases List.mem_append.mp member with old | fresh
    · exact settled.reducers reducer old
    · obtain rfl := Option.some.inj (List.mem_singleton.mp fresh)
      exact IncrementalReducer.settled_new
  | call s call exposed =>
    rw [Session.perform]
    cases found : session.stores[s]? with
    | none => exact settled
    | some store =>
      have kept := (settled.stores store (List.mem_of_getElem? found)).perform exposed
      refine ⟨fun other member => ?_, settled.reducers⟩
      rcases List.mem_or_eq_of_mem_set member with old | rfl
      · exact settled.stores other old
      · exact kept
  | reduce s outputs mode find =>
    rw [Session.perform]
    cases found : session.stores[s]? with
    | none => exact settled
    | some store =>
      have kept := settled.stores store (List.mem_of_getElem? found)
      exact settled.addStore (fun reduced done => reduce_settled kept done)
  | step r s =>
    rw [Session.perform]
    split
    · rename_i reducer store held found
      refine settled.setReducer r (fun next done => ?_)
      obtain ⟨⟨result, _⟩, stepped, rfl⟩ := Option.map_eq_some_iff.mp done
      exact step_settled (settled.reducers reducer (List.mem_of_getElem? held))
        (settled.stores store (List.mem_of_getElem? found)) stepped
    · exact settled
  | finalize r s outputs mode find =>
    rw [Session.perform]
    split
    · rename_i reducer store held found
      obtain ⟨added, usable⟩ := finalize_settled find
        (settled.reducers reducer (List.mem_of_getElem? held))
        (settled.stores store (List.mem_of_getElem? found)) outputs mode
      exact ⟨(settled.addStore added).stores, (settled.setReducer r usable).reducers⟩
    · exact settled
  | deserialize data =>
    refine settled.addStore (fun store done => ?_)
    cases decoded : Serialize.deserialize data with
    | error bad => simp [decoded, Except.toOption] at done
    | ok result =>
      obtain rfl : result = store := by simpa [decoded, Except.toOption] using done
      exact Serialize.deserialize_settled decoded

/-- Whatever was requested, every store is settled. Claims about stores of a
session start from here. -/
theorem settled_run (requests : List Request) : (run requests).Settled := by
  have kept (session : Session) (settled : session.Settled) :
      (requests.foldl Session.perform session).Settled := by
    induction requests generalizing session with
    | nil => exact settled
    | cons request rest ih => exact ih _ (settled.perform request)
  exact kept new settled_new

end Session

end GraphedCore
