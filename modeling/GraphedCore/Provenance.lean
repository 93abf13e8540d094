import GraphedCore.Compiling
import GraphedCore.Identity

/-!
# Where nodes come from

A session records, reduces, reads back and reduces again. Whatever the requests are, no node
is made up on the way: a node is one that a call recorded or that a blob held, over other
inputs, or it is a stage put together from such ops. A property of single nodes that does not
look at inputs therefore holds everywhere as soon as it holds of what is brought in.
-/

namespace GraphedCore

open Dag Wired StageFusion

/-! ## Nodes of a reduction -/

/-- A node of the reduced list is a node of the arena over other inputs, or a
stage of its ops. -/
inductive Derived (nodes : List NodeKey) : NodeKey → Prop
  | kept {source : NodeKey} (ids : List NodeId) : source ∈ nodes →
      Derived nodes (source.withInputs ids)
  | fused (inputs : List NodeId) {members : List StageOp} :
      (∀ op ∈ members, ∃ name params ids, NodeKey.op name params ids ∈ nodes ∧
        op.token = (NodeKey.op name params ids).token) →
      Derived nodes (.stage inputs members)

section Reductions

variable {find : EngineGraph → Nat → Nat} {nodes : List NodeKey} {outputs : List NodeId}
  {comp : Nat → Nat} {red : Reduced} {key : NodeKey}

/-- A member of a stage carries the token of a node that may be fused. -/
theorem Fused.members_inner {graph : EngineGraph} {table : List (String × NodeKey)}
    (fused : Fused graph table comp red) {e : Nat} (exit : Exit graph comp e) {top : EngineNode}
    (lookup : graph.nodes[e]? = some top) (inner : top.boundary = false) {slots : List Nat}
    {members : List StageOp} (staged : Staged graph comp (compMembers (ids graph comp) (comp e))
      slots 0 (compMembers (ids graph comp) (comp e)) members) :
    ∀ op ∈ members, ∃ node ∈ graph.nodes, node.boundary = false ∧ op.token = node.token := by
  intro op member
  obtain ⟨k, found⟩ := List.mem_iff_getElem?.mp member
  obtain ⟨i, listed⟩ := lookup_exists (staged.length ▸ lookup_bound found)
  obtain ⟨inside, same⟩ := (mem_compMembers _ _).mp (List.mem_of_getElem? listed)
  obtain ⟨node, known⟩ := lookup_exists inside
  obtain ⟨_, found', token, _⟩ := staged.member k i node listed known
  obtain rfl := Option.some.inj (found.symm.trans found')
  refine ⟨node, List.mem_of_getElem? known, ?_, token⟩
  -- a boundary would be alone, and then it would be the exit
  by_contra boundary
  rw [Bool.not_eq_false] at boundary
  have alone := fused.components.boundary_component known boundary exit.1 same.symm
  obtain rfl := Option.some.inj (lookup.symm.trans (alone ▸ known))
  rw [inner] at boundary
  cases boundary

/-- Between the passes, a node that may be fused carries the token of an op. -/
theorem dedupedGraph_op {node : EngineNode}
    (member : node ∈ (dedupedGraph find nodes outputs).nodes) (inner : node.boundary = false) :
    ∃ name params ids, NodeKey.op name params ids ∈ nodes ∧
      node.token = (NodeKey.op name params ids).token := by
  obtain ⟨key, live, token, boundary, _⟩ := dedupedGraph_mem member
  obtain ⟨source, recorded, rfl⟩ := live_mem live
  rw [inner, NodeKey.wired_rewire, NodeKey.isBoundary_withInputs] at boundary
  obtain ⟨name, params, ids, rfl⟩ := NodeKey.isBoundary_false boundary.symm
  exact ⟨name, params, ids, recorded, token⟩

/-- Every node of a fused graph is derived from the arena: a boundary over other
inputs, or a stage of ops of the arena. -/
theorem fused_derived
    (fused : Fused (dedupedGraph find nodes outputs) (templates (live nodes outputs)) comp red)
    (member : key ∈ red.nodes) : Derived nodes key := by
  obtain ⟨e, exit, built⟩ := fused.rebuilt_of_mem member
  cases built with
  | boundary lookup _ template =>
    obtain ⟨kept, _⟩ := dedupedGraph_template (List.mem_of_getElem? lookup) template
    obtain ⟨source, recorded, rfl⟩ := live_mem kept
    rw [NodeKey.wired_rewire, NodeKey.withInputs_withInputs]
    exact .kept _ recorded
  | stage lookup inner staged _ =>
    apply Derived.fused
    intro op member
    obtain ⟨node, known, fusible, token⟩ := fused.members_inner exit lookup inner staged op member
    obtain ⟨name, params, ids, recorded, spelled⟩ := dedupedGraph_op known fusible
    exact ⟨name, params, ids, recorded, token.trans spelled⟩

end Reductions

/-! ## What is inherited -/

/-- A property of nodes that does not look at inputs, and that a stage takes over
from the ops that it is put together from. -/
structure Hereditary (P : NodeKey → Prop) : Prop where
  rewired : ∀ (key : NodeKey) (ids : List NodeId), P key → P (key.withInputs ids)
  fused : ∀ (inputs : List NodeId) (members : List StageOp),
    (∀ op ∈ members, ∃ name params ids, P (.op name params ids) ∧
      op.token = (NodeKey.op name params ids).token) → P (.stage inputs members)

section Hereditary

variable {P : NodeKey → Prop} {find : EngineGraph → Nat → Nat} {nodes : List NodeKey}
  {outs : List NodeId} {mode : FusionMode} {red : Reduced}

/-- What passes on to derived nodes holds of them, through any number of
reductions. -/
theorem Hereditary.derived (inherits : Hereditary P) (all : ∀ key ∈ nodes, P key) {key : NodeKey}
    (derived : Derived nodes key) : P key := by
  cases derived with
  | kept ids recorded => exact inherits.rewired _ ids (all _ recorded)
  | fused inputs spelled =>
    apply inherits.fused
    intro op member
    obtain ⟨name, params, ids, recorded, token⟩ := spelled op member
    exact ⟨name, params, ids, all _ recorded, token⟩

/-- What all nodes of an arena have, all nodes of the store rebuilt from its
reduction have. -/
theorem Hereditary.fromReduced (inherits : Hereditary P) (topological : Topological nodes)
    (inside : ∀ o ∈ outs, o < nodes.length) (all : ∀ key ∈ nodes, P key)
    (reduces : reduceWithMode nodes outs (EggEngine.canonicalize find) mode = some red)
    {result : GraphStore × ReductionReport} (rebuilt : GraphStore.fromReduced red = some result) :
    ∀ key ∈ result.1.nodes, P key := by
  obtain ⟨_, comp, _, reduces', fused, _, _, rebuilt', _, stored⟩ :=
    reduceWithMode_rebuilds find topological inside mode
  obtain rfl := Option.some.inj (reduces.symm.trans reduces')
  obtain rfl := Option.some.inj (rebuilt.symm.trans rebuilt')
  intro key member
  rw [stored] at member
  obtain ⟨source, present, rfl⟩ := quotient_mem member
  exact inherits.rewired _ _ (inherits.derived all (fused_derived fused present))

/-- What passes on to derived nodes holds of a reduced store when it holds of the
store. -/
theorem Hereditary.reduce (inherits : Hereditary P) {store reduced : GraphStore}
    (interned : store.Interned) (all : ∀ key ∈ store.nodes, P key)
    {outputs : Option (List NodeId)}
    (done : Session.reduce store outputs mode (EggEngine.canonicalize find) = some reduced) :
    ∀ key ∈ reduced.nodes, P key := by
  cases outputs with
  | none =>
    simp only [Session.reduce, GraphStore.reduceWith, Option.map_eq_some_iff,
      Option.bind_eq_bind, Option.bind_eq_some_iff] at done
    obtain ⟨result, ⟨red, reduces, built⟩, rfl⟩ := done
    exact inherits.fromReduced interned.earlier interned.inside all reduces built
  | some outs =>
    by_cases inside : ∀ o ∈ outs, o < store.nodes.length
    · obtain ⟨red, _, answer, reduces, _, _, _, built, _⟩ :=
        reduceWithMode_rebuilds find interned.earlier inside mode
      simp only [Session.reduce, GraphStore.reduceWithOutputs_eq inside reduces built,
        Option.some.injEq] at done
      exact done ▸ inherits.fromReduced interned.earlier inside all reduces built
    · have refused : ∃ bad, outs.find? (fun o => decide (store.nodes.length ≤ o)) = some bad := by
        rw [← Option.isSome_iff_exists, List.find?_isSome]
        simpa using inside
      obtain ⟨bad, found⟩ := refused
      simp [Session.reduce, GraphStore.reduceWithOutputs, found] at done

namespace IncrementalReducer

variable {reducer next : IncrementalReducer}

/-- What a reducer holds after a delta it held before, or it is a node of the
delta. -/
theorem consume_keeps (inherits : Hereditary P) {delta : List NodeKey}
    (all : ∀ key ∈ reducer.canonNodes, P key) (fresh : ∀ key ∈ delta, P key)
    {result : Except BadNodeId Unit} (done : consume delta reducer = some (result, next)) :
    ∀ key ∈ next.canonNodes, P key := by
  induction delta generalizing reducer with
  | nil =>
    obtain ⟨_, rfl⟩ := Prod.mk.inj (Option.some.inj done)
    exact all
  | cons key rest ih =>
    rw [IncrementalReducer.consume] at done
    cases translated : translate reducer.map key.inputs with
    | error bad =>
      rw [translated] at done
      obtain ⟨_, rfl⟩ := Prod.mk.inj (Option.some.inj done)
      exact all
    | ok inputs =>
      simp only [translated, Option.bind_eq_bind, Option.bind_eq_some_iff] at done
      obtain ⟨⟨id, middle⟩, canonical, later⟩ := done
      have kept : ∀ other ∈ middle.canonNodes, P other := by
        rcases canonicalize_cases canonical with ⟨rfl, _⟩ | ⟨_, rfl⟩
        · exact all
        · intro other member
          rcases List.mem_append.mp member with old | last
          · exact all other old
          · rw [List.mem_singleton.mp last]
            exact inherits.rewired _ _ (fresh key List.mem_cons_self)
      refine ih ?_ (fun other member => fresh other (List.mem_cons_of_mem key member)) later
      exact kept

/-- A step adds keys of its delta over other inputs, and nothing else. So the
canonical arena brings in nothing new. -/
theorem step_keeps (inherits : Hereditary P) {delta : List NodeKey}
    (all : ∀ key ∈ reducer.canonNodes, P key) (fresh : ∀ key ∈ delta, P key)
    {result : Except BadNodeId Nat} (done : reducer.step delta = some (result, next)) :
    ∀ key ∈ next.canonNodes, P key := by
  simp only [IncrementalReducer.step, Option.bind_eq_bind, Option.bind_eq_some_iff] at done
  obtain ⟨⟨outcome, middle⟩, consumed, done⟩ := done
  have kept := consume_keeps inherits all fresh consumed
  cases outcome with
  | error bad =>
    obtain ⟨_, rfl⟩ := Prod.mk.inj (Option.some.inj done)
    exact kept
  | ok _ =>
    obtain ⟨_, rfl⟩ := Prod.mk.inj (Option.some.inj done)
    exact kept

/-- What a reducer finalizes is derived from its canonical arena, as a reduction
is from its store. -/
theorem finalize_keeps (inherits : Hereditary P) (settled : reducer.Settled)
    (all : ∀ key ∈ reducer.canonNodes, P key)
    (done : reducer.finalize outs (EggEngine.canonicalize find) mode = some (.ok red))
    {result : GraphStore × ReductionReport} (built : GraphStore.fromReduced red = some result) :
    ∀ key ∈ result.1.nodes, P key := by
  rw [IncrementalReducer.finalize] at done
  cases translated : translate reducer.map outs with
  | error bad => simp [translated] at done
  | ok found =>
    simp only [translated, Option.bind_eq_bind, Option.bind_eq_some_iff, Option.some.injEq,
      Except.ok.injEq] at done
    obtain ⟨_, reduces, rfl⟩ := done
    exact inherits.fromReduced settled.earlier
      (fun o member => settled.map o (translate_mem translated o member)) all reduces built

end IncrementalReducer

end Hereditary

/-! ## Runs -/

/-- The nodes that a request brings into a session: what a call records in a store
that is there and grants it an id, and what a blob holds. A refused call brings
nothing. -/
def Request.Brings (session : Session) (request : Request) (key : NodeKey) : Prop :=
  match request with
  | .call s recording _ => recording.key? = some key ∧ ∃ store, session.stores[s]? = some store ∧
      ∃ id, (recording.perform store).1 = .node id
  | .deserialize data => ∃ store, Serialize.deserialize data = .ok store ∧ key ∈ store.nodes
  | _ => False

/-- One of the requests brings the node into the session that the requests before
it made. -/
def Brought (requests : List Request) (key : NodeKey) : Prop :=
  ∃ before request after, requests = before ++ request :: after ∧
    request.Brings (Session.run before) key

/-- What was brought stays brought. -/
theorem Brought.snoc {requests : List Request} {key : NodeKey} (brought : Brought requests key)
    (last : Request) : Brought (requests ++ [last]) key := by
  obtain ⟨before, request, after, rfl, brings⟩ := brought
  exact ⟨before, request, after ++ [last], by simp, brings⟩

namespace Session

variable {P : NodeKey → Prop} {session : Session}

/-- All nodes of all stores and of all usable reducers have the property. -/
structure Holds (P : NodeKey → Prop) (session : Session) : Prop where
  stores : ∀ store ∈ session.stores, ∀ key ∈ store.nodes, P key
  reducers : ∀ reducer, some reducer ∈ session.reducers → ∀ key ∈ reducer.canonNodes, P key

/-- A session without stores holds nothing. -/
theorem holds_new (P : NodeKey → Prop) : Holds P new where
  stores := by simp [new]
  reducers := by simp [new]

/-- A store all of whose nodes qualify may be added. -/
theorem Holds.addStore (holds : Holds P session) {added : Option GraphStore}
    (kept : ∀ store ∈ added, ∀ key ∈ store.nodes, P key) : Holds P (session.addStore added) := by
  cases added with
  | none => exact holds
  | some store =>
    refine ⟨fun other member => ?_, holds.reducers⟩
    rcases List.mem_append.mp member with old | fresh
    · exact holds.stores other old
    · rw [List.mem_singleton.mp fresh]
      exact kept store rfl

/-- A reducer all of whose nodes qualify may take a slot. -/
theorem Holds.setReducer (holds : Holds P session) (r : Nat) {after : Option IncrementalReducer}
    (kept : ∀ reducer ∈ after, ∀ key ∈ reducer.canonNodes, P key) :
    Holds P { session with reducers := session.reducers.set r after } := by
  refine ⟨holds.stores, fun reducer member => ?_⟩
  rcases List.mem_or_eq_of_mem_set member with old | rfl
  · exact holds.reducers reducer old
  · exact kept reducer rfl

/-- A finalize steps first, so both its store and its reducer hold old nodes and
recorded ones. -/
theorem finalize_holds (inherits : Hereditary P) (find : EngineGraph → Nat → Nat)
    {reducer : IncrementalReducer} {store : GraphStore} (settled : reducer.Settled)
    (kept : store.Settled) (all : ∀ key ∈ reducer.canonNodes, P key)
    (recorded : ∀ key ∈ store.nodes, P key) (outputs : Option (List NodeId)) (mode : FusionMode) :
    (∀ reduced ∈ (finalize reducer store outputs mode (EggEngine.canonicalize find)).1,
        ∀ key ∈ reduced.nodes, P key) ∧
      ∀ next ∈ (finalize reducer store outputs mode (EggEngine.canonicalize find)).2,
        ∀ key ∈ next.canonNodes, P key := by
  rw [finalize]
  split
  · exact ⟨by simp, fun next same => Option.some.inj same ▸ all⟩
  · cases stepped : step reducer store with
    | none => exact ⟨by simp, by simp⟩
    | some result =>
      obtain ⟨outcome, next⟩ := result
      have usable := step_settled settled kept stepped
      have after : ∀ key ∈ next.canonNodes, P key := IncrementalReducer.step_keeps inherits all
        (fun key member => recorded key (List.mem_of_mem_drop member)) stepped
      cases outcome with
      | error bad => exact ⟨by simp, fun other same => Option.some.inj same ▸ after⟩
      | ok _ =>
        simp only
        cases finalized : next.finalize (outputs.getD store.outputs) (EggEngine.canonicalize find)
            mode with
        | none => exact ⟨by simp, by simp⟩
        | some answer =>
          cases answer with
          | error bad => exact ⟨by simp, fun other same => Option.some.inj same ▸ after⟩
          | ok red =>
            simp only
            cases built : GraphStore.fromReduced red with
            | none => exact ⟨by simp, by simp⟩
            | some result =>
              exact ⟨fun reduced same => Option.some.inj same ▸
                  IncrementalReducer.finalize_keeps inherits usable after finalized built,
                fun other same => Option.some.inj same ▸ after⟩

/-- One request. New nodes are brought by the request itself, or derived from what
the session holds. -/
theorem Holds.perform (holds : Holds P session) (inherits : Hereditary P)
    (settled : session.Settled) {request : Request}
    (brought : ∀ key, request.Brings session key → P key) :
    Holds P (session.perform request) := by
  cases request with
  | newStore =>
    rw [Session.perform]
    apply holds.addStore
    intro store fresh key member
    rw [← Option.some.inj fresh] at member
    simp [GraphStore.new] at member
  | newReducer =>
    refine ⟨holds.stores, fun reducer member => ?_⟩
    rcases List.mem_append.mp member with old | fresh
    · exact holds.reducers reducer old
    · obtain rfl := Option.some.inj (List.mem_singleton.mp fresh)
      simp [IncrementalReducer.new]
  | call s call exposed =>
    rw [Session.perform]
    cases found : session.stores[s]? with
    | none => exact holds
    | some store =>
      refine ⟨fun other member => ?_, holds.reducers⟩
      rcases List.mem_or_eq_of_mem_set member with old | rfl
      · exact holds.stores other old
      · intro key member
        rcases Call.mem_perform_granted member with old | ⟨asked, id, granted⟩
        · exact holds.stores store (List.mem_of_getElem? found) key old
        · exact brought key ⟨asked, store, found, id, granted⟩
  | reduce s outputs mode find =>
    rw [Session.perform]
    cases found : session.stores[s]? with
    | none => exact holds
    | some store =>
      have known := List.mem_of_getElem? found
      exact holds.addStore (fun reduced done =>
        inherits.reduce (settled.stores store known).interned (holds.stores store known) done)
  | step r s =>
    rw [Session.perform]
    split
    · rename_i reducer store held found
      refine holds.setReducer r (fun next done => ?_)
      obtain ⟨⟨result, _⟩, stepped, rfl⟩ := Option.map_eq_some_iff.mp done
      exact IncrementalReducer.step_keeps inherits
        (holds.reducers reducer (List.mem_of_getElem? held))
        (fun key member => holds.stores store (List.mem_of_getElem? found) key
          (List.mem_of_mem_drop member)) stepped
    · exact holds
  | finalize r s outputs mode find =>
    rw [Session.perform]
    split
    · rename_i reducer store held found
      have known := List.mem_of_getElem? found
      have used := List.mem_of_getElem? held
      obtain ⟨added, usable⟩ := finalize_holds inherits find (settled.reducers reducer used)
        (settled.stores store known) (holds.reducers reducer used) (holds.stores store known)
        outputs mode
      exact ⟨(holds.addStore added).stores, (holds.setReducer r usable).reducers⟩
    · exact holds
  | deserialize data =>
    rw [Session.perform]
    apply holds.addStore
    intro store done key member
    cases decoded : Serialize.deserialize data with
    | error bad => simp [decoded, Except.toOption] at done
    | ok result =>
      obtain rfl : result = store := by simpa [decoded, Except.toOption] using done
      exact brought key ⟨result, decoded, member⟩

/-- An inherited property of all nodes that are brought in is a property of all
nodes. The induction takes the last request off. -/
theorem holds_run (inherits : Hereditary P) (requests : List Request)
    (brought : ∀ key, Brought requests key → P key) : Holds P (run requests) := by
  induction requests using List.reverseRecOn with
  | nil => exact holds_new P
  | append_singleton earlier last ih =>
    have before := ih (fun key early => brought key (early.snoc last))
    rw [run, List.foldl_append, List.foldl_cons, List.foldl_nil]
    exact before.perform inherits (settled_run earlier)
      (fun key brings => brought key ⟨earlier, last, [], rfl, brings⟩)

/-! ## No node is made up -/

/-- A node that is brought in, up to its inputs, or a stage of ops that are
brought in. -/
inductive Descends (requests : List Request) : NodeKey → Prop
  | brought {origin : NodeKey} (ids : List NodeId) : Brought requests origin →
      Descends requests (origin.withInputs ids)
  | fused (inputs : List NodeId) {members : List StageOp} :
      (∀ op ∈ members, ∃ name params ids, Brought requests (.op name params ids) ∧
        op.token = (NodeKey.op name params ids).token) →
      Descends requests (.stage inputs members)

/-- Being descended from what was brought passes on to derived nodes. Stages of
such nodes are descended by their members. -/
theorem descends_hereditary (requests : List Request) : Hereditary (Descends requests) where
  rewired key ids descends := by
    cases descends with
    | brought _ origin =>
      rw [NodeKey.withInputs_withInputs]
      exact .brought ids origin
    | fused inputs spelled => exact .fused ids spelled
  fused inputs members spelled := by
    apply Descends.fused
    intro op member
    obtain ⟨name, params, ids, descends, token⟩ := spelled op member
    generalize same : NodeKey.op name params ids = key at descends
    cases descends with
    | @brought origin _ brings =>
      cases origin <;> simp only [NodeKey.withInputs, reduceCtorEq, NodeKey.op.injEq] at same
      obtain ⟨rfl, rfl, _⟩ := same
      exact ⟨_, _, _, brings, token⟩
    | fused inputs spelled => cases same

/-- Every node of every store comes from requests that were answered: what it is
was recorded or decoded, or is a stage over such nodes. -/
theorem descends_run (requests : List Request) : ∀ store ∈ (run requests).stores,
    ∀ key ∈ store.nodes, Descends requests key := by
  have brought : ∀ key, Brought requests key → Descends requests key := by
    intro key brings
    rw [← key.withInputs_inputs]
    exact .brought key.inputs brings
  exact (holds_run (descends_hereditary requests) requests brought).stores

/-- The stage of a reduced store comes from the op that was recorded. -/
theorem descends_run_of_reduced : ∃ store ∈ (run Serialize.reduceRequests).stores,
    NodeKey.stage [0] [⟨"op|neg", [.input 0]⟩] ∈ store.nodes ∧
      Descends Serialize.reduceRequests (.stage [0] [⟨"op|neg", [.input 0]⟩]) := by
  have reduced : ∃ store ∈ (run Serialize.reduceRequests).stores,
      NodeKey.stage [0] [⟨"op|neg", [.input 0]⟩] ∈ store.nodes := by decide +kernel
  obtain ⟨store, produced, member⟩ := reduced
  exact ⟨store, produced, member, descends_run Serialize.reduceRequests store produced _ member⟩

/-! ## Showing every store -/

/-- That a node can be shown passes on to derived nodes: the members of a new
stage are ops with tokens of their own. -/
theorem decodes_hereditary : Hereditary NodeKey.Decodes where
  rewired key ids decodes := by
    cases key with
    | stage => exact decodes
    | _ => trivial
  fused inputs members spelled := by
    intro op member
    obtain ⟨name, params, ids, _, token⟩ := spelled op member
    have parsed : parseOpToken (NodeKey.op name params ids).token =
        some ("op", name, params.canon) := parseOpToken_withParams (Or.inl rfl) name params
    rw [token, parsed]
    rfl

/-- The bindings can show every store of a session exactly when they can show what
its blobs held. What is recorded and what fusion writes can always be shown. -/
theorem nodes_shown_iff (requests : List Request) :
    (∀ store ∈ (run requests).stores, ∃ views, PyGraphStore.nodes store = .ok views) ↔
      ∀ data, Request.deserialize data ∈ requests → ∀ store,
        Serialize.deserialize data = .ok store → ∃ views, PyGraphStore.nodes store = .ok views := by
  simp only [PyGraphStore.nodes_ok_iff]
  constructor
  · intro shown data member store decoded
    obtain ⟨before, after, rfl⟩ := List.append_of_mem member
    -- the decoded store is the last one, and the later requests only extend it
    have added : (perform (run before) (.deserialize data)).stores[(run before).stores.length]? =
        some store := by
      simp [perform, addStore, decoded, Except.toOption]
    obtain ⟨grown, held, longer⟩ := extends_foldl added after
    have whole : run (before ++ .deserialize data :: after) =
        after.foldl perform (perform (run before) (.deserialize data)) := by
      rw [run, List.foldl_append, List.foldl_cons]
      rfl
    have decodes := shown grown (whole ▸ List.mem_of_getElem? held)
    intro key recorded
    exact decodes key (longer.nodes.subset recorded)
  · intro decodes
    have brought : ∀ key, Brought requests key → key.Decodes := by
      rintro key ⟨before, request, after, rfl, brings⟩
      cases request with
      | call s recording exposed =>
        obtain ⟨asked, _⟩ := brings
        cases recording with
        | addKey key => exact exposed.elim
        | markOutput id => cases asked
        | _ =>
          obtain rfl := Option.some.inj asked
          trivial
      | deserialize data =>
        obtain ⟨store, decoded, recorded⟩ := brings
        exact decodes data (by simp) store decoded key recorded
      | _ => exact brings.elim
    exact (holds_run decodes_hereditary requests brought).stores

end Session

end GraphedCore
