import GraphedCore.Elimination
import GraphedCore.RoundTrip
import GraphedCore.Stepping

/-!
# Compile requests

A compile request names its outputs. What it returns is made of the nodes that these reach, so
it is the same in every arena that holds these nodes in the same order, whatever else was
recorded among them or after them. Of the outputs it is the set that counts: their order and
their repetitions show in the order of the marks alone.
-/

namespace GraphedCore

open Dag Wired

/-- The same reduction, counted from an arena of another size. Only the first
count of a report sees the whole arena. -/
def recount (n : Nat) (result : GraphStore × ReductionReport) : GraphStore × ReductionReport :=
  (result.1, { result.2 with inputNodes := n })

/-! ## What is not reached -/

section Embedding

variable {nodes more : List NodeKey} {shift : Nat → Nat} {outs : List NodeId}

/-- An arena keeps the same wherever it stands. What is around it is dead and is
not looked at. -/
theorem deadCodeElimination_embedded (topological : Topological nodes)
    (inside : ∀ o ∈ outs, o < nodes.length) (topological' : Topological more)
    (embedded : Embedded nodes more shift) :
    deadCodeElimination more (outs.map shift) = deadCodeElimination nodes outs := by
  have inside' : ∀ o ∈ outs.map shift, o < more.length := by
    intro o member
    obtain ⟨old, present, rfl⟩ := List.mem_map.mp member
    obtain ⟨node, found⟩ := lookup_exists (inside old present)
    exact lookup_bound (embedded.copied old node found)
  obtain ⟨same, numbers⟩ := embedded.compact_eq topological inside
  rw [deadCodeElimination_eq topological' inside', deadCodeElimination_eq topological inside, same,
    numbers]

/-- A graph and a longer one that it lies in have one reduction, up to the count
of input nodes: dropping what is dead leaves the same nodes of both, and no later
pass sees more. -/
theorem reduceWithMode_embedded (topological : Topological nodes)
    (inside : ∀ o ∈ outs, o < nodes.length) (topological' : Topological more)
    (embedded : Embedded nodes more shift) (engine : RewriteEngine) (mode : FusionMode) :
    reduceWithMode more (outs.map shift) engine mode =
      (reduceWithMode nodes outs engine mode).map (fun red =>
        { red with report := { red.report with inputNodes := more.length } }) := by
  have dead := deadCodeElimination_eq topological inside
  have dead' := deadCodeElimination_embedded topological inside topological' embedded
  rw [dead] at dead'
  simp only [reduceWithMode, dead, dead', Option.bind_eq_bind, Option.bind_some]
  cases engine (toEngineGraph _ _) with
  | none => rfl
  | some canonical =>
    simp only [Option.bind_some]
    cases cse canonical with
    | none => rfl
    | some deduped =>
      simp only [Option.bind_some]
      cases stageFusion deduped (templates _) mode <;> rfl

/-- The count of input nodes passes through re-interning untouched. -/
theorem fromReduced_recount (red : Reduced) (n : Nat) :
    GraphStore.fromReduced { red with report := { red.report with inputNodes := n } } =
      (GraphStore.fromReduced red).map (recount n) := by
  simp only [GraphStore.fromReduced, Option.bind_eq_bind]
  cases GraphStore.fromReducedNodes red.nodes .new [] with
  | none => rfl
  | some result =>
    simp only [Option.bind_some]
    cases GraphStore.fromReducedOutputs result.2 red.outputs result.1 <;> rfl

/-- A store compiles the same where it stands in another one, for any engine. -/
theorem reduceWithOutputs_embedded {store store' : GraphStore} (interned : store.Interned)
    (interned' : store'.Interned) (embedded : Embedded store.nodes store'.nodes shift)
    (inside : ∀ o ∈ outs, o < store.nodes.length) (engine : RewriteEngine) (mode : FusionMode) :
    store'.reduceWithOutputs (outs.map shift) engine mode =
      (store.reduceWithOutputs outs engine mode).map (Except.map (recount store'.nodeCount)) := by
  have granted : outs.find? (fun o => decide (store.nodes.length ≤ o)) = none := by
    rw [List.find?_eq_none]
    intro o member
    simpa using inside o member
  have granted' : (outs.map shift).find? (fun o => decide (store'.nodes.length ≤ o)) = none := by
    rw [List.find?_eq_none]
    intro o member
    obtain ⟨old, present, rfl⟩ := List.mem_map.mp member
    obtain ⟨node, found⟩ := lookup_exists (inside old present)
    simpa using lookup_bound (embedded.copied old node found)
  simp only [GraphStore.reduceWithOutputs, granted, granted',
    reduceWithMode_embedded interned.earlier inside interned'.earlier embedded engine mode]
  cases reduceWithMode store.nodes outs engine mode with
  | none => rfl
  | some red =>
    simp only [Option.map_some, Option.bind_eq_bind, Option.bind_some, fromReduced_recount]
    cases GraphStore.fromReduced red <;> rfl

/-- A graph lies in every graph that continues it, at the same places and with the
same inputs. -/
theorem embedded_grown (longer : nodes <+: more) : Embedded nodes more id where
  increasing _ _ less _ := less
  copied i node lookup := by
    obtain ⟨rest, rfl⟩ := longer
    rw [id, List.getElem?_append_left (lookup_bound lookup), lookup, rewire_id]

end Embedding

/-! ## What is recorded later -/

namespace Session

variable {session : Session} {store : GraphStore} {s : Nat}

/-- A new store takes a new slot. -/
theorem addStore_lookup (found : session.stores[s]? = some store) (added : Option GraphStore) :
    (session.addStore added).stores[s]? = some store := by
  cases added with
  | none => exact found
  | some other =>
    rw [addStore, List.getElem?_append_left (lookup_bound found)]
    exact found

/-- A request keeps the nodes and the marks of every store in their places. -/
theorem extends_perform (found : session.stores[s]? = some store) (request : Request) :
    ∃ grown, (session.perform request).stores[s]? = some grown ∧ store.Extends grown := by
  cases request with
  | newStore => exact ⟨store, addStore_lookup found _, .refl store⟩
  | newReducer => exact ⟨store, found, .refl store⟩
  | call position call exposed =>
    rw [perform]
    cases held : session.stores[position]? with
    | none => exact ⟨store, found, .refl store⟩
    | some other =>
      by_cases same : position = s
      · obtain rfl := same
        obtain rfl := Option.some.inj (held.symm.trans found)
        exact ⟨_, List.getElem?_set_self (lookup_bound found), Call.extends_perform other call⟩
      · exact ⟨store, (List.getElem?_set_ne same).trans found, .refl store⟩
  | reduce position outputs mode find =>
    rw [perform]
    split
    · exact ⟨store, addStore_lookup found _, .refl store⟩
    · exact ⟨store, found, .refl store⟩
  | step r position =>
    rw [perform]
    split
    · exact ⟨store, found, .refl store⟩
    · exact ⟨store, found, .refl store⟩
  | finalize r position outputs mode find =>
    rw [perform]
    split
    · exact ⟨store, addStore_lookup found _, .refl store⟩
    · exact ⟨store, found, .refl store⟩
  | deserialize data => exact ⟨store, addStore_lookup found _, .refl store⟩

/-- A store of a session stays in its slot and only grows, whatever is requested
later. -/
theorem extends_foldl (found : session.stores[s]? = some store) (requests : List Request) :
    ∃ grown, (requests.foldl perform session).stores[s]? = some grown ∧ store.Extends grown := by
  induction requests generalizing session store with
  | nil => exact ⟨store, found, .refl store⟩
  | cons request rest ih =>
    obtain ⟨middle, held, first⟩ := extends_perform found request
    obtain ⟨grown, held', later⟩ := ih held
    exact ⟨grown, held', first.trans later⟩

/-- Whatever a session goes on to do, compiling what was recorded by now gives the
same reduced store and the same report but for the node count, for any engine and
in both modes. What the engine is handed does not change when nodes are added
behind. -/
theorem compile_unmoved (requests later : List Request) {s : Nat} {store : GraphStore}
    (found : (run requests).stores[s]? = some store) {outs : List NodeId}
    (inside : ∀ o ∈ outs, o < store.nodeCount) (engine : RewriteEngine) (mode : FusionMode) :
    ∃ grown, (run (requests ++ later)).stores[s]? = some grown ∧
      grown.reduceWithOutputs outs engine mode =
        (store.reduceWithOutputs outs engine mode).map
          (Except.map (recount grown.nodeCount)) := by
  obtain ⟨grown, held, longer⟩ := extends_foldl found later
  have held' : (run (requests ++ later)).stores[s]? = some grown := by
    rw [run, List.foldl_append]
    exact held
  have interned := ((settled_run requests).stores store (List.mem_of_getElem? found)).interned
  have interned' :=
    ((settled_run (requests ++ later)).stores grown (List.mem_of_getElem? held')).interned
  have same := reduceWithOutputs_embedded interned interned' (embedded_grown longer.nodes)
    inside engine mode
  rw [List.map_id] at same
  exact ⟨grown, held', same⟩

end Session

/-- The sum of two sources, recorded in a new store. -/
def sumRequests : List Request :=
  [.newStore, .call 0 (.addSource "x" (.new [])) trivial,
    .call 0 (.addSource "y" (.new [])) trivial, .call 0 (.addOp "add" [0, 1] (.new [])) trivial]

/-- The store of these calls, with its table written out, newest entry first. -/
def sumStore : GraphStore :=
  ⟨[.source "x" (.new []), .source "y" (.new []), .op "add" (.new []) [0, 1]],
    [(.op "add" (.new []) [0, 1], 2), (.source "y" (.new []), 1), (.source "x" (.new []), 0)], []⟩

/-- The session holds the store. -/
theorem sumRequests_stores : (Session.run sumRequests).stores[0]? = some sumStore := by
  decide +kernel

/-- A product of the sum is recorded later, and the sum is compiled as before. -/
theorem compile_unmoved_of_sum : ∃ grown : GraphStore,
    (Session.run (sumRequests ++ [.call 0 (.addOp "mul" [2, 2] (.new [])) trivial])).stores[0]? =
      some grown ∧
    grown.reduceWithOutputs [2] some .singleUse =
      (sumStore.reduceWithOutputs [2] some .singleUse).map
        (Except.map (recount grown.nodeCount)) :=
  Session.compile_unmoved sumRequests _ sumRequests_stores (by decide) some .singleUse

/-! ## What a reducer consumes later -/

namespace IncrementalReducer

variable {reducer next : IncrementalReducer} {nodes more : List NodeKey}

/-- Canonicalizing a key appends to the canonical arena or leaves it. -/
theorem canonicalize_grows {key : NodeKey} {id : NodeId}
    (done : reducer.canonicalize key = some (id, next)) :
    reducer.canonNodes <+: next.canonNodes := by
  rcases canonicalize_cases done with ⟨rfl, _⟩ | ⟨_, rfl⟩
  · exact List.prefix_refl _
  · exact List.prefix_append _ _

/-- Canonical nodes and mapped ids stay where they are, whatever is consumed
later. -/
theorem consume_grows (done : consume nodes reducer = some (.ok (), next)) :
    reducer.canonNodes <+: next.canonNodes ∧ reducer.map <+: next.map := by
  induction nodes generalizing reducer with
  | nil =>
    obtain ⟨_, rfl⟩ := Prod.mk.inj (Option.some.inj done)
    exact ⟨List.prefix_refl _, List.prefix_refl _⟩
  | cons key rest ih =>
    rw [consume] at done
    cases translated : translate reducer.map key.inputs with
    | error bad =>
      rw [translated] at done
      cases done
    | ok found =>
      simp only [translated, Option.bind_eq_bind, Option.bind_eq_some_iff] at done
      obtain ⟨⟨id, middle⟩, canonical, done⟩ := done
      obtain ⟨canon, map⟩ := ih done
      refine ⟨(canonicalize_grows canonical).trans canon, ?_⟩
      rw [← canonicalize_map canonical]
      exact (List.prefix_append _ _).trans map

/-- However a sequence of nodes was cut into steps, the reducer is what consuming
them leaves. -/
theorem steps_consume {deltas : List (List NodeKey)} {final : IncrementalReducer}
    (done : reducer.steps deltas = some (.ok final)) :
    ∃ next work, consume deltas.flatten reducer = some (.ok (), next) ∧
      final = next.withWork work := by
  induction deltas generalizing reducer with
  | nil =>
    obtain rfl := Except.ok.inj (Option.some.inj done)
    exact ⟨reducer, reducer.totalWork, rfl, rfl⟩
  | cons delta rest ih =>
    rw [steps] at done
    cases stepped : reducer.step delta with
    | none => simp [stepped] at done
    | some answer =>
      obtain ⟨outcome, middle⟩ := answer
      cases outcome with
      | error bad => simp [stepped] at done
      | ok count =>
        rw [stepped] at done
        obtain ⟨half, consumed, _, rfl⟩ := step_ok_iff.mp stepped
        obtain ⟨last, work, later, rfl⟩ := ih done
        rw [consume_withWork, Option.map_eq_some_iff] at later
        obtain ⟨⟨result, next⟩, whole, same⟩ := later
        obtain ⟨rfl, rfl⟩ := Prod.mk.inj same
        refine ⟨next, work, ?_, rfl⟩
        rw [List.flatten_cons, consume_append consumed, whole]

/-- Ids that a map knows are translated alike by a longer one. -/
theorem translate_of_prefix {map longer ids : List NodeId} (grown : map <+: longer)
    (inside : ∀ x ∈ ids, x < map.length) : translate longer ids = translate map ids := by
  obtain ⟨rest, rfl⟩ := grown
  obtain ⟨found, reads, translated⟩ := translate_total inside
  have reads' : ids.map ((map ++ rest)[·]?) = found.map some := by
    rw [← reads]
    exact List.map_congr_left (fun x member => List.getElem?_append_left (inside x member))
  rw [translated, translate_eq reads']

/-- Finalizing what was consumed by then gives the same list, whatever was
consumed after. -/
theorem finalize_grown (settled : reducer.Settled) (settled' : next.Settled)
    (canon : reducer.canonNodes <+: next.canonNodes) (map : reducer.map <+: next.map)
    {outs : List NodeId} (inside : ∀ o ∈ outs, o < reducer.watermark) (engine : RewriteEngine)
    (mode : FusionMode) : next.finalize outs engine mode =
      (reducer.finalize outs engine mode).map (Except.map (fun red =>
        { red with report := { red.report with inputNodes := next.canonicalCount } })) := by
  obtain ⟨found, _, translated⟩ := translate_total inside
  have requested : ∀ o ∈ found, o < reducer.canonNodes.length :=
    fun o member => settled.map o (translate_mem translated o member)
  have same := reduceWithMode_embedded settled.earlier requested settled'.earlier
    (embedded_grown canon) engine mode
  rw [List.map_id] at same
  simp only [finalize, translate_of_prefix map inside, translated, same]
  cases reduceWithMode reducer.canonNodes found engine mode <;> rfl

end IncrementalReducer

/-- A reducer that has stepped over more of the recording, in whatever deltas,
finalizes earlier outputs to the same reduction, up to the count of its canonical
nodes. -/
theorem finalize_unmoved (requests later : List Request) {s : Nat} {store grown : GraphStore}
    (found : (Session.run requests).stores[s]? = some store)
    (held : (Session.run (requests ++ later)).stores[s]? = some grown)
    {deltas deltas' : List (List NodeKey)} (split : deltas.flatten = store.nodes)
    (split' : deltas'.flatten = grown.nodes) {reducer reducer' : IncrementalReducer}
    (stepped : IncrementalReducer.new.steps deltas = some (.ok reducer))
    (stepped' : IncrementalReducer.new.steps deltas' = some (.ok reducer')) {outs : List NodeId}
    (inside : ∀ o ∈ outs, o < store.nodeCount) (engine : RewriteEngine) (mode : FusionMode) :
    reducer'.finalize outs engine mode =
      (reducer.finalize outs engine mode).map (Except.map (fun red =>
        { red with report := { red.report with inputNodes := reducer'.canonicalCount } })) := by
  obtain ⟨first, work, consumed, rfl⟩ := IncrementalReducer.steps_consume stepped
  obtain ⟨last, work', consumed', rfl⟩ := IncrementalReducer.steps_consume stepped'
  have longer : store.nodes <+: grown.nodes := by
    obtain ⟨other, again, extended⟩ := Session.extends_foldl found later
    rw [Session.run, List.foldl_append, ← Session.run, again] at held
    exact Option.some.inj held ▸ extended.nodes
  obtain ⟨rest, whole⟩ := longer
  have ordered := ((Session.settled_run requests).stores store (List.mem_of_getElem? found)).ordered
  have ordered' :=
    ((Session.settled_run (requests ++ later)).stores grown (List.mem_of_getElem? held)).ordered
  rw [split] at consumed
  rw [split', ← whole, IncrementalReducer.consume_append consumed] at consumed'
  obtain ⟨canon, map⟩ := IncrementalReducer.consume_grows consumed'
  have kept := IncrementalReducer.settled_new.consume ordered consumed
  have kept' := kept.consume
    (fun key member => ordered' key (whole ▸ List.mem_append_right _ member)) consumed'
  have watermark : first.watermark = store.nodeCount :=
    (IncrementalReducer.consume_ok consumed).1.trans (Nat.zero_add _)
  exact IncrementalReducer.finalize_grown kept kept' canon map
    (fun o member => watermark ▸ inside o member) engine mode

/-- The product is consumed with the sum, or after it. -/
theorem finalize_unmoved_of_sum : ∃ reducer reducer',
    IncrementalReducer.new.steps [sumStore.nodes.take 1, sumStore.nodes.drop 1] =
      some (.ok reducer) ∧
    IncrementalReducer.new.steps [sumStore.nodes ++ [.op "mul" (.new []) [2, 2]]] =
      some (.ok reducer') ∧
    reducer'.finalize [2] some .singleUse = (reducer.finalize [2] some .singleUse).map (Except.map
      (fun red => { red with report := { red.report with
        inputNodes := reducer'.canonicalCount } })) := by
  obtain ⟨reducer, stepped⟩ : ∃ reducer, IncrementalReducer.new.steps
      [sumStore.nodes.take 1, sumStore.nodes.drop 1] = some (.ok reducer) := by
    exact ⟨_, rfl⟩
  obtain ⟨reducer', stepped'⟩ : ∃ reducer, IncrementalReducer.new.steps
      [sumStore.nodes ++ [.op "mul" (.new []) [2, 2]]] = some (.ok reducer) := by
    exact ⟨_, rfl⟩
  have held : (Session.run (sumRequests ++
      [.call 0 (.addOp "mul" [2, 2] (.new [])) trivial])).stores[0]? = some
        ⟨sumStore.nodes ++ [.op "mul" (.new []) [2, 2]],
          (.op "mul" (.new []) [2, 2], 3) :: sumStore.internTable, []⟩ := by
    decide +kernel
  exact ⟨reducer, reducer', stepped, stepped', finalize_unmoved sumRequests _ sumRequests_stores
    held rfl rfl stepped stepped' (by decide) some .singleUse⟩

/-! ## The set of outputs -/

/-- The partition does not depend on the outputs of the graph. An engine that is
loaded with the nodes only is so. -/
def OutputsBlind (find : EngineGraph → Nat → Nat) : Prop :=
  ∀ nodes outs outs', find ⟨nodes, outs⟩ = find ⟨nodes, outs'⟩

/-- The partition of a library that is given what the engine loads into it, the
nodes. -/
def EggEngine.loaded (find : List EngineNode → Nat → Nat) (graph : EngineGraph) : Nat → Nat :=
  find graph.nodes

/-- No output is loaded, so the partition cannot depend on one. -/
theorem EggEngine.loaded_blind (find : List EngineNode → Nat → Nat) : OutputsBlind (loaded find) :=
  fun _ _ _ => rfl

namespace StageFusion

variable (nodes : List EngineNode) (outs outs' : List Nat)

variable {nodes outs outs'} in
/-- The marks of the nodes depend on which outputs are asked for and not on their
order. -/
theorem isOutput_reordered (inside : ∀ o ∈ outs, o < nodes.length)
    (same : ∀ o, o ∈ outs ↔ o ∈ outs') : isOutput ⟨nodes, outs'⟩ = isOutput ⟨nodes, outs⟩ := by
  have inside' : ∀ o ∈ outs', o < nodes.length := fun o member => inside o ((same o).mpr member)
  obtain ⟨marks, marked, length, told⟩ := @isOutput_complete ⟨nodes, outs⟩ inside
  obtain ⟨marks', marked', length', told'⟩ := @isOutput_complete ⟨nodes, outs'⟩ inside'
  rw [marked, marked', Option.some.injEq]
  apply List.ext_getElem (length'.trans length.symm)
  intro i here here'
  have first := told i _ (List.getElem?_eq_getElem here')
  have second := told' i _ (List.getElem?_eq_getElem here)
  rw [Bool.eq_iff_iff, first, second, same i]

/-- The maximal pass looks at the marks and never at the list of outputs. -/
theorem maximalFrom_outputs (lists : List (List Nat)) (marks : List Bool) (count : Nat)
    (comp : List Nat) : maximalFrom ⟨nodes, outs'⟩ lists marks count comp =
      maximalFrom ⟨nodes, outs⟩ lists marks count comp := by
  induction count generalizing comp with
  | zero => rfl
  | succ count ih =>
    have visit : maximalVisit ⟨nodes, outs'⟩ lists marks comp count =
        maximalVisit ⟨nodes, outs⟩ lists marks comp count := rfl
    rw [maximalFrom, maximalFrom, visit]
    congr 1
    funext comp
    exact ih comp

variable {nodes outs outs'} in
/-- The components depend on the set of outputs only. Marks are set, not
counted. -/
theorem compId_reordered (inside : ∀ o ∈ outs, o < nodes.length)
    (same : ∀ o, o ∈ outs ↔ o ∈ outs') (mode : FusionMode) :
    compId ⟨nodes, outs'⟩ mode = compId ⟨nodes, outs⟩ mode := by
  have lists : consumers ⟨nodes, outs'⟩ = consumers ⟨nodes, outs⟩ := rfl
  rw [compId, compId, lists, isOutput_reordered inside same]
  cases mode with
  | singleUse => rfl
  | maximal =>
    simp only [maximal, maximalFrom_outputs nodes outs outs']

/-- The members of a stage do not depend on the outputs. -/
theorem stageOps_outputs (comps ops slots members : List Nat) :
    stageOps ⟨nodes, outs'⟩ comps ops slots members =
      stageOps ⟨nodes, outs⟩ comps ops slots members := by
  induction members generalizing slots with
  | nil => rfl
  | cons op rest ih => simp only [stageOps, ih]

/-- Nor does what is emitted for a component. -/
theorem emit_outputs (table : List (String × NodeKey)) (comps : List Nat) :
    emit ⟨nodes, outs'⟩ table comps = emit ⟨nodes, outs⟩ table comps := by
  funext state comp
  simp only [emit, stageOps_outputs nodes outs outs']

end StageFusion

open StageFusion in
/-- Fusing for the same outputs in another order moves nothing but the outputs. -/
theorem stageFusion_reordered {nodes : List EngineNode} {outs outs' : List Nat}
    {table : List (String × NodeKey)} {mode : FusionMode} {red : Reduced}
    (inside : ∀ o ∈ outs, o < nodes.length) (same : ∀ o, o ∈ outs ↔ o ∈ outs')
    (fuses : stageFusion ⟨nodes, outs⟩ table mode = some red) :
    ∃ found : Nat → NodeId, red.outputs = outs.map found ∧
      stageFusion ⟨nodes, outs'⟩ table mode = some { red with outputs := outs'.map found } := by
  simp only [stageFusion, Option.bind_eq_bind, Option.bind_eq_some_iff, Option.some.injEq] at fuses
  obtain ⟨assigned, components, state, emitted, exits, reads, rfl⟩ := fuses
  have place (o : Nat) (member : o ∈ outs) :
      ((assigned[o]?).bind (fun c => compToReduced state c)) =
        some (((assigned[o]?).bind (fun c => compToReduced state c)).getD 0) := by
    obtain ⟨found, answer⟩ := (Enumerate.mapM_exists_iff _ _).mp ⟨exits, reads⟩ o member
    rw [answer, Option.getD_some]
  refine ⟨fun o => ((assigned[o]?).bind (fun c => compToReduced state c)).getD 0, ?_, ?_⟩
  · exact Option.some.inj (reads.symm.trans (Enumerate.mapM_complete _ _ _ place))
  · have reads' := Enumerate.mapM_complete _ _ outs' (fun o member => place o ((same o).mpr member))
    simp only [stageFusion, compId_reordered inside same, components, emit_outputs nodes outs outs',
      emitted, Option.bind_eq_bind, Option.bind_some]
    rw [reads', Option.bind_some]

section Reordering

variable {find : EngineGraph → Nat → Nat} {nodes : List NodeKey} {outs outs' : List NodeId}

/-- The same outputs in another order reach the same nodes. -/
theorem reaches_reordered (same : ∀ o, o ∈ outs ↔ o ∈ outs') :
    Reaches nodes outs' = Reaches nodes outs := by
  funext i
  exact propext ⟨.mono (fun o => (same o).mpr), .mono (fun o => (same o).mp)⟩

/-- The graph between the passes has the same nodes, and the same places for
them. -/
theorem dedupedGraph_reordered (blind : OutputsBlind find) (same : ∀ o, o ∈ outs ↔ o ∈ outs') :
    dedupedGraph find nodes outs' =
      ⟨(dedupedGraph find nodes outs).nodes, outs'.map (position find nodes outs)⟩ := by
  have reached := @reaches_reordered nodes outs outs' same
  have kept : live nodes outs' = live nodes outs := by rw [live, live, reached]
  have kernels : kernel find (liveGraph nodes outs') = kernel find (liveGraph nodes outs) := by
    funext i j
    rw [kernel, kernel, liveGraph, liveGraph, toEngineGraph, toEngineGraph, kept,
      blind _ _ (outs.map (number (Reaches nodes outs)))]
  have canonical : (canonicalGraph find nodes outs').nodes =
      (canonicalGraph find nodes outs).nodes := by
    rw [canonicalGraph, canonicalGraph, EngineGraph.quotient, EngineGraph.quotient, kernels]
    simp only [liveGraph, toEngineGraph, kept]
  have places : position find nodes outs' = position find nodes outs := by
    funext i
    rw [position, position, canonical, kernels, reached]
  have requested := dedupedGraph_outputs find nodes outs'
  rw [places] at requested
  rw [← requested, dedupedGraph, dedupedGraph, EngineGraph.quotient, EngineGraph.quotient,
    canonical]

/-- Requested outputs with the same members reduce to the same list and report,
and every id to the same place. -/
theorem reduceWithMode_reordered (blind : OutputsBlind find) (topological : Topological nodes)
    (inside : ∀ o ∈ outs, o < nodes.length) (same : ∀ o, o ∈ outs ↔ o ∈ outs')
    (mode : FusionMode) : ∃ (red : Reduced) (found : NodeId → NodeId),
      reduceWithMode nodes outs (EggEngine.canonicalize find) mode = some red ∧
      red.outputs = outs.map found ∧
      reduceWithMode nodes outs' (EggEngine.canonicalize find) mode =
        some { red with outputs := outs'.map found } := by
  have inside' : ∀ o ∈ outs', o < nodes.length := fun o member => inside o ((same o).mpr member)
  have wellFormed := dedupedGraph_wellFormed find topological inside
  obtain ⟨red, _, reduces, _⟩ := reduceWithMode_complete find topological inside mode
  have whole := reduceWithMode_eq find topological inside mode
  have whole' := reduceWithMode_eq find topological inside' mode
  rw [reduces, eq_comm, Option.map_eq_some_iff] at whole
  obtain ⟨out, fuses, rfl⟩ := whole
  have graph : dedupedGraph find nodes outs =
      ⟨(dedupedGraph find nodes outs).nodes, outs.map (position find nodes outs)⟩ := by
    rw [← dedupedGraph_outputs]
  rw [graph] at fuses
  have bounded : ∀ k ∈ outs.map (position find nodes outs),
      k < (dedupedGraph find nodes outs).nodes.length := by
    rw [← dedupedGraph_outputs]
    exact wellFormed.ordered.inside
  have members (k : Nat) : k ∈ outs.map (position find nodes outs) ↔
      k ∈ outs'.map (position find nodes outs) := by
    rw [List.mem_map, List.mem_map]
    exact exists_congr fun o => and_congr_left fun _ => same o
  obtain ⟨found, placed, fuses'⟩ := stageFusion_reordered bounded members fuses
  have kept : live nodes outs' = live nodes outs := by
    rw [live, live, reaches_reordered same]
  rw [dedupedGraph_reordered blind same, kept] at whole'
  refine ⟨_, found ∘ position find nodes outs, reduces, ?_, ?_⟩
  · rw [← List.map_map]
    exact placed
  · rw [whole', fuses', Option.map_some, List.map_map]

end Reordering

namespace GraphStore

/-- Marking what was marked once is marking it as it came. -/
theorem marked_map_marked (f : NodeId → NodeId) (ids acc : List NodeId) :
    marked [] ((marked acc ids).map f) = marked (marked [] (acc.map f)) (ids.map f) := by
  induction ids generalizing acc with
  | nil => rfl
  | cons id rest ih =>
    have step : marked acc (id :: rest) =
      marked (if id ∈ acc then acc else acc ++ [id]) rest := rfl
    rw [step, ih, List.map_cons]
    have step' (held : List NodeId) : marked held (f id :: rest.map f) =
      marked (if f id ∈ held then held else held ++ [f id]) (rest.map f) := rfl
    rw [step']
    congr 1
    by_cases old : id ∈ acc
    · have held : f id ∈ marked [] (acc.map f) :=
        (mem_marked _ _ _).mpr (Or.inr (List.mem_map_of_mem old))
      rw [if_pos old, if_pos held]
    · rw [if_neg old, List.map_append, marked, List.foldl_append]
      rfl

/-- Outputs are marked after the nodes were rebuilt, and change nothing else. -/
theorem fromReduced_marks {red : Reduced} (topological : Topological red.nodes) :
    ∃ (rebuilt : GraphStore) (found : NodeId → NodeId), ∀ outs : List NodeId,
      (∀ o ∈ outs, o < red.nodes.length) → fromReduced { red with outputs := outs } =
        some ({ rebuilt with outputs := marked [] (outs.map found) }, red.report) := by
  have start : Rebuilding red.nodes 0 new [] :=
    ⟨interned_new, by simp [new, quotient, compact, pick_nil], rfl, rfl⟩
  obtain ⟨store, map, ran, done⟩ := start.run topological red.nodes rfl
  rw [Nat.zero_add] at done
  have nodes : store.nodes = quotient (Least operatorRules red.nodes) red.nodes := by
    rw [done.nodes, List.take_length]
  refine ⟨store, place (Least operatorRules red.nodes), fun outs inside => ?_⟩
  have reads : outs.map (map[·]?) = (outs.map (place (Least operatorRules red.nodes))).map some :=
    (Enumerate.mapM_eq_some_iff _ _ _).mp (done.reads outs inside)
  have places : ∀ id ∈ outs.map (place (Least operatorRules red.nodes)),
      id < store.nodes.length := by
    intro id member
    obtain ⟨o, present, rfl⟩ := List.mem_map.mp member
    rw [nodes, quotient_length]
    exact place_lt least_equivalence (inside o present)
  have marks := fromReducedOutputs_complete map outs _ store reads places
  simp only [fromReduced, ran, marks, Option.bind_eq_bind, Option.bind_some, done.unmarked]

end GraphStore

/-- One rebuilt store, marked twice. The nodes do not depend on the order of the
outputs. -/
theorem rebuilt_reordered {find : EngineGraph → Nat → Nat} (blind : OutputsBlind find)
    {nodes : List NodeKey} (topological : Topological nodes) {outs outs' : List NodeId}
    (inside : ∀ o ∈ outs, o < nodes.length) (same : ∀ o, o ∈ outs ↔ o ∈ outs')
    (mode : FusionMode) : ∃ (red red' : Reduced) (rebuilt : GraphStore) (found : NodeId → NodeId),
      reduceWithMode nodes outs (EggEngine.canonicalize find) mode = some red ∧
      reduceWithMode nodes outs' (EggEngine.canonicalize find) mode = some red' ∧
      GraphStore.fromReduced red = some
        ({ rebuilt with outputs := GraphStore.marked [] (outs.map found) }, red.report) ∧
      GraphStore.fromReduced red' = some
        ({ rebuilt with outputs := GraphStore.marked [] (outs'.map found) }, red.report) := by
  obtain ⟨red, found, reduces, placed, reduces'⟩ :=
    reduceWithMode_reordered blind topological inside same mode
  obtain ⟨_, _, _, again, _, emitted, bounded, _⟩ :=
    reduceWithMode_rebuilds find topological inside mode
  obtain rfl := Option.some.inj (reduces.symm.trans again)
  obtain ⟨rebuilt, after, marks⟩ := GraphStore.fromReduced_marks emitted
  have bounded' : ∀ o ∈ outs'.map found, o < red.nodes.length := by
    intro id member
    obtain ⟨o, present, rfl⟩ := List.mem_map.mp member
    exact bounded _ (placed ▸ List.mem_map_of_mem ((same o).mpr present))
  refine ⟨red, _, rebuilt, after ∘ found, reduces, reduces', ?_, ?_⟩
  · rw [← List.map_map, ← placed]
    exact marks red.outputs bounded
  · rw [← List.map_map]
    exact marks (outs'.map found) bounded'

/-- A compile request is the set of its outputs. Named in another order or more
than once, they give the same nodes and the same report, and the marks in the
order of the names. -/
theorem compile_reordered (find : List EngineNode → Nat → Nat) (requests : List Request)
    {store : GraphStore} (produced : store ∈ (Session.run requests).stores)
    {outs outs' : List NodeId} (inside : ∀ o ∈ outs, o < store.nodeCount)
    (same : ∀ o, o ∈ outs ↔ o ∈ outs') (mode : FusionMode) :
    ∃ (reduced : GraphStore) (report : ReductionReport) (found : NodeId → NodeId),
      store.reduceWithOutputs outs (EggEngine.canonicalize (EggEngine.loaded find)) mode = some
        (.ok ({ reduced with outputs := GraphStore.marked [] (outs.map found) }, report)) ∧
      store.reduceWithOutputs outs' (EggEngine.canonicalize (EggEngine.loaded find)) mode = some
        (.ok ({ reduced with outputs := GraphStore.marked [] (outs'.map found) }, report)) := by
  have interned := ((Session.settled_run requests).stores store produced).interned
  have inside' : ∀ o ∈ outs', o < store.nodes.length :=
    fun o member => inside o ((same o).mpr member)
  obtain ⟨red, red', rebuilt, found, reduces, reduces', built, built'⟩ :=
    rebuilt_reordered (EggEngine.loaded_blind find) interned.earlier inside same mode
  exact ⟨rebuilt, red.report, found, GraphStore.reduceWithOutputs_eq inside reduces built,
    GraphStore.reduceWithOutputs_eq inside' reduces' built'⟩

/-- Compiling here is the same as writing the graph out with the requested
outputs, reading it back elsewhere and compiling there against the marks. Counts
and lengths have to fit what is written. -/
theorem compile_shipped (find : List EngineNode → Nat → Nat) (requests : List Request)
    {store : GraphStore} (produced : store ∈ (Session.run requests).stores) (fits : store.Fits)
    {outs : List NodeId} (few : Fits outs.length) (inside : ∀ o ∈ outs, o < store.nodeCount)
    (mode : FusionMode) :
    ∃ shipped result,
      Serialize.deserialize (Serialize.serializeWith store outs) = .ok shipped ∧
      store.reduceWithOutputs outs (EggEngine.canonicalize (EggEngine.loaded find)) mode =
        some (.ok result) ∧
      shipped.reduceWith (EggEngine.canonicalize (EggEngine.loaded find)) mode = some result := by
  have settled := (Session.settled_run requests).stores store produced
  obtain ⟨shipped, read, nodes, marks⟩ := Serialize.graph_serializeWith settled fits few inside
  have same (o : NodeId) : o ∈ outs ↔ o ∈ GraphStore.marked [] outs := by
    simp [GraphStore.mem_marked]
  obtain ⟨red, red', rebuilt, found, reduces, reduces', built, built'⟩ :=
    rebuilt_reordered (EggEngine.loaded_blind find) settled.interned.earlier inside same mode
  refine ⟨shipped, _, Serialize.deserialize_ok_iff.mpr ⟨[], read⟩,
    GraphStore.reduceWithOutputs_eq inside reduces built, ?_⟩
  rw [GraphStore.marked_map_marked] at built'
  simp only [GraphStore.reduceWith, nodes, marks, reduces', built', Option.bind_eq_bind,
    Option.bind_some]
  rfl

/-- A saturated partition of the nodes, for an engine that is given nothing
else. -/
noncomputable def saturatedNodes (nodes : List EngineNode) : Nat → Nat := saturatedFind ⟨nodes, []⟩

/-- Two outputs asked for in two orders, once with a repetition. -/
theorem compile_reordered_of_sum : ∃ (reduced : GraphStore) (report : ReductionReport)
    (found : NodeId → NodeId),
    sumStore.reduceWithOutputs [0, 2] (EggEngine.canonicalize (EggEngine.loaded saturatedNodes))
      .maximal = some (.ok
        ({ reduced with outputs := GraphStore.marked [] ([0, 2].map found) }, report)) ∧
    sumStore.reduceWithOutputs [2, 0, 2]
      (EggEngine.canonicalize (EggEngine.loaded saturatedNodes)) .maximal = some (.ok
        ({ reduced with outputs := GraphStore.marked [] ([2, 0, 2].map found) }, report)) :=
  compile_reordered saturatedNodes sumRequests (List.mem_of_getElem? sumRequests_stores)
    (by decide) (by simp) .maximal

/-- The sum, shipped with a repeated output. -/
theorem compile_shipped_of_sum : ∃ shipped result,
    Serialize.deserialize (Serialize.serializeWith sumStore [2, 2]) = .ok shipped ∧
    sumStore.reduceWithOutputs [2, 2] (EggEngine.canonicalize (EggEngine.loaded saturatedNodes))
      .singleUse = some (.ok result) ∧
    shipped.reduceWith (EggEngine.canonicalize (EggEngine.loaded saturatedNodes)) .singleUse =
      some result :=
  compile_shipped saturatedNodes sumRequests (List.mem_of_getElem? sumRequests_stores)
    (by decide +kernel) (by decide) (by decide) .singleUse

end GraphedCore
