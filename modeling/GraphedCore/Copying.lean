import GraphedCore.Calling
import GraphedCore.History
import GraphedCore.Interpreting

/-!
# Copying a store through its views

The views of a store show everything that the recording methods take. A client that walks the
views in the order of their ids, and makes the call that each shows over the ids that were
answered so far, rebuilds the graph: in an empty store node by node under the old ids, and in a
store that holds other recordings up to the ids. Only a stage cannot be recorded, and a repeated
key of a parameter map not shown.
-/

namespace GraphedCore

open Dag Wired GraphStore

/-! ## Values and dictionaries that were shown -/

/-- A parameter that was shown is accepted as it was: no type is lost on the way
through Python. -/
theorem paramvalueFromPy_toPy (a : ParamValue) : paramvalueFromPy (paramvalueToPy a) = .ok a := by
  cases a with
  | int i =>
    have fits : Fits64 i.toInt := by
      have low := i.le_toInt
      have high := i.toInt_lt
      exact ⟨low, high⟩
    simp only [paramvalueFromPy, paramvalueToPy, PyValue.isBool, PyValue.extractI64, if_pos fits]
    simp
  | float f => rfl
  | bool b => rfl
  | str s =>
    have spelled : (PyStr.ofString s).extract = some s := PyStr.extract_eq_some_iff.mpr rfl
    simp [paramvalueFromPy, paramvalueToPy, PyValue.isBool, PyValue.extractI64,
      PyValue.extractF64, PyValue.extractString, spelled]

/-- A parameter map of distinct keys is read back from what is shown of it. -/
theorem paramsFromPy_toPy {p : ParamMap} (distinct : (p.entries.map Prod.fst).Nodup) :
    paramsFromPy (some (paramsToPy p)) = .ok p := by
  have read : (paramsToPy p).entries.mapM entryFromPy = .ok p.entries := by
    rw [paramsToPy_entries distinct, Enumerate.mapM_ok_iff, List.forall₂_map_left_iff,
      List.forall₂_same]
    intro entry _
    exact entryFromPy_ok_iff.mpr ⟨rfl, paramvalueFromPy_toPy entry.2⟩
  rw [paramsFromPy, read]
  exact congrArg Except.ok (ParamMap.new_entries p)

/-- No stage, and no repeated key among the parameters. Other nodes are not shown
in full, or cannot be recorded. -/
def NodeKey.Recordable : NodeKey → Prop
  | .source _ p | .op _ p _ | .reduction _ p _ | .external _ p _ => (p.entries.map Prod.fst).Nodup
  | .stage _ _ => False

/-- What can be recorded by a call is no stage. -/
theorem NodeKey.Recordable.free {key : NodeKey} (recordable : key.Recordable) : ¬ key.IsStage := by
  cases key with
  | stage => exact recordable.elim
  | _ => exact not_false

namespace PyGraphStore

/-! ## The copy -/

/-- The call that records what a view shows, over the ids of its inputs. There is
none for a stage. -/
def replay (view : NodeView) (ids : List NodeId) : Option PyCall :=
  match view.kind with
  | "source" => some (.addSource view.name (some view.params))
  | "op" => some (.addOp view.name ids (some view.params))
  | "reduction" => some (.addReduction view.name ids (some view.params))
  | "stage" => none
  | _ => view.descriptor.map (fun d =>
    .addExternal (.dict (descriptorToPy d)) ids (some view.params))

/-- Record what the views show, one after another, each over the answers of those
before. -/
def copy : List NodeView → Recording → Option Recording
  | [], recording => some recording
  | view :: rest, recording => do
    let ids ← view.inputs.mapM (fun step => recording.results[step]?)
    let call ← replay view ids
    match call.perform recording.store with
    | (.ok id, store) => copy rest ⟨store, recording.results ++ [id]⟩
    | (.error _, _) => none

/-- The view of a recordable node shows the call that records it, with all its
arguments. -/
theorem replay_view {outputs : List NodeId} {id : NodeId} {key : NodeKey} {view : NodeView}
    (recordable : key.Recordable) (shown : nodeView outputs id key = .ok view)
    (ids : List NodeId) : view.inputs = key.inputs ∧
      ∃ call, replay view ids = some call ∧ call.key = .ok (key.withInputs ids) := by
  cases key with
  | source name p =>
    obtain rfl := Except.ok.inj shown
    refine ⟨rfl, _, rfl, ?_⟩
    rw [PyCall.key, paramsFromPy_toPy recordable]
    rfl
  | op name p inputs =>
    obtain rfl := Except.ok.inj shown
    refine ⟨rfl, _, rfl, ?_⟩
    rw [PyCall.key, paramsFromPy_toPy recordable]
    rfl
  | reduction name p inputs =>
    obtain rfl := Except.ok.inj shown
    refine ⟨rfl, _, rfl, ?_⟩
    rw [PyCall.key, paramsFromPy_toPy recordable]
    rfl
  | external d p inputs =>
    obtain rfl := Except.ok.inj shown
    refine ⟨rfl, _, rfl, ?_⟩
    rw [PyCall.key, descriptorFromPy_toPy, paramsFromPy_toPy recordable]
    rfl
  | stage => exact recordable.elim

/-- Copying the views of recordable nodes is recording the nodes, one after
another. -/
theorem copy_record {outputs : List NodeId} {entries : List (NodeKey × NodeId)}
    {views : List NodeView} (recordable : ∀ entry ∈ entries, entry.1.Recordable)
    (shown : List.Forall₂ (fun entry view => nodeView outputs entry.2 entry.1 = .ok view) entries
      views) (recording : Recording) :
    copy views recording = Recording.record (entries.map Prod.fst) recording := by
  induction shown generalizing recording with
  | nil => rfl
  | @cons entry view rest _ viewed _ ih =>
    have kept := recordable entry List.mem_cons_self
    have later := ih (fun other member => recordable other (List.mem_cons_of_mem _ member))
    rw [copy, List.map_cons, Recording.record, (replay_view kept viewed []).1]
    cases entry.1.inputs.mapM (fun step => recording.results[step]?) with
    | none => rfl
    | some ids =>
      obtain ⟨_, call, replayed, asked⟩ := replay_view kept viewed ids
      simp only [Option.bind_eq_bind, Option.bind_some, replayed, PyCall.perform_eq, asked,
        Recording.call_eq]
      cases recording.store.intern (entry.1.withInputs ids) with
      | mk answer store =>
        cases answer with
        | error bad => rfl
        | ok id => exact later _

/-- What a copy adds was asked for by calls, so all of it is recordable. -/
theorem copy_recordable {views : List NodeView} {recording final : Recording}
    (copied : copy views recording = some final)
    (recordable : ∀ key ∈ recording.store.nodes, key.Recordable) :
    ∀ key ∈ final.store.nodes, key.Recordable := by
  induction views generalizing recording with
  | nil =>
    obtain rfl := Option.some.inj copied
    exact recordable
  | cons view rest ih =>
    rw [copy] at copied
    simp only [Option.bind_eq_bind, Option.bind_eq_some_iff] at copied
    obtain ⟨ids, _, call, _, done⟩ := copied
    cases did : call.perform recording.store with
    | mk answer store =>
      cases answer with
      | error e => simp [did] at done
      | ok id =>
        simp only [did] at done
        obtain ⟨key, accepted, interns⟩ := PyCall.perform_ok did
        have asked : key.Recordable := by
          cases PyCall.key_asks accepted with
          | addSource given => exact given.distinct
          | addOp given => exact given.distinct
          | addReduction given => exact given.distinct
          | addExternal _ given => exact given.distinct
        apply ih done
        intro other member
        rcases recording.store.intern_cases key with
          ⟨_, _, _, refused⟩ | ⟨_, ⟨_, _, hit⟩ | ⟨_, fresh⟩⟩
        · cases interns.symm.trans refused
        · obtain ⟨_, same⟩ := Prod.mk.inj (interns.symm.trans hit)
          exact recordable other (same ▸ member)
        · obtain ⟨_, same⟩ := Prod.mk.inj (interns.symm.trans fresh)
          rw [same, GraphStore.push] at member
          rcases List.mem_append.mp member with old | last
          · exact recordable other old
          · rw [List.mem_singleton.mp last]
            exact asked

end PyGraphStore

/-- Steps that are unequal to each other and to what is stored get the next
ids. -/
theorem Recording.record_distinct {store : GraphStore} (interned : store.Interned)
    {program rest : List NodeKey} (topological : Topological program)
    (apart : program.Pairwise (fun key other => key.eq other = false))
    (split : program = store.nodes ++ rest) :
    ∃ final, Recording.record rest ⟨store, List.range store.nodes.length⟩ =
        some ⟨final, List.range program.length⟩ ∧ final.nodes = program := by
  induction rest generalizing store with
  | nil =>
    rw [List.append_nil] at split
    exact ⟨store, by rw [Recording.record, split], split.symm⟩
  | cons key rest ih =>
    have lookup : program[store.nodes.length]? = some key := by simp [split]
    have earlier := topological _ key lookup
    have reads : key.inputs.mapM (fun step => (List.range store.nodes.length)[step]?) =
        some key.inputs := by
      have each := Enumerate.mapM_complete
        (fun step => (List.range store.nodes.length)[step]?) (fun step => step) key.inputs
      rw [List.map_id'] at each
      exact each (fun step member => List.getElem?_range (earlier step member))
    rcases store.intern_cases key with
      ⟨x, member, outside, _⟩ | ⟨inside, ⟨id, hit, _⟩ | ⟨absent, did⟩⟩
    · exact absurd (earlier x member) (Nat.not_lt_of_ge outside)
    · obtain ⟨node, stored, equal⟩ := (interned.found key id).mp hit
      rw [split, List.pairwise_append] at apart
      rw [apart.2.2 node (List.mem_of_getElem? stored) key List.mem_cons_self] at equal
      cases equal
    · obtain ⟨final, ran, nodes⟩ :=
        ih (interned.push inside absent) (by simp [split, GraphStore.push])
      have next : List.range (store.push key).nodes.length =
          List.range store.nodes.length ++ [store.nodes.length] := by
        rw [GraphStore.push, List.length_append, List.length_singleton, List.range_succ]
      refine ⟨final, ?_, nodes⟩
      rw [Recording.record, reads]
      simp only [Option.bind_eq_bind, Option.bind_some, Recording.call_eq,
        NodeKey.withInputs_inputs, did]
      rw [← next, ran]

namespace PyGraphStore

/-- A store of a session is rebuilt from its views, node by node under the old
ids, exactly when nothing but recordable nodes is in it. A stage cannot be
recorded, and a dictionary shows one of several entries of a key. -/
theorem copied_iff (requests : List Request) {store : GraphStore}
    (produced : store ∈ (Session.run requests).stores) {views : List NodeView}
    (shown : nodes store = .ok views) :
    (∃ copied, copy views (.start .new) = some ⟨copied, List.range store.nodeCount⟩ ∧
      copied.nodes = store.nodes) ↔ ∀ key ∈ store.nodes, key.Recordable := by
  have interned := ((Session.settled_run requests).stores store produced).interned
  constructor
  · rintro ⟨copied, ran, same⟩ key member
    have none : ∀ key ∈ (Recording.start .new).store.nodes, key.Recordable := by
      simp [Recording.start, GraphStore.new]
    exact copy_recordable ran none key (same ▸ member)
  · intro recordable
    obtain ⟨final, ran, same⟩ := Recording.record_distinct interned_new interned.earlier
      interned.apart (List.nil_append _).symm
    have listed : ∀ entry ∈ store.nodes.zipIdx, entry.1.Recordable := fun entry member =>
      recordable entry.1 (List.mem_of_getElem? (List.mem_zipIdx_iff_getElem?.mp member))
    have made := copy_record listed (Enumerate.mapM_ok_iff.mp shown) (.start .new)
    rw [List.zipIdx_map_fst] at made
    exact ⟨final, made.trans ran, same⟩

/-- Record a payload on a source, in a new store. -/
def payloadRequests : List Request :=
  [.newStore, .call 0 (.addSource "e" (.new [("n", .int 3), ("cut", .float 0)])) trivial,
    .call 0 (.addExternal payload [0] (.new [("name", .str "sf")])) trivial]

/-- A source with two parameters, and a payload over it, as the calls leave
them. -/
def payloadStore : GraphStore :=
  Call.run .new [.addSource "e" (.new [("n", .int 3), ("cut", .float 0)]),
    .addExternal payload [0] (.new [("name", .str "sf")])]

/-- The nodes of the store, evaluated. -/
theorem payloadStore_nodes : payloadStore.nodes =
    [.source "e" (.new [("n", .int 3), ("cut", .float 0)]),
      .external payload (.new [("name", .str "sf")]) [0]] := by
  decide +kernel

/-- A store with a payload is copied from its views. -/
theorem copied_iff_of_payload : ∃ views, nodes payloadStore = .ok views ∧
    ((∃ copied, copy views (.start .new) = some ⟨copied, List.range payloadStore.nodeCount⟩ ∧
      copied.nodes = payloadStore.nodes) ↔ ∀ key ∈ payloadStore.nodes, key.Recordable) := by
  have produced : payloadStore ∈ (Session.run payloadRequests).stores :=
    List.mem_singleton.mpr rfl
  have decodes : payloadStore.Decodes := by
    simp [GraphStore.Decodes, payloadStore_nodes, NodeKey.Decodes]
  obtain ⟨views, shown⟩ := (nodes_ok_iff payloadStore).mpr decodes
  exact ⟨views, shown, copied_iff payloadRequests produced shown⟩

end PyGraphStore

/-! ## Computing on the copy -/

namespace Recording

/-- A recording keeps what was stored, and adds the steps over other ids. Nothing
else comes in. -/
theorem record_grows {program : List NodeKey} {recording final : Recording}
    (ran : record program recording = some final) :
    recording.store.Extends final.store ∧ ∀ key ∈ final.store.nodes,
      key ∈ recording.store.nodes ∨ ∃ step ∈ program, ∃ ids, key = step.withInputs ids := by
  induction program generalizing recording with
  | nil =>
    obtain rfl := Option.some.inj ran
    exact ⟨.refl _, fun key member => Or.inl member⟩
  | cons step rest ih =>
    rw [record] at ran
    simp only [Option.bind_eq_bind, Option.bind_eq_some_iff, call_eq] at ran
    obtain ⟨ids, _, done⟩ := ran
    have grown := extends_intern recording.store (step.withInputs ids)
    have added : ∀ key ∈ (recording.store.intern (step.withInputs ids)).2.nodes,
        key ∈ recording.store.nodes ∨ key = step.withInputs ids := by
      intro key member
      rcases recording.store.intern_cases (step.withInputs ids) with
        ⟨_, _, _, did⟩ | ⟨_, ⟨_, _, did⟩ | ⟨_, did⟩⟩
      · exact Or.inl (by rwa [did] at member)
      · exact Or.inl (by rwa [did] at member)
      · rw [did, GraphStore.push] at member
        exact (List.mem_append.mp member).imp_right List.mem_singleton.mp
    cases did : recording.store.intern (step.withInputs ids) with
    | mk answer store =>
      rw [did] at grown added
      cases answer with
      | error bad => simp [did] at done
      | ok fresh =>
        simp only [did] at done
        obtain ⟨later, listed⟩ := ih done
        refine ⟨grown.trans later, fun key member => ?_⟩
        rcases listed key member with old | ⟨other, known, ids', same⟩
        · rcases added key old with before | fresh
          · exact Or.inl before
          · exact Or.inr ⟨step, List.mem_cons_self, ids, fresh⟩
        · exact Or.inr ⟨other, List.mem_cons_of_mem _ known, ids', same⟩

universe u
variable {V : Type u}

/-- A step and the node that answers it have one value. -/
theorem Stores.value {program : List NodeKey} {recording : Recording}
    (stores : Stores program program.length recording) (topological : Topological program)
    {interp : String → List V → V} {vals vals' : List V}
    (valuation : Valuation (NodeKey.apply interp) program vals)
    (valuation' : Valuation (NodeKey.apply interp) recording.store.nodes vals') {step : NodeId}
    (inside : step < program.length) : vals[step]? = vals'[recording.id step]? := by
  induction step using Nat.strong_induction_on with
  | h step ih =>
    obtain ⟨key, known⟩ := lookup_exists inside
    obtain ⟨node, lookup, operators, reads⟩ := stores.stored step key inside known
    have applies : node.apply interp = key.apply interp := by
      rw [← NodeKey.apply_operator, operators, NodeKey.apply_operator]
    have gathered : gather vals' node.inputs = gather vals key.inputs := by
      rw [reads, gather, gather, List.mapM_map]
      apply Enumerate.mapM_congr
      intro x member
      have earlier := topological step key known x member
      exact (ih x earlier (earlier.trans inside)).symm
    rw [valuation.value step key known, valuation'.value _ node lookup, evalNode, evalNode,
      NodeKey.wired_inputs, NodeKey.wired_inputs, gathered, applies]

end Recording

namespace PyGraphStore

universe u
variable {V : Type u}

/-- A store of a session can be copied through its views into any other, whatever
that one holds. Compiling the copies of the outputs there, a lawful executor finds
in the reduced views what it finds in the views of the original. -/
theorem copied_computes (ex : Executor V) (lawful : ex.Lawful) (find : EngineGraph → Nat → Nat)
    (egg : EggSound find) (requests requests' : List Request) {store base : GraphStore}
    (produced : store ∈ (Session.run requests).stores)
    (produced' : base ∈ (Session.run requests').stores)
    (walkable : Walkable (base.nodes ++ store.nodes))
    (recordable : ∀ key ∈ store.nodes, key.Recordable) {views : List NodeView}
    (shown : nodes store = .ok views) {outs : List NodeId}
    (inside : ∀ o ∈ outs, o < store.nodeCount) (mode : FusionMode) :
    ∃ recording reduced report, copy views (.start base) = some recording ∧
      base.Extends recording.store ∧
      recording.store.reduceWithOutputs (recording.outputs outs) (EggEngine.canonicalize find)
        mode = some (.ok (reduced, report)) ∧ ex.Agrees store outs reduced := by
  have interned := ((Session.settled_run requests).stores store produced).interned
  have interned' := ((Session.settled_run requests').stores base produced').interned
  have listed : ∀ entry ∈ store.nodes.zipIdx, entry.1.Recordable := fun entry member =>
    recordable entry.1 (List.mem_of_getElem? (List.mem_zipIdx_iff_getElem?.mp member))
  have made := copy_record listed (Enumerate.mapM_ok_iff.mp shown) (.start base)
  rw [List.zipIdx_map_fst] at made
  obtain ⟨recording, ran, stores⟩ := Recording.record_complete interned' interned.earlier
  obtain ⟨grown, added⟩ := Recording.record_grows ran
  have origins : ∀ key ∈ recording.store.nodes, key ∈ base.nodes ++ store.nodes ∨
      ¬ key.IsStage ∧ key.Known (base.nodes ++ store.nodes) := by
    intro key member
    rcases added key member with old | ⟨source, recorded, ids, rfl⟩
    · exact Or.inl (List.mem_append_left _ old)
    · have free := (recordable source recorded).free
      have known := NodeKey.known_of_mem (List.mem_append_right base.nodes recorded) free
      have known' := known.of_operator (NodeKey.operator_withInputs source ids)
      exact Or.inr ⟨known'.free, known'⟩
  obtain ⟨reduced, report, found, reduces, marks, finds⟩ :=
    (walkable.mono origins).agrees egg stores.interned (stores.outputs_inside inside) mode
  obtain ⟨views'', views', vals'', vals', shown'', shown', walked'', walked', same⟩ :=
    finds ex lawful
  have clear : ∀ key ∈ store.nodes, key.Interpretable (base.nodes ++ store.nodes) :=
    fun key member => walkable.interpretable (List.mem_append_right _ member)
  have clear'' : ∀ key ∈ recording.store.nodes,
      key.Interpretable (base.nodes ++ store.nodes) := by
    intro key member
    rcases origins key member with kept | ⟨free, known⟩
    · exact walkable.interpretable kept
    · exact known.interpretable
  have free : ∀ key ∈ store.nodes, ¬ key.IsStage := fun key member => (recordable key member).free
  obtain ⟨vals, valuation⟩ := stageFree_valuation (ex.meaning (base.nodes ++ store.nodes))
    interned.earlier free
  rw [lawful.interpret_eq walkable.payloads clear'' shown'',
    eval_eq_some_iff _ _ stores.interned.earlier] at walked''
  refine ⟨recording, reduced, report, made.trans ran, grown, reduces,
    fun o => found (recording.id o), ?_, views, views', vals, vals', shown, shown', ?_, walked',
    fun o member => ?_⟩
  · rw [marks, Recording.outputs, List.map_map]
    rfl
  · rw [lawful.interpret_eq walkable.payloads clear shown]
    exact (eval_eq_some_iff _ _ interned.earlier _).mpr valuation
  · obtain ⟨value, known, computed⟩ := same (recording.id o) (List.mem_map_of_mem member)
    exact ⟨value, (stores.value interned.earlier valuation walked'' (inside o member)).trans known,
      computed⟩

/-- A recorded payload is copied into a reduced store that was recorded on. -/
theorem copied_computes_of_payload : ∃ views, nodes payloadStore = .ok views ∧
    ∃ recording reduced report, copy views (.start extendedStore) = some recording ∧
      extendedStore.Extends recording.store ∧
      recording.store.reduceWithOutputs (recording.outputs [1])
        (EggEngine.canonicalize saturatedFind) .maximal = some (.ok (reduced, report)) ∧
      (tally 1).Agrees payloadStore [1] reduced := by
  have produced : payloadStore ∈ (Session.run payloadRequests).stores :=
    List.mem_singleton.mpr rfl
  have free : ∀ key ∈ payloadStore.nodes, ¬ key.IsStage := by decide +kernel
  have staged : ∀ key ∈ extendedStore.nodes ++ payloadStore.nodes, key.IsStage →
      key ∈ extendedStore.nodes := by
    intro key member stage
    rcases List.mem_append.mp member with base | recorded
    · exact base
    · exact absurd stage (free key recorded)
  have walkable : Walkable (extendedStore.nodes ++ payloadStore.nodes) :=
    { toStagesSound := extendedStore_walkable.toStagesSound.mono staged
      spelled := fun inputs members member =>
        extendedStore_walkable.spelled inputs members (staged _ member trivial)
      payloads := by decide +kernel }
  have recordable : ∀ key ∈ payloadStore.nodes, key.Recordable := by
    simp [payloadStore_nodes, NodeKey.Recordable, ParamMap.new]
  have clear : ∀ key ∈ payloadStore.nodes, key.Interpretable payloadStore.nodes :=
    fun key member => (NodeKey.known_of_mem member (free key member)).interpretable
  obtain ⟨views, shown⟩ := views_exist clear
  exact ⟨views, shown, copied_computes (tally 1) (tally_lawful 1) saturatedFind
    (EggGenerated.sound saturatedFind_saturates) payloadRequests extendedRequests produced
    (List.mem_of_getElem? extendedRequests_stores) walkable recordable shown (by decide) .maximal⟩

end PyGraphStore

end GraphedCore
