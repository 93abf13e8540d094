import GraphedCore.Rereduction

/-!
# Interpreting the views

An executor never sees the arena. It walks the views of a store in the order of their ids,
calls a source, an op or a reduction by its name and its dictionary, and runs the members of
a stage one after another. So a reduction serves it only when the views of the reduced store,
whose op parameters went through tokens and back, compute what the views of the recorded
store compute.
-/

namespace GraphedCore

open Dag Wired StageFusion

universe u
variable {V : Type u}

/-! ## Executors -/

/-- What an executor calls for a source, for an op or a reduction of its kind, and
for an external payload. -/
structure Executor (V : Type u) where
  seed : String → PyDict → V
  operate : String → String → PyDict → List V → V
  call : PayloadDescriptor → PyDict → List V → V

namespace Executor

/-- The values of the members, those in `done` first. Members are walked in their
order, each over the values before. -/
def runMembers (ex : Executor V) (args : List V) : List V → List MemberView → Option (List V)
  | done, [] => some done
  | done, m :: rest => do
    let values ← m.inputs.mapM (StageRef.resolve args done)
    runMembers ex args (done ++ [ex.operate m.kind m.name m.params values]) rest

/-- The value of one view over the values of its inputs. A stage yields its last
member. -/
def perform (ex : Executor V) (view : NodeView) (args : List V) : Option V :=
  match view.kind with
  | "source" => some (ex.seed view.name view.params)
  | "op" | "reduction" => some (ex.operate view.kind view.name view.params args)
  | "stage" =>
    view.members.bind (fun members => (ex.runMembers args [] members).bind List.getLast?)
  | _ => view.descriptor.map (fun descriptor => ex.call descriptor view.params args)

/-- One node of an evaluation from the views: its inputs are read from the values
so far. -/
def interpretStep (ex : Executor V) (vals : List V) (view : NodeView) : Option (List V) := do
  let args ← view.inputs.mapM (vals[·]?)
  let value ← ex.perform view args
  some (vals ++ [value])

/-- The values of all views, in the order of their ids. A view that cannot be
walked ends it. -/
def interpret (ex : Executor V) (views : List NodeView) : Option (List V) :=
  views.foldlM (ex.interpretStep) []

/-- What is found at some ids after the walk. -/
def valuesAt (ex : Executor V) (views : List NodeView) (ids : List NodeId) : Option (List V) :=
  (ex.interpret views).bind (fun vals => ids.mapM (fun id => vals[id]?))

end Executor

/-- The dictionary `{"scalar": number, "side": side}`, as the frontend records a
shift or a scaling. -/
def scalarParams (number : F64) (side : String) : PyDict :=
  paramsToPy (.new [("scalar", .float number), ("side", .str side)])

/-- Equal dictionaries are not told apart, parameterless symmetric ops commute,
and adding `0.0` or multiplying by `1.0` on either side changes nothing. -/
structure Executor.Lawful (ex : Executor V) : Prop where
  seed : ∀ (name : String) (d d' : PyDict), d.Same d' → ex.seed name d = ex.seed name d'
  operate : ∀ (kind name : String) (d d' : PyDict) (args : List V), d.Same d' →
    ex.operate kind name d args = ex.operate kind name d' args
  call : ∀ (payload : PayloadDescriptor) (d d' : PyDict) (args : List V), d.Same d' →
    ex.call payload d args = ex.call payload d' args
  commutes : ∀ name ∈ symmetricOps, ∀ a b, ex.operate "op" name .empty [a, b] =
    ex.operate "op" name .empty [b, a]
  add_zero : ∀ side ∈ ["l", "r"], ∀ a, ex.operate "op" "add" (scalarParams 0 side) [a] = a
  mul_one : ∀ side ∈ ["l", "r"], ∀ a,
    ex.operate "op" "mul" (scalarParams 0x3ff0000000000000 side) [a] = a

/-! ## Dictionaries of equal parameters -/

/-- Equal values under one key keep dictionaries equal. -/
theorem PyDict.Same.set {d d' : PyDict} (same : d.Same d') {v v' : PyValue} (values : v.Same v')
    (key : PyStr) : PyDict.Same (d.set key v) (d'.set key v') := by
  intro other
  rw [OrderedDict.get?_set, OrderedDict.get?_set]
  split
  · exact .some values
  · exact same other

/-- Equal maps are shown as equal dictionaries, whatever keys they repeat. -/
theorem paramsToPy_same {p q : ParamMap} (equal : p.canon = q.canon) :
    (paramsToPy p).Same (paramsToPy q) := by
  have step (es es' : List (String × ParamValue)) (d d' : PyDict) (same : d.Same d')
      (entries : es.map (fun e => (e.1, e.2.canon)) = es'.map (fun e => (e.1, e.2.canon))) :
      PyDict.Same (es.foldl (fun dict e => dict.set (.ofString e.1) (paramvalueToPy e.2)) d)
        (es'.foldl (fun dict e => dict.set (.ofString e.1) (paramvalueToPy e.2)) d') := by
    induction es generalizing es' d d' with
    | nil =>
      have none : es' = [] := List.map_eq_nil_iff.mp entries.symm
      rw [none]
      exact same
    | cons e rest ih =>
      cases es' with
      | nil => cases entries
      | cons e' rest' =>
        rw [List.map_cons, List.map_cons, List.cons.injEq, Prod.mk.injEq] at entries
        obtain ⟨⟨key, value⟩, later⟩ := entries
        rw [List.foldl_cons, List.foldl_cons, key]
        exact ih rest' _ _ (same.set (paramvalueToPy_same_iff.mpr value) _) later
  exact step p.entries q.entries .empty .empty (fun _ => .none) (congrArg ParamMap.entries equal)

/-! ## Views and nodes -/

/-- The identity tokens, as the tokens of the ops that carry them. -/
theorem identityTokens_spelled : identityTokens = [
    (NodeKey.op "add" (.new [("scalar", .float 0), ("side", .str "r")]) []).token,
    (NodeKey.op "add" (.new [("scalar", .float 0), ("side", .str "l")]) []).token,
    (NodeKey.op "mul"
      (.new [("scalar", .float 0x3ff0000000000000), ("side", .str "r")]) []).token,
    (NodeKey.op "mul"
      (.new [("scalar", .float 0x3ff0000000000000), ("side", .str "l")]) []).token] := by
  decide +kernel

/-- Payloads of one token are one payload, so among all nodes but stages the token
is the operator. -/
def PayloadsTold (nodes : List NodeKey) : Prop :=
  ∀ key ∈ nodes, ∀ other ∈ nodes, ¬ key.IsStage → key.token = other.token →
    key.operator = other.operator

instance (nodes : List NodeKey) : Decidable (PayloadsTold nodes) :=
  inferInstanceAs (Decidable (∀ key ∈ nodes, ∀ other ∈ nodes, _ → _ → _))

/-- A source, an op or a reduction, or what has the operator of a node of the
arena. -/
def NodeKey.Known (nodes : List NodeKey) (key : NodeKey) : Prop :=
  key.IsPlain ∨ ∃ source ∈ nodes, ¬ source.IsStage ∧ key.operator = source.operator

section Known

variable {nodes : List NodeKey} {key other : NodeKey}

/-- A known key is no stage. -/
theorem NodeKey.Known.free (known : key.Known nodes) : ¬ key.IsStage := by
  rcases known with plain | ⟨source, _, free, same⟩
  · exact plain.free
  · intro stage
    have token : key.token = source.token := by
      rw [← NodeKey.token_operator, same, NodeKey.token_operator]
    exact free (stage_of_token token stage)

/-- A node of the arena is known, unless it is a stage. -/
theorem NodeKey.known_of_mem (member : key ∈ nodes) (free : ¬ key.IsStage) : key.Known nodes :=
  Or.inr ⟨key, member, free, rfl⟩

/-- Being known is a matter of the operator. -/
theorem NodeKey.Known.of_operator (known : other.Known nodes)
    (same : key.operator = other.operator) : key.Known nodes := by
  rcases known with plain | ⟨source, member, free, alike⟩
  · exact Or.inl (plain.of_operator same.symm)
  · exact Or.inr ⟨source, member, free, same.trans alike⟩

/-- A plain node shares its token with plain nodes only. -/
theorem NodeKey.IsPlain.operator_of_token (plain : key.IsPlain) (token : key.token = other.token) :
    key.operator = other.operator := by
  have plain' : other.IsPlain := by
    have tags := NodeKey.tag_eq token
    cases key <;> cases other <;> simp [NodeKey.tag] at tags
    all_goals exact plain
  exact NodeKey.token_inj plain plain' token

/-- Between known keys the token is the operator. This is what the condition on
payloads is for. -/
theorem PayloadsTold.operator_eq (told : PayloadsTold nodes) (known : key.Known nodes)
    (known' : other.Known nodes) (token : key.token = other.token) :
    key.operator = other.operator := by
  rcases known with plain | ⟨source, member, free, same⟩
  · exact plain.operator_of_token token
  rcases known' with plain' | ⟨source', member', _, same'⟩
  · exact (plain'.operator_of_token token.symm).symm
  have carried : source.token = source'.token := by
    rw [← NodeKey.token_operator source, ← same, NodeKey.token_operator, token,
      ← NodeKey.token_operator other, same', NodeKey.token_operator]
  rw [same, same']
  exact told source member source' member' free carried

end Known

namespace Executor

variable {ex : Executor V} {nodes : List NodeKey} {key other : NodeKey} {args : List V}

/-- What the executor does at a node, as the node is shown. Marks and ids do not
enter it. -/
def enact (ex : Executor V) (key : NodeKey) (args : List V) : Option V :=
  (PyGraphStore.nodeView [] 0 key).toOption.bind (fun view => ex.perform view args)

/-- A key that is no stage has a value for any arguments. -/
theorem enact_free (ex : Executor V) (free : ¬ key.IsStage) (args : List V) :
    ∃ value, ex.enact key args = some value := by
  cases key <;> first | exact ⟨_, rfl⟩ | exact absurd trivial free

/-- A lawful executor does the same for keys of one operator. Equal parameters may
be shown in different bits. -/
theorem Lawful.enact_congr (lawful : ex.Lawful) (free : ¬ key.IsStage) (free' : ¬ other.IsStage)
    (same : key.operator = other.operator) (args : List V) :
    ex.enact key args = ex.enact other args := by
  cases key <;> cases other <;>
    simp only [NodeKey.IsStage, not_true_eq_false] at free free' <;>
    simp only [NodeKey.operator, NodeKey.canon, NodeKey.withInputs, NodeKey.source.injEq,
      NodeKey.op.injEq, NodeKey.reduction.injEq, NodeKey.external.injEq, reduceCtorEq,
      and_true] at same
  case source name params name' params' =>
    obtain ⟨rfl, equal⟩ := same
    exact congrArg some (lawful.seed name _ _ (paramsToPy_same equal))
  case op name params inputs name' params' inputs' =>
    obtain ⟨rfl, equal⟩ := same
    exact congrArg some (lawful.operate "op" name _ _ args (paramsToPy_same equal))
  case reduction name params inputs name' params' inputs' =>
    obtain ⟨rfl, equal⟩ := same
    exact congrArg some (lawful.operate "reduction" name _ _ args (paramsToPy_same equal))
  case external d params inputs d' params' inputs' =>
    obtain ⟨rfl, equal⟩ := same
    exact congrArg some (lawful.call d _ _ args (paramsToPy_same equal))

open Classical in
/-- The function the executor gives to a token: that of any known node that
carries it. -/
noncomputable def meaning (ex : Executor V) (nodes : List NodeKey) (token : String)
    (args : List V) : V :=
  if carried : ∃ value key, NodeKey.Known nodes key ∧ key.token = token ∧
      ex.enact key args = some value then carried.choose
  else ex.seed token .empty

/-- The meaning of the token of a known key is what the executor does for the key:
payloads are told apart, so no other node speaks for the token. -/
theorem Lawful.meaning_token (lawful : ex.Lawful) (told : PayloadsTold nodes)
    (known : key.Known nodes) (args : List V) :
    some (ex.meaning nodes key.token args) = ex.enact key args := by
  obtain ⟨value, acts⟩ := ex.enact_free known.free args
  have carried : ∃ value other, NodeKey.Known nodes other ∧ other.token = key.token ∧
      ex.enact other args = some value := ⟨value, key, known, rfl, acts⟩
  obtain ⟨other, known', token, acts'⟩ := carried.choose_spec
  rw [meaning, dif_pos carried, ← acts']
  exact lawful.enact_congr known'.free known.free (told.operator_eq known' known token) args

/-- The token of an op means the op. So a member of a stage does what the op did
that was fused. -/
theorem Lawful.meaning_op (lawful : ex.Lawful) (told : PayloadsTold nodes) (name : String)
    (params : ParamMap) (args : List V) :
    ex.meaning nodes (NodeKey.op name params []).token args =
      ex.operate "op" name (paramsToPy params) args := by
  have plain : (NodeKey.op name params []).IsPlain := trivial
  exact Option.some.inj (lawful.meaning_token told (Or.inl plain) args)

/-- What the executor does respects the rules of the engine, so a sound engine
keeps its values. -/
theorem Lawful.respectsRules (lawful : ex.Lawful) (told : PayloadsTold nodes) :
    RespectsRules (ex.meaning nodes) where
  commutes name symmetric a b := by
    have swap (args : List V) : ex.meaning nodes ("op|" ++ name) args =
        ex.operate "op" name .empty args := by
      rw [← NodeKey.symmetric_token name symmetric]
      exact lawful.meaning_op told name (.new []) args
    rw [swap, swap]
    exact lawful.commutes name symmetric a b
  identity token member a := by
    have scaled (name : String) (number : F64) (side : String) :
        ex.meaning nodes (NodeKey.op name
            (.new [("scalar", .float number), ("side", .str side)]) []).token [a] =
          ex.operate "op" name (scalarParams number side) [a] := lawful.meaning_op told _ _ _
    rw [identityTokens_spelled] at member
    simp only [List.mem_cons, List.not_mem_nil, or_false] at member
    rcases member with rfl | rfl | rfl | rfl
    · rw [scaled, lawful.add_zero "r" (by simp)]
    · rw [scaled, lawful.add_zero "l" (by simp)]
    · rw [scaled, lawful.mul_one "r" (by simp)]
    · rw [scaled, lawful.mul_one "l" (by simp)]

end Executor

/-! ## Stages as they are shown -/

/-- The token of an op, which can be read back. -/
def OpToken (token : String) : Prop := ∃ name params, token = (NodeKey.op name params []).token

/-- A stage of ops, or a node that the executor finds by what it is shown. -/
def NodeKey.Interpretable (nodes : List NodeKey) : NodeKey → Prop
  | .stage _ members => ∀ op ∈ members, OpToken op.token
  | key => key.Known nodes

/-- The token of an op parses to the op's name and to parameters that are equal to
its own. -/
theorem OpToken.decodes {token : String} (spelled : OpToken token) : ∃ name params,
    token = (NodeKey.op name params []).token ∧
      parseOpToken token = some ("op", name, params.canon) := by
  obtain ⟨name, params, rfl⟩ := spelled
  exact ⟨name, params, rfl, parseOpToken_withParams (Or.inl rfl) name params⟩

/-- A known key is no stage, so it can be interpreted. -/
theorem NodeKey.Known.interpretable {nodes : List NodeKey} {key : NodeKey}
    (known : key.Known nodes) : key.Interpretable nodes := by
  cases key with
  | stage => exact absurd trivial known.free
  | _ => exact known

/-- What can be interpreted can be shown. -/
theorem NodeKey.Interpretable.decodes {nodes : List NodeKey} {key : NodeKey}
    (clear : key.Interpretable nodes) : key.Decodes := by
  cases key with
  | stage inputs members =>
    intro op member
    obtain ⟨name, params, _, parsed⟩ := (clear op member).decodes
    rw [parsed]
    rfl
  | _ => trivial

namespace Executor

variable {ex : Executor V} {nodes : List NodeKey}

/-- The members of a stage compute the same from their tokens and as they are
shown. -/
theorem Lawful.runMembers_eq (lawful : ex.Lawful) (told : PayloadsTold nodes) (args : List V)
    {members : List StageOp} (clear : ∀ op ∈ members, OpToken op.token) {shown : List MemberView}
    (views : members.mapM PyGraphStore.memberView = .ok shown) (done : List V) :
    ex.runMembers args done shown =
      GraphedCore.runMembers (ex.meaning nodes) args done members := by
  have pairs := Enumerate.mapM_ok_iff.mp views
  clear views
  induction pairs generalizing done with
  | nil => rfl
  | @cons op m rest _ viewed _ ih =>
    obtain ⟨name, params, token, parsed⟩ := (clear op List.mem_cons_self).decodes
    rw [PyGraphStore.memberView, parsed] at viewed
    obtain rfl := Except.ok.inj viewed
    rw [runMembers, GraphedCore.runMembers, StageOp.run]
    cases op.inputs.mapM (StageRef.resolve args done) with
    | none => rfl
    | some values =>
      have same : ex.operate "op" name (paramsToPy params.canon) values =
          ex.meaning nodes op.token values := by
        rw [token, lawful.meaning_op told]
        exact lawful.operate "op" name _ _ values (paramsToPy_same params.canon_canon)
      simp only [Option.bind_eq_bind, Option.bind_some, Option.map_some, same]
      exact ih (fun op member => clear op (List.mem_cons_of_mem _ member)) _

/-- A node computes the same as it is stored and as it is shown, stages
included. -/
theorem Lawful.perform_eq (lawful : ex.Lawful) (told : PayloadsTold nodes)
    {outputs : List NodeId} {id : NodeId} {key : NodeKey} (clear : key.Interpretable nodes)
    {view : NodeView} (shown : PyGraphStore.nodeView outputs id key = .ok view) :
    view.inputs = key.inputs ∧
      ∀ args, ex.perform view args = key.apply (ex.meaning nodes) args := by
  have singly (known : key.Known nodes) (args : List V) :
      key.apply (ex.meaning nodes) args = ex.enact key args := by
    rw [NodeKey.apply_token known.free]
    exact lawful.meaning_token told known args
  cases key with
  | stage inputs members =>
    rw [PyGraphStore.nodeView] at shown
    cases views : members.mapM PyGraphStore.memberView with
    | error e =>
      rw [views] at shown
      cases shown
    | ok members' =>
      rw [views] at shown
      obtain rfl := Except.ok.inj shown
      refine ⟨rfl, fun args => ?_⟩
      rw [NodeKey.apply, ← lawful.runMembers_eq told args clear views []]
      rfl
  | _ =>
    obtain rfl := Except.ok.inj shown
    exact ⟨rfl, fun args => (singly clear args).symm⟩

/-- Walking the views is evaluating the arena. From here on the theorems about
evaluation apply. -/
theorem Lawful.interpret_eq (lawful : ex.Lawful) (told : PayloadsTold nodes) {store : GraphStore}
    (clear : ∀ key ∈ store.nodes, key.Interpretable nodes) {views : List NodeView}
    (shown : PyGraphStore.nodes store = .ok views) :
    ex.interpret views = eval (NodeKey.apply (ex.meaning nodes)) store.nodes := by
  have pairs := Enumerate.mapM_ok_iff.mp shown
  have step (entries : List (NodeKey × Nat)) (views : List NodeView) (vals : List V)
      (clear : ∀ entry ∈ entries, entry.1.Interpretable nodes)
      (pairs : List.Forall₂ (fun entry view =>
        PyGraphStore.nodeView store.outputs entry.2 entry.1 = .ok view) entries views) :
      views.foldlM ex.interpretStep vals =
        (entries.map Prod.fst).foldlM (evalStep (NodeKey.apply (ex.meaning nodes))) vals := by
    induction pairs generalizing vals with
    | nil => rfl
    | @cons entry view rest _ viewed _ ih =>
      obtain ⟨inputs, performs⟩ := lawful.perform_eq told (clear entry List.mem_cons_self) viewed
      rw [List.foldlM_cons, List.map_cons, List.foldlM_cons, interpretStep, evalStep, evalNode,
        gather, inputs, NodeKey.wired_inputs]
      cases entry.1.inputs.mapM (vals[·]?) with
      | none => rfl
      | some args =>
        simp only [Option.bind_eq_bind, Option.bind_some, performs]
        cases entry.1.apply (ex.meaning nodes) args with
        | none => rfl
        | some value =>
          simp only [Option.bind_some, Option.map_some]
          exact ih _ (fun entry member => clear entry (List.mem_cons_of_mem _ member))
  have whole := step store.nodes.zipIdx views [] (fun entry member =>
    clear entry.1 (List.mem_of_getElem? (List.mem_zipIdx_iff_getElem?.mp member))) pairs
  rw [interpret, whole, List.zipIdx_map_fst, eval]

/-- Evaluating from the views is evaluating the nodes under the meanings of their
tokens. -/
theorem Lawful.valuesAt_eq (lawful : ex.Lawful) (told : PayloadsTold nodes) {store : GraphStore}
    (clear : ∀ key ∈ store.nodes, key.Interpretable nodes) {views : List NodeView}
    (shown : PyGraphStore.nodes store = .ok views) (ids : List NodeId) :
    ex.valuesAt views ids = evaluate (ex.meaning nodes) store.nodes ids := by
  rw [valuesAt, lawful.interpret_eq told clear shown]
  rfl

end Executor

/-! ## Reduced stores -/

/-- Nodes that an executor can walk: every stage can be run and is a stage of ops,
and the tokens tell stages and payloads apart. -/
structure Walkable (nodes : List NodeKey) : Prop extends StagesSound nodes where
  spelled : ∀ inputs members, .stage inputs members ∈ nodes → ∀ op ∈ members, OpToken op.token
  payloads : PayloadsTold nodes

section Walkable

variable {nodes nodes' : List NodeKey} {key : NodeKey}

/-- Every node of a walkable arena can be interpreted. -/
theorem Walkable.interpretable (walkable : Walkable nodes) (member : key ∈ nodes) :
    key.Interpretable nodes := by
  cases key with
  | stage inputs members => exact walkable.spelled inputs members member
  | _ => exact (NodeKey.known_of_mem member not_false).interpretable

/-- Stages of a walkable arena and nodes of its operators are walkable. Reductions
and recordings lead to such arenas. -/
theorem Walkable.mono (walkable : Walkable nodes) (listed : ∀ key ∈ nodes',
    key ∈ nodes ∨ ¬ key.IsStage ∧ key.Known nodes) : Walkable nodes' where
  toStagesSound := by
    apply walkable.toStagesSound.mono
    intro key member stage
    rcases listed key member with kept | ⟨free, _⟩
    · exact kept
    · exact absurd stage free
  spelled inputs members member := by
    rcases listed _ member with kept | ⟨free, _⟩
    · exact walkable.spelled inputs members kept
    · exact absurd trivial free
  payloads key member other member' free token := by
    have known {key : NodeKey} (present : key ∈ nodes') (free : ¬ key.IsStage) :
        key.Known nodes := by
      rcases listed key present with kept | ⟨_, known⟩
      · exact NodeKey.known_of_mem kept free
      · exact known
    have free' : ¬ other.IsStage := fun stage => free (stage_of_token token.symm stage)
    exact walkable.payloads.operator_eq (known member free) (known member' free') token

/-- Whatever stands for known nodes, or is put together from ops, can be
interpreted. -/
theorem interpretable_hereditary (nodes : List NodeKey) :
    Hereditary (NodeKey.Interpretable nodes) where
  rewired key ids clear := by
    cases key with
    | stage => exact clear
    | _ => exact NodeKey.Known.of_operator clear (NodeKey.operator_withInputs _ ids)
  fused inputs members spelled op member := by
    obtain ⟨name, params, ids, _, token⟩ := spelled op member
    exact ⟨name, params, token⟩

end Walkable

/-- Interpretable nodes can all be shown. -/
theorem views_exist {nodes : List NodeKey} {store : GraphStore}
    (clear : ∀ key ∈ store.nodes, key.Interpretable nodes) :
    ∃ views, PyGraphStore.nodes store = .ok views :=
  (PyGraphStore.nodes_ok_iff store).mpr (fun key member => (clear key member).decodes)

/-- Both stores can be shown, and walking the views of the reduced one finds at
`found` what walking the views of the other finds at the requested outputs. -/
def Executor.FindsAt (ex : Executor V) (store : GraphStore) (outs : List NodeId)
    (reduced : GraphStore) (found : NodeId → NodeId) : Prop :=
  ∃ views views' vals vals',
    PyGraphStore.nodes store = .ok views ∧ PyGraphStore.nodes reduced = .ok views' ∧
      ex.interpret views = some vals ∧ ex.interpret views' = some vals' ∧
      ∀ o ∈ outs, ∃ value, vals[o]? = some value ∧ vals'[found o]? = some value

/-- Walking the views of the reduced store finds at its marks what walking the
views of the other finds at the requested outputs. -/
def Executor.Agrees (ex : Executor V) (store : GraphStore) (outs : List NodeId)
    (reduced : GraphStore) : Prop :=
  ∃ found, reduced.outputs = GraphStore.marked [] (outs.map found) ∧
    ex.FindsAt store outs reduced found

/-- Where an output is found does not depend on the executor, for it is the
reduction that moves it. -/
theorem Walkable.agrees {find : EngineGraph → Nat → Nat} (egg : EggSound find)
    {store : GraphStore} (interned : store.Interned) (walkable : Walkable store.nodes)
    {outs : List NodeId} (inside : ∀ o ∈ outs, o < store.nodes.length) (mode : FusionMode) :
    ∃ reduced report found, store.reduceWithOutputs outs (EggEngine.canonicalize find) mode =
        some (.ok (reduced, report)) ∧
      reduced.outputs = GraphStore.marked [] (outs.map found) ∧
      ∀ ex : Executor V, ex.Lawful → ex.FindsAt store outs reduced found := by
  obtain ⟨reduced, report, found, reduces, interned', derived, marks, computes⟩ :=
    walkable.compiles (V := V) egg interned inside mode
  have clear : ∀ key ∈ store.nodes, key.Interpretable store.nodes :=
    fun key member => walkable.interpretable member
  have clear' : ∀ key ∈ reduced.nodes, key.Interpretable store.nodes :=
    fun key member => (interpretable_hereditary store.nodes).derived clear (derived key member)
  obtain ⟨views, shown⟩ := views_exist clear
  obtain ⟨views', shown'⟩ := views_exist clear'
  refine ⟨reduced, report, found, reduces, marks, fun ex lawful => ?_⟩
  obtain ⟨vals, vals', valuation, computed, agrees⟩ :=
    computes _ (lawful.respectsRules walkable.payloads)
  refine ⟨views, views', vals, vals', shown, shown', ?_, ?_, fun o member => ?_⟩
  · rw [lawful.interpret_eq walkable.payloads clear shown]
    exact (eval_eq_some_iff _ _ interned.earlier _).mpr valuation
  · rw [lawful.interpret_eq walkable.payloads clear' shown']
    exact (eval_eq_some_iff _ _ interned'.earlier _).mpr computed
  · have bound : o < vals.length := by
      rw [valuation.length]
      exact inside o member
    obtain ⟨value, known⟩ := lookup_exists bound
    exact ⟨value, known, (agrees o member).trans known⟩

/-- A lawful executor can evaluate the reduced graph in place of the graph it was
reduced from, which may have been recorded on top of an earlier reduction. Tokens
have to tell payloads and stages apart, as they are all that the reduction sees of
these. -/
theorem interpreted_reduction (ex : Executor V) (lawful : ex.Lawful)
    (find : EngineGraph → Nat → Nat) (egg : EggSound find) (requests : List Request)
    {store : GraphStore} (produced : store ∈ (Session.run requests).stores)
    (walkable : Walkable store.nodes) {outs : List NodeId}
    (inside : ∀ o ∈ outs, o < store.nodeCount) (mode : FusionMode) :
    ∃ reduced report, store.reduceWithOutputs outs (EggEngine.canonicalize find) mode =
        some (.ok (reduced, report)) ∧ ex.Agrees store outs reduced := by
  have settled := (Session.settled_run requests).stores store produced
  obtain ⟨reduced, report, found, reduces, marks, finds⟩ :=
    walkable.agrees egg settled.interned inside mode
  exact ⟨reduced, report, reduces, found, marks, finds ex lawful⟩

/-- Every source counts `n`. Multiplication for `mul`, addition for everything
else. -/
def tally (n : Int) : Executor Int where
  seed _ _ := n
  operate _ name _ args := if name = "mul" then args.prod else args.sum
  call _ _ args := args.sum

/-- The executor respects the rules: sums commute, and adding nothing or
multiplying by one changes nothing. -/
theorem tally_lawful (n : Int) : (tally n).Lawful where
  seed _ _ _ _ := rfl
  operate _ _ _ _ _ _ := rfl
  call _ _ _ _ _ := rfl
  commutes name _ a b := by
    simp only [tally]
    split
    · simp [Int.mul_comm]
    · simp [Int.add_comm]
  add_zero _ _ a := by simp [tally]
  mul_one _ _ a := by simp [tally]

/-- Reduce a store, record a sum over its stage and call a payload on the sum. -/
def extendedRequests : List Request :=
  Serialize.reduceRequests ++ [.call 1 (.addOp "add" [0, 1] (.new [])) trivial,
    .call 1 (.addExternal ⟨"onnx", "1f", "torch", "2", "io", none⟩ [2] (.new [])) trivial]

/-- The store of these calls, with its table written out, newest entry first. -/
def extendedStore : GraphStore :=
  ⟨[.source "x" (.new [("cut", .float 0x403e000000000000)]),
      .stage [0] [⟨"op|neg", [.input 0]⟩], .op "add" (.new []) [0, 1],
      .external ⟨"onnx", "1f", "torch", "2", "io", none⟩ (.new []) [2]],
    [(.external ⟨"onnx", "1f", "torch", "2", "io", none⟩ (.new []) [2], 3),
      (.op "add" (.new []) [0, 1], 2), (.stage [0] [⟨"op|neg", [.input 0]⟩], 1),
      (.source "x" (.new [("cut", .float 0x403e000000000000)]), 0)], [1]⟩

/-- The session holds the store. -/
theorem extendedRequests_stores :
    (Session.run extendedRequests).stores[1]? = some extendedStore := by
  decide +kernel

/-- The recorded stage runs and is told from the payload. -/
theorem extendedStore_walkable : Walkable extendedStore.nodes where
  executable := by simp [extendedStore, NodeKey.Executable, List.getElem?_cons, StageRef.Within]
  byLength inputs members inputs' members' first second _ := by
    have one : inputs = [0] ∧ members = [⟨"op|neg", [.input 0]⟩] := by
      simpa [extendedStore] using first
    have two : inputs' = [0] ∧ members' = [⟨"op|neg", [.input 0]⟩] := by
      simpa [extendedStore] using second
    rw [one.2, two.2]
  spelled inputs members member := by
    have one : inputs = [0] ∧ members = [⟨"op|neg", [.input 0]⟩] := by
      simpa [extendedStore] using member
    have token : OpToken "op|neg" := ⟨"neg", .new [], by decide +kernel⟩
    simpa [one.2] using token
  payloads := by decide +kernel

/-- The sum is fused anew, the stage and the payload stay boundaries. -/
theorem interpreted_reduction_of_extended : ∃ reduced report,
    extendedStore.reduceWithOutputs [3, 1] (EggEngine.canonicalize saturatedFind) .maximal =
        some (.ok (reduced, report)) ∧ (tally 1).Agrees extendedStore [3, 1] reduced :=
  interpreted_reduction (tally 1) (tally_lawful 1) saturatedFind
    (EggGenerated.sound saturatedFind_saturates) extendedRequests
    (List.mem_of_getElem? extendedRequests_stores) extendedStore_walkable (by decide) .maximal

end GraphedCore
