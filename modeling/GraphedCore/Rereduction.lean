import GraphedCore.Executable
import GraphedCore.Idempotence
import GraphedCore.Provenance

/-!
# Reducing what was reduced

A reduced store can be written out, read back and reduced again, for other outputs or in the
other mode. A stage is then one more boundary, and its token tells nothing but how many members
it has. Where that number tells the stages of an arena apart, a token still has one meaning: it
stands for running the members. So the passes preserve the meaning of such an arena as they
preserve the meaning of a recorded one, and their result can again be run.
-/

namespace GraphedCore

open Dag Wired StageFusion

universe u
variable {V : Type u}

/-- Every stage can be run, and stages with equally many members have the same
members. -/
structure StagesSound (nodes : List NodeKey) : Prop where
  executable : ∀ key ∈ nodes, key.Executable
  byLength : StagesByLength nodes

/-- Nodes whose stages are all in a sound arena are sound. -/
theorem StagesSound.mono {nodes nodes' : List NodeKey} (sound : StagesSound nodes)
    (listed : ∀ key ∈ nodes', key.IsStage → key ∈ nodes) : StagesSound nodes' where
  executable key member := by
    cases key with
    | stage => exact sound.executable _ (listed _ member trivial)
    | _ => trivial
  byLength inputs members inputs' members' first second :=
    sound.byLength inputs members inputs' members' (listed _ first trivial)
      (listed _ second trivial)

/-! ## Members -/

/-- Running members depends on what their tokens mean, and on no other token. -/
theorem runMembers_congr {interp interp' : String → List V → V} {members : List StageOp}
    (same : ∀ op ∈ members, interp op.token = interp' op.token) (args done : List V) :
    runMembers interp args done members = runMembers interp' args done members := by
  induction members generalizing done with
  | nil => rfl
  | cons op rest ih =>
    have later := ih (fun other member => same other (List.mem_cons_of_mem _ member))
    rw [runMembers, runMembers, StageOp.run, StageOp.run, same op List.mem_cons_self]
    cases op.inputs.mapM (StageRef.resolve args done) with
    | none => rfl
    | some values => exact later _

/-- What a key computes does not depend on where its inputs are. -/
theorem NodeKey.apply_withInputs (interp : String → List V → V) (key : NodeKey)
    (ids : List NodeId) : (key.withInputs ids).apply interp = key.apply interp := by
  cases key <;> rfl

/-! ## What a token means -/

open Classical in
/-- The function of a token: to run the members of a stage of the arena that
carries it, or what is given. -/
noncomputable def tokenMeaning (interp : String → List V → V) (nodes : List NodeKey)
    (token : String) (args : List V) : V :=
  if carried : ∃ value, ∃ key ∈ nodes, key.IsStage ∧ key.token = token ∧
      key.apply interp args = some value then carried.choose
  else interp token args

section Tokens

variable {interp : String → List V → V} {nodes : List NodeKey}

/-- No stage carries the token of another node. -/
theorem tokenMeaning_free {key : NodeKey} (free : ¬ key.IsStage) :
    tokenMeaning interp nodes key.token = interp key.token := by
  funext args
  rw [tokenMeaning, dif_neg]
  rintro ⟨_, other, _, stage, token, _⟩
  exact free (stage_of_token token stage)

/-- A node does what its token means, and so does every other node that carries
the token. -/
theorem StagesSound.meaning (sound : StagesSound nodes) {key other : NodeKey}
    (member : key ∈ nodes) (member' : other ∈ nodes) (token : other.token = key.token)
    {args : List V} (arity : args.length = key.inputs.length) :
    other.apply interp args = some (tokenMeaning interp nodes key.token args) := by
  by_cases stage : key.IsStage
  · have : Nonempty V := ⟨interp "" []⟩
    have alike {third : NodeKey} (listed : third ∈ nodes) (same : third.token = key.token) :
        third.apply interp = key.apply interp := by
      have stage' := stage_of_token same.symm stage
      cases key with
      | stage inputs members =>
        cases third with
        | stage inputs' members' =>
          have equal := sound.byLength _ _ _ _ listed member ((stage_token_eq_iff _ _ _ _).mp same)
          rw [equal]
          rfl
        | _ => exact stage'.elim
      | _ => exact stage.elim
    have runs : ∀ args : List V, args.length = key.inputs.length →
        ∃ value, key.apply interp args = some value :=
      key.executable_iff_runs.mp (sound.executable key member)
    obtain ⟨value, yields⟩ := runs args arity
    have carried : ∃ value, ∃ third ∈ nodes, third.IsStage ∧ third.token = key.token ∧
        third.apply interp args = some value := ⟨value, key, member, stage, rfl, yields⟩
    obtain ⟨third, listed, _, same, chosen⟩ := carried.choose_spec
    rw [tokenMeaning, dif_pos carried, alike member' token, ← alike listed same, chosen]
  · have free : ¬ other.IsStage := fun staged => stage (stage_of_token token staged)
    rw [NodeKey.apply_token free, tokenMeaning_free stage, token]

/-- Tokens of ops mean what they meant, so the rules of the engine still hold. -/
theorem tokenMeaning_respects (respects : RespectsRules interp) (nodes : List NodeKey) :
    RespectsRules (tokenMeaning interp nodes) where
  commutes name symmetric a b := by
    have same : tokenMeaning interp nodes ("op|" ++ name) = interp ("op|" ++ name) := by
      rw [← NodeKey.symmetric_token name symmetric]
      exact tokenMeaning_free not_false
    rw [same]
    exact respects.commutes name symmetric a b
  identity token member a := by
    have same : tokenMeaning interp nodes token = interp token := by
      funext args
      rw [tokenMeaning, dif_neg]
      rintro ⟨_, key, _, stage, rfl, _⟩
      have inner := NodeKey.identity_token_inner key.token member
      rw [NodeKey.boundaryFromToken_token] at inner
      cases key with
      | stage => cases inner
      | _ => exact stage.elim
    rw [same]
    exact respects.identity token member a

end Tokens

/-! ## Fusing boundaries that are stages -/

section Fused

variable {interp meaning : String → List V → V} {graph : EngineGraph}
  {table : List (String × NodeKey)} {comp : Nat → Nat} {red : Reduced} {vals : List V}

/-- Every template does what the tokens of its nodes mean. Members of stages are
told by templates, not by tokens. -/
def Fitting (interp meaning : String → List V → V) (graph : EngineGraph)
    (table : List (String × NodeKey)) : Prop :=
  ∀ node ∈ graph.nodes, ∀ template, Table.get? (· == ·) table node.token = some template →
    ∀ args, args.length = node.inputs.length →
      template.apply interp args = some (meaning node.token args)

/-- A fused graph has the values of its exits, also when some boundaries are
stages. -/
theorem Fused.valuation_of (fused : Fused graph table comp red) (wellFormed : graph.WellFormed)
    (valuation : Valuation (EngineNode.apply meaning) graph.nodes vals)
    (tabled : Tabled graph table) (fitting : Fitting interp meaning graph table)
    (inner : ∀ node ∈ graph.nodes, node.boundary = false →
      meaning node.token = interp node.token) :
    Valuation (NodeKey.apply interp) red.nodes (pick (Exit graph comp) vals) := by
  refine ⟨by rw [pick_length, fused.length, valuation.length], fun k key lookup => ?_⟩
  obtain ⟨e, exit, rfl⟩ := fused.exit_of_lookup lookup
  obtain ⟨built, present, rebuilt⟩ := fused.rebuilt e exit
  obtain rfl := Option.some.inj (lookup.symm.trans present)
  rw [pick_getElem? vals exit]
  cases rebuilt with
  | @boundary node template found boundary stored =>
    have member := List.mem_of_getElem? found
    obtain ⟨read, gathered, value⟩ := valuation.reads found
    have inputs := (tabled node member template stored).2
      (node.inputs.map (number (Exit graph comp))) (List.length_map _)
    have same : gather (pick (Exit graph comp) vals)
        (node.inputs.map (number (Exit graph comp))) = some read := by
      rw [← gathered, EngineNode.wired_inputs, gather, gather, List.mapM_map]
      apply Enumerate.mapM_congr
      intro x reads
      exact pick_getElem? vals
        (fused.components.boundary_read_exit wellFormed.ordered found boundary reads)
    have applied := fitting node member template stored read (gather_length gathered)
    rw [evalNode, NodeKey.wired_inputs, inputs, same, Option.bind_some,
      NodeKey.apply_withInputs, applied, value]
    rfl
  | @stage top slots members found free staged sources =>
    have meant := fused.stage_value wellFormed valuation exit staged (fun c member => by
      obtain ⟨_, _, x, _, _, _, exitX, same⟩ := sources c member
      exact ⟨x, exitX, same⟩)
    have tokens : ∀ op ∈ members, meaning op.token = interp op.token := by
      intro op member
      obtain ⟨node, known, fusible, token⟩ := fused.members_inner exit found free staged op member
      rw [token]
      exact inner node known fusible
    rw [meant, evalNode, evalNode]
    congr 1
    funext args
    rw [NodeKey.apply, NodeKey.apply, runMembers_congr tokens]

end Fused

/-! ## The pipeline -/

section Pipeline

variable {interp : String → List V → V} {nodes : List NodeKey} {outputs : List NodeId}
  {vals : List V}

/-- An arena whose stages all run has a value for each node. -/
theorem StagesSound.valuation (sound : StagesSound nodes) (interp : String → List V → V)
    (topological : Topological nodes) : ∃ vals, Valuation (NodeKey.apply interp) nodes vals :=
  valuation_exists _ nodes topological (fun _ _ member arity =>
    ⟨_, sound.meaning member member rfl arity⟩)

/-- The loaded nodes have the values of the live nodes. -/
theorem StagesSound.loaded (sound : StagesSound nodes) (topological : Topological nodes)
    (valuation : Valuation (NodeKey.apply interp) nodes vals) :
    Valuation (EngineNode.apply (tokenMeaning interp nodes)) (liveGraph nodes outputs).nodes
      (pick (Reaches nodes outputs) vals) := by
  have kept : Valuation (NodeKey.apply interp) (live nodes outputs)
      (pick (Reaches nodes outputs) vals) :=
    compact_valuation (NodeKey.apply_rewire interp) valuation
      (reaches_closed topological outputs) (fun _ _ _ _ _ _ => rfl)
  refine ⟨by rw [kept.length, liveGraph, toEngineGraph, List.length_map], ?_⟩
  intro i node lookup
  rw [liveGraph, toEngineGraph, List.getElem?_map, Option.map_eq_some_iff] at lookup
  obtain ⟨key, found, rfl⟩ := lookup
  obtain ⟨source, recorded, rfl⟩ := live_mem (List.mem_of_getElem? found)
  obtain ⟨args, gathered, value⟩ := kept.reads found
  have arity : args.length = source.inputs.length := by
    rw [gather_length gathered, inputs_rewire, List.length_map, NodeKey.wired_inputs]
  have applied : source.apply interp args = some (tokenMeaning interp nodes source.token args) :=
    sound.meaning recorded recorded rfl arity
  have token : (toEngineNode (rewire (number (Reaches nodes outputs)) source)).token =
      source.token := NodeKey.token_rewire _ source
  rw [value, NodeKey.apply_rewire, applied, evalNode, show Wired.inputs (toEngineNode
    (rewire (number (Reaches nodes outputs)) source)) = Wired.inputs
      (rewire (number (Reaches nodes outputs)) source) from rfl, gathered, Option.bind_some,
    EngineNode.apply, token]

/-- Merging is sound for what the tokens mean, so every live node finds its
value. -/
theorem StagesSound.deduped {find : EngineGraph → Nat → Nat} (sound : StagesSound nodes)
    (respects : RespectsRules interp) (egg : EggSound find) (topological : Topological nodes)
    (inside : ∀ o ∈ outputs, o < nodes.length)
    (valuation : Valuation (NodeKey.apply interp) nodes vals) :
    ∃ final, Valuation (EngineNode.apply (tokenMeaning interp nodes))
        (dedupedGraph find nodes outputs).nodes final ∧
      ∀ i, Reaches nodes outputs i → final[position find nodes outputs i]? = vals[i]? := by
  have rules := tokenMeaning_respects respects nodes
  have wellFormed := liveGraph_wellFormed topological inside
  have canonicalFormed := canonicalGraph_wellFormed find topological inside
  have equivalence := kernel_equivalence find (liveGraph nodes outputs)
  have loaded : Valuation (EngineNode.apply (tokenMeaning interp nodes))
      (liveGraph nodes outputs).nodes (pick (Reaches nodes outputs) vals) :=
    sound.loaded topological valuation
  have faithful : ∀ i j, i < (liveGraph nodes outputs).nodes.length →
      j < (liveGraph nodes outputs).nodes.length → kernel find (liveGraph nodes outputs) i j →
        (pick (Reaches nodes outputs) vals)[i]? = (pick (Reaches nodes outputs) vals)[j]? :=
    fun i j insideI insideJ same =>
      (egg _ wellFormed i j insideI insideJ same).value (engineRules_validates rules) loaded
  obtain ⟨canonical, atClass⟩ := quotient_valuation equivalence wellFormed loaded faithful
  obtain ⟨deduped, atToken⟩ := quotient_valuation least_equivalence canonicalFormed canonical
    (fun i j _ _ related => Cong.value (tokenRules_validates _) canonical related)
  refine ⟨_, deduped, fun i reached => ?_⟩
  have bound := loaded_lt topological inside reached
  have placed : place (kernel find (liveGraph nodes outputs)) (number (Reaches nodes outputs) i) <
      (canonicalGraph find nodes outputs).nodes.length := by
    rw [canonicalGraph, EngineGraph.quotient, quotient_length]
    exact place_lt equivalence bound
  rw [← pick_getElem? vals reached, ← atClass _ bound]
  exact atToken _ placed

/-- The templates of the graph that is fused do what its tokens mean. -/
theorem StagesSound.fitting (sound : StagesSound nodes) (find : EngineGraph → Nat → Nat)
    (interp : String → List V → V) (outputs : List NodeId) :
    Fitting interp (tokenMeaning interp nodes) (dedupedGraph find nodes outputs)
      (templates (live nodes outputs)) := by
  intro node member template stored args arity
  obtain ⟨kept, carries, _⟩ := dedupedGraph_template member stored
  obtain ⟨source, recorded, rfl⟩ := live_mem kept
  obtain ⟨key, present, token, _, length⟩ := dedupedGraph_mem member
  obtain ⟨origin, recorded', rfl⟩ := live_mem present
  have reads : (rewire (number (Reaches nodes outputs)) origin).inputs.length =
      origin.inputs.length := by
    rw [← NodeKey.wired_inputs, inputs_rewire, List.length_map, NodeKey.wired_inputs]
  rw [NodeKey.token_rewire] at token carries
  rw [NodeKey.apply_rewire, token]
  exact sound.meaning recorded' recorded (carries.trans token)
    (arity.trans (length.trans reads))

/-- The reduced list has a value for every node, and every output finds its value
at the node that stands for it. -/
theorem StagesSound.reduced {find : EngineGraph → Nat → Nat} {red : Reduced} {comp : Nat → Nat}
    (sound : StagesSound nodes) (respects : RespectsRules interp) (egg : EggSound find)
    (topological : Topological nodes) (inside : ∀ o ∈ outputs, o < nodes.length)
    (fused : Fused (dedupedGraph find nodes outputs) (templates (live nodes outputs)) comp red)
    (valuation : Valuation (NodeKey.apply interp) nodes vals) :
    ∃ final, Valuation (NodeKey.apply interp) red.nodes final ∧
      ∀ o ∈ outputs, final[representative find nodes outputs comp o]? = vals[o]? := by
  have wellFormed := dedupedGraph_wellFormed find topological inside
  obtain ⟨deduped, computed, agrees⟩ := sound.deduped respects egg topological inside valuation
  have inner : ∀ node ∈ (dedupedGraph find nodes outputs).nodes, node.boundary = false →
      tokenMeaning interp nodes node.token = interp node.token := by
    intro node member fusible
    obtain ⟨name, params, ids, _, token⟩ := dedupedGraph_op member fusible
    rw [token]
    exact tokenMeaning_free not_false
  refine ⟨_, fused.valuation_of wellFormed computed (dedupedGraph_tabled find nodes outputs)
    (sound.fitting find interp outputs) inner, fun o member => ?_⟩
  rw [representative, pick_getElem? deduped (position_exit topological inside fused member),
    agrees o (.root member)]

/-- Every node of the rebuilt store comes from the arena. -/
theorem derived_rewire {key : NodeKey} (derived : Derived nodes key) (f : Nat → Nat) :
    Derived nodes (rewire f key) := by
  rw [NodeKey.wired_rewire]
  cases derived with
  | kept ids recorded =>
    rw [NodeKey.withInputs_withInputs]
    exact .kept _ recorded
  | fused inputs spelled => exact .fused _ spelled

/-- Rebuilding merges nodes of one operator, and every node finds its value at its
place. -/
theorem rebuilt_valuation (topological : Topological nodes)
    (valuation : Valuation (NodeKey.apply interp) nodes vals) :
    ∃ final, Valuation (NodeKey.apply interp) (quotient (Least operatorRules nodes) nodes) final ∧
      ∀ i < nodes.length, final[place (Least operatorRules nodes) i]? = vals[i]? := by
  have rules : Validates operatorRules (NodeKey.apply interp) :=
    { label := fun node other same => by
        rw [← node.apply_operator, show node.operator = other.operator from same,
          other.apply_operator]
      commutes := fun _ _ _ impossible => impossible.elim
      drops := fun _ _ impossible => impossible.elim }
  obtain ⟨final, places⟩ := valuation_quotient least_equivalence (NodeKey.apply_rewire interp)
    topological valuation (fun i j _ _ related => Cong.value rules valuation related)
  exact ⟨_, final, fun i inside => places i inside⟩

/-- Reducing a store whose stages are sound gives a store that computes at the
node that stands for an output what the store computes at the output, whatever the
tokens mean. -/
theorem StagesSound.compiles {find : EngineGraph → Nat → Nat} {store : GraphStore}
    (sound : StagesSound store.nodes) (egg : EggSound find) (interned : store.Interned)
    {outs : List NodeId} (inside : ∀ o ∈ outs, o < store.nodes.length) (mode : FusionMode) :
    ∃ reduced report found, store.reduceWithOutputs outs (EggEngine.canonicalize find) mode =
        some (.ok (reduced, report)) ∧ reduced.Interned ∧
      (∀ key ∈ reduced.nodes, Derived store.nodes key) ∧
      reduced.outputs = GraphStore.marked [] (outs.map found) ∧
      ∀ interp : String → List V → V, RespectsRules interp →
        ∃ vals final, Valuation (NodeKey.apply interp) store.nodes vals ∧
          Valuation (NodeKey.apply interp) reduced.nodes final ∧
            ∀ o ∈ outs, final[found o]? = vals[o]? := by
  obtain ⟨red, comp, _, reduces, fused, topological, inside', _⟩ :=
    reduceWithMode_rebuilds find interned.earlier inside mode
  obtain ⟨reduced, rebuilt, interned', stored, marks⟩ :=
    GraphStore.fromReduced_complete topological inside'
  refine ⟨reduced, red.report, fun o => place (Least operatorRules red.nodes)
    (representative find store.nodes outs comp o), GraphStore.reduceWithOutputs_eq inside reduces
      rebuilt, interned', fun key member => ?_, ?_, fun interp respects => ?_⟩
  · rw [stored] at member
    obtain ⟨source, present, rfl⟩ := quotient_mem member
    exact derived_rewire (fused_derived fused present) _
  · rw [marks, fused_outputs fused, List.map_map]
    rfl
  · obtain ⟨vals, valuation⟩ := sound.valuation interp interned.earlier
    obtain ⟨computed, valued, agrees⟩ :=
      sound.reduced respects egg interned.earlier inside fused valuation
    obtain ⟨final, rebuilds, places⟩ := rebuilt_valuation topological valued
    refine ⟨vals, final, valuation, stored ▸ rebuilds, fun o member => ?_⟩
    rw [← agrees o member]
    apply places
    apply inside'
    rw [fused_outputs fused]
    exact List.mem_map_of_mem member

end Pipeline

end GraphedCore
