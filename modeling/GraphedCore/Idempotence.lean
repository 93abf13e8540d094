import GraphedCore.Recorded
import GraphedCore.Serialize
import GraphedCore.Survivors

/-!
# Reducing a reduced store

A reduced list holds no plain op and nothing that its outputs do not reach, so
the second run drops nothing and rewrites nothing. It identifies the boundaries
by their tokens and rebuilds each from the first key of its token. The token of a
stage is the number of its members. So the second run returns the list it was
given exactly when the member lists of the stages are determined by their lengths.
-/

namespace GraphedCore

open Dag Wired StageFusion GraphStore

/-! ## Nothing dead survives -/

section Alive

variable {find : EngineGraph → Nat → Nat} {fired : EngineGraph → Nat → Nat → Prop}
  {nodes : List NodeKey} {outputs : List NodeId}

/-- The engine's graph reaches what the arena reaches. -/
theorem toEngineGraph_reaches {keys : List NodeKey} {roots : List Nat} {i : Nat}
    (reached : Reaches keys roots i) : Reaches (toEngineGraph keys roots).nodes roots i := by
  induction reached with
  | root member => exact .root member
  | input _ lookup member ih =>
    exact ih.input (by rw [toEngineGraph, List.getElem?_map, lookup]; rfl) member

/-- Between the passes every node is reached from the outputs. -/
theorem dedupedGraph_reaches (generated : EggGenerated find fired)
    (topological : Topological nodes) (inside : ∀ o ∈ outputs, o < nodes.length) {k : Nat}
    (bound : k < (dedupedGraph find nodes outputs).nodes.length) :
    Reaches (dedupedGraph find nodes outputs).nodes (dedupedGraph find nodes outputs).outputs k := by
  have wellFormed := liveGraph_wellFormed topological inside
  have canonicalFormed := canonicalGraph_wellFormed find topological inside
  obtain ⟨c, boundC, rfl⟩ := place_surjective bound
  obtain ⟨l, boundL, rfl⟩ := place_surjective boundC
  rw [liveGraph, toEngineGraph, List.length_map] at boundL
  obtain ⟨i, reached, _, rfl⟩ := compact_surjective boundL
  have loaded := toEngineGraph_reaches (compact_reaches reached)
  have canonical := quotient_reaches (kernel_equivalence find (liveGraph nodes outputs))
    wellFormed.earlier (fun i insideI j insideJ => generated _ wellFormed i j insideI insideJ) loaded
  exact quotient_reaches least_equivalence canonicalFormed.earlier
    (fun _ _ _ _ => Iff.rfl) canonical

end Alive

section Fusing

variable {graph : EngineGraph} {table : List (String × NodeKey)} {comp : Nat → Nat}
  {reduced : Reduced}

/-- The exit of a node that is reached is emitted, and reached in the fused
list. -/
theorem Fused.reaches (fused : Fused graph table comp reduced) (wellFormed : graph.WellFormed)
    (tabled : Tabled graph table) {i : Nat} (reached : Reaches graph.nodes graph.outputs i) :
    ∀ e, Exit graph comp e → comp e = comp i →
      Reaches reduced.nodes reduced.outputs (number (Exit graph comp) e) := by
  induction reached with
  | @root o member =>
    intro e exit same
    have exitO := fused.components.output_exit wellFormed.ordered member
    rw [exit.unique exitO same]
    exact .root (by rw [fused.outputs]; exact List.mem_map_of_mem member)
  | @input i x node reached lookup member ih =>
    intro e exit same
    have reads : x ∈ node.inputs := member
    obtain ⟨q, exitQ, sameQ, _⟩ := exit_exists comp (lookup_bound lookup)
    by_cases here : comp x = comp i
    · exact ih e exit (same.trans here)
    · have exitX := fused.components.read_exit wellFormed.ordered lookup reads here
      rw [exit.unique exitX same]
      obtain ⟨key, present, rebuilt⟩ := fused.rebuilt q exitQ
      refine (ih q exitQ sameQ).input present ?_
      cases rebuilt with
      | @boundary top template found boundary stored =>
        obtain rfl := fused.components.boundary_component found boundary (lookup_bound lookup)
          sameQ.symm
        obtain rfl := Option.some.inj (lookup.symm.trans found)
        obtain ⟨_, takes⟩ := tabled node (List.mem_of_getElem? lookup) template stored
        rw [NodeKey.wired_inputs, takes _ (List.length_map _)]
        exact List.mem_map_of_mem reads
      | @stage top slots members found op staged sources =>
        have listed : i ∈ compMembers (ids graph comp) (comp q) :=
          (mem_compMembers _ _).mpr ⟨lookup_bound lookup, sameQ.symm⟩
        obtain ⟨j, position⟩ := List.mem_iff_getElem?.mp listed
        obtain ⟨m, _, _, resolves⟩ := staged.member j i node position lookup
        obtain ⟨k, bound, rfl⟩ := List.getElem_of_mem reads
        obtain ⟨lengths, pairs⟩ := List.forall₂_iff_get.mp resolves
        have resolved := pairs k bound (lengths ▸ bound)
        cases shape : m.inputs.get ⟨k, lengths ▸ bound⟩ with
        | member l =>
          rw [shape] at resolved
          have inner := ((mem_compMembers _ _).mp (List.mem_of_getElem? resolved.2)).2
          exact absurd (inner.trans sameQ) here
        | input s =>
          rw [shape] at resolved
          have slot := List.mem_of_getElem? resolved.2
          rw [← spot_exit exitX]
          exact List.mem_map_of_mem slot

end Fusing

/-- Fusing what is left between the passes leaves nothing dead. -/
theorem fused_alive {find : EngineGraph → Nat → Nat} {fired : EngineGraph → Nat → Nat → Prop}
    {nodes : List NodeKey} {outputs : List NodeId} {comp : Nat → Nat} {red : Reduced}
    (generated : EggGenerated find fired) (topological : Topological nodes)
    (inside : ∀ o ∈ outputs, o < nodes.length)
    (fused : Fused (dedupedGraph find nodes outputs) (templates (live nodes outputs)) comp red) :
    ∀ i < red.nodes.length, Reaches red.nodes red.outputs i := by
  intro i bound
  obtain ⟨key, lookup⟩ := lookup_exists bound
  obtain ⟨e, exit, rfl⟩ := fused.exit_of_lookup lookup
  have reached := dedupedGraph_reaches generated topological inside exit.1
  exact fused.reaches (dedupedGraph_wellFormed find topological inside)
    (dedupedGraph_tabled find nodes outputs) reached e exit rfl

/-- With an engine that merges what its rules equate and what is congruent, every
node that the reduction returns is reached from the outputs that it returns.
Merging keeps what the outputs reach, and fusion drops nothing that is read. -/
theorem reduceWithMode_alive (find : EngineGraph → Nat → Nat)
    (fired : EngineGraph → Nat → Nat → Prop) (generated : EggGenerated find fired)
    {nodes : List NodeKey} (topological : Topological nodes) {outputs : List NodeId}
    (inside : ∀ o ∈ outputs, o < nodes.length) (mode : FusionMode) :
    ∃ red, reduceWithMode nodes outputs (EggEngine.canonicalize find) mode = some red ∧
      ∀ i < red.nodes.length, Reaches red.nodes red.outputs i := by
  obtain ⟨red, comp, reduces, fused⟩ := reduceWithMode_complete find topological inside mode
  exact ⟨red, reduces, fused_alive generated topological inside fused⟩

/-- A stage before an identity op, beside a dead source. Reducing it runs every
pass. -/
def aliveArena : List NodeKey :=
  [.source "unused" (.new []), .source "x" (.new []), .stage [1] [⟨"op|neg", [.input 0]⟩],
    .op "mul" (.new [("scalar", .float 0x3ff0000000000000), ("side", .str "r")]) [2],
    .op "add" (.new []) [3, 2]]

/-- An arena with a recorded stage and two outputs. -/
theorem reduceWithMode_alive_of_stage :
    ∃ red, reduceWithMode aliveArena [4, 3] (EggEngine.canonicalize saturatedFind) .maximal =
        some red ∧ ∀ i < red.nodes.length, Reaches red.nodes red.outputs i :=
  reduceWithMode_alive saturatedFind (fun _ _ _ => True) saturatedFind_saturates (by decide)
    (by decide) .maximal

/-! ## Keys determined by their tokens -/

/-- The token determines the stored key, up to the inputs. Rebuilding by tokens
then loses nothing. -/
def TokensDecide (nodes : List NodeKey) : Prop :=
  ∀ key ∈ nodes, ∀ other ∈ nodes, key.token = other.token → other = key.withInputs other.inputs

/-- Stages with equally many members have the same members. This is all that the
token of a stage tells. -/
def StagesByLength (nodes : List NodeKey) : Prop :=
  ∀ inputs members inputs' members', NodeKey.stage inputs members ∈ nodes →
    NodeKey.stage inputs' members' ∈ nodes → members.length = members'.length → members = members'

/-- The token of a stage tells no more than the number of its members. -/
theorem stage_token_eq_iff (inputs inputs' : List NodeId) (members members' : List StageOp) :
    (NodeKey.stage inputs members).token = (NodeKey.stage inputs' members').token ↔
      members.length = members'.length := by
  constructor
  · intro same
    have lists : ("stage|" ++ members.length.repr).toList =
        ("stage|" ++ members'.length.repr).toList :=
      congrArg String.toList same
    rw [String.toList_append, String.toList_append] at lists
    exact Numeral.nat_repr_inj (String.toList_injective (List.append_cancel_left lists))
  · intro same
    rw [NodeKey.token, NodeKey.token, same]

/-- Where tokens decide, stages of one length have the same members. -/
theorem TokensDecide.stagesByLength {nodes : List NodeKey} (decided : TokensDecide nodes) :
    StagesByLength nodes := by
  intro inputs members inputs' members' first second lengths
  have same := decided _ first _ second ((stage_token_eq_iff _ _ _ _).mpr lengths)
  exact (NodeKey.stage.inj same).2.symm

/-- Keys that come out of one table are determined by their tokens. -/
theorem template_decides {table : List (String × NodeKey)} {key other template template' : NodeKey}
    (stored : Table.get? (· == ·) table key.token = some template)
    (stored' : Table.get? (· == ·) table other.token = some template')
    (built : key = template.withInputs key.inputs)
    (built' : other = template'.withInputs other.inputs) (same : key.token = other.token) :
    other = key.withInputs other.inputs := by
  rw [← same, stored, Option.some.injEq] at stored'
  subst stored'
  rw [built, NodeKey.withInputs_withInputs, ← built']

/-- What has the token of a stage is a stage. -/
theorem stage_of_token {key other : NodeKey} (same : key.token = other.token)
    (stage : key.IsStage) : other.IsStage := by
  have tags := NodeKey.tag_eq same
  cases key with
  | stage => cases other <;> simp_all [NodeKey.tag, NodeKey.IsStage]
  | _ => exact stage.elim

/-- In a fused graph tokens decide as soon as stages of one length have the same
members, since all else in it was rebuilt from its token. -/
theorem Fused.tokensDecide {graph : EngineGraph} {table : List (String × NodeKey)}
    {comp : Nat → Nat} {reduced : Reduced} (fused : Fused graph table comp reduced)
    (tabled : Tabled graph table) (byLength : StagesByLength reduced.nodes) :
    TokensDecide reduced.nodes := by
  intro key member other member' same
  by_cases stage : key.IsStage
  · have stage' := stage_of_token same stage
    cases key with
    | stage inputs members =>
      cases other with
      | stage inputs' members' =>
        have lengths := (stage_token_eq_iff _ _ _ _).mp same
        rw [byLength inputs members inputs' members' member member' lengths]
        rfl
      | _ => exact stage'.elim
    | _ => exact stage.elim
  · have free : ¬ other.IsStage := fun stage' => stage (stage_of_token same.symm stage')
    obtain ⟨e, _, rebuilt⟩ := fused.rebuilt_of_mem member
    obtain ⟨e', _, rebuilt'⟩ := fused.rebuilt_of_mem member'
    obtain ⟨template, stored, built⟩ := rebuilt.template tabled (rebuilt.boundary_of_free stage)
    obtain ⟨template', stored', built'⟩ := rebuilt'.template tabled (rebuilt'.boundary_of_free free)
    exact template_decides stored stored' built built' same

/-! ## The second run -/

section Second

variable {find : EngineGraph → Nat → Nat} {fired : EngineGraph → Nat → Nat → Prop}
  {nodes : List NodeKey} {outs : List NodeId}

/-- When everything is reached, nothing is dropped. -/
theorem liveGraph_alive (topological : Topological nodes) (inside : ∀ o ∈ outs, o < nodes.length)
    (alive : ∀ i < nodes.length, Reaches nodes outs i) :
    live nodes outs = nodes ∧ liveGraph nodes outs = toEngineGraph nodes outs := by
  have kept : live nodes outs = nodes := compact_all nodes topological alive
  exact ⟨kept, by rw [liveGraph, kept, map_number_all alive inside]⟩

/-- Boundaries that differ in token or inputs: the engine has nothing to merge. -/
theorem dedupedGraph_settled (generated : EggGenerated find fired)
    (topological : Topological nodes) (inside : ∀ o ∈ outs, o < nodes.length)
    (alive : ∀ i < nodes.length, Reaches nodes outs i)
    (boundaries : ∀ key ∈ nodes, key.isBoundary = true)
    (distinct : Distinct EngineNode.token (toEngineGraph nodes outs).nodes) :
    dedupedGraph find nodes outs = toEngineGraph nodes outs := by
  have loaded := (liveGraph_alive topological inside alive).2
  have wellFormed : (toEngineGraph nodes outs).WellFormed :=
    toEngineGraph_wellFormed topological inside
  have inert : ∀ node ∈ (toEngineGraph nodes outs).nodes,
      ¬ engineRules.drops (engineRules.label node) ∧
        ¬ engineRules.commutes (engineRules.label node) := by
    intro node member
    obtain ⟨key, present, rfl⟩ := List.mem_map.mp member
    exact NodeKey.inert_of_boundary (boundaries key present)
  have discrete : Discrete (kernel find (toEngineGraph nodes outs))
      (toEngineGraph nodes outs).nodes.length := by
    intro i j insideI insideJ same
    refine cong_discrete ?_ ?_ distinct ((generated _ wellFormed i j insideI insideJ).mp same)
    · intro i _ node lookup drops
      exact absurd drops (inert node (List.mem_of_getElem? lookup)).1
    · intro i j node _ first _ _ commutes
      exact absurd commutes (inert node (List.mem_of_getElem? first)).2
  have canonical : canonicalGraph find nodes outs = toEngineGraph nodes outs := by
    rw [canonicalGraph, loaded,
      wellFormed.ordered.quotient_discrete (kernel_equivalence find _) discrete]
  rw [dedupedGraph, canonical,
    wellFormed.ordered.quotient_discrete least_equivalence (tokens_discrete distinct)]

/-- An arena of boundaries that its outputs reach, without two equal nodes, and
with keys determined by their tokens, is returned as it stands. -/
theorem reduceWithMode_settled (generated : EggGenerated find fired)
    (topological : Topological nodes) (inside : ∀ o ∈ outs, o < nodes.length)
    (alive : ∀ i < nodes.length, Reaches nodes outs i)
    (boundaries : ∀ key ∈ nodes, key.isBoundary = true)
    (distinct : Distinct NodeKey.operator nodes) (decided : TokensDecide nodes)
    (mode : FusionMode) :
    ∃ red, reduceWithMode nodes outs (EggEngine.canonicalize find) mode = some red ∧
      red.nodes = nodes ∧ red.outputs = outs := by
  have distinctTokens : Distinct EngineNode.token (toEngineGraph nodes outs).nodes := by
    intro i j node other first second tokens reads
    rw [toEngineGraph, List.getElem?_map, Option.map_eq_some_iff] at first second
    obtain ⟨key, found, rfl⟩ := first
    obtain ⟨key', found', rfl⟩ := second
    refine distinct i j key key' found found' ?_ reads
    have same := decided key (List.mem_of_getElem? found) key' (List.mem_of_getElem? found') tokens
    rw [same, NodeKey.operator_withInputs]
  have settled := dedupedGraph_settled generated topological inside alive boundaries distinctTokens
  obtain ⟨red, comp, reduces, fused⟩ := reduceWithMode_complete find topological inside mode
  rw [settled, (liveGraph_alive topological inside alive).1] at fused
  have exits : ∀ i < nodes.length, Exit (toEngineGraph nodes outs) comp i := by
    intro i bound
    have lookup : (toEngineGraph nodes outs).nodes[i]? = some (toEngineNode nodes[i]) := by
      simp [toEngineGraph, bound]
    exact fused.components.boundary_exit lookup (boundaries _ (List.getElem_mem bound))
  have numbers : ∀ i < nodes.length, number (Exit (toEngineGraph nodes outs) comp) i = i :=
    fun i bound => number_all (fun j before => exits j (before.trans bound))
  have length : red.nodes.length = nodes.length := by
    rw [fused.length, toEngineGraph, List.length_map, ← toEngineGraph]
    exact number_all exits
  refine ⟨red, reduces, List.ext_getElem? (fun i => ?_), ?_⟩
  · by_cases bound : i < nodes.length
    · obtain ⟨key, lookup⟩ := lookup_exists bound
      obtain ⟨built, present, rebuilt⟩ := fused.rebuilt i (exits i bound)
      rw [numbers i bound] at present
      rw [present, lookup]
      have member := List.mem_of_getElem? lookup
      have loaded : (toEngineGraph nodes outs).nodes[i]? = some (toEngineNode key) := by
        rw [toEngineGraph, List.getElem?_map, lookup]
        rfl
      cases rebuilt with
      | @boundary node template found _ stored =>
        obtain rfl := Option.some.inj (loaded.symm.trans found)
        rw [templates_get?, show (toEngineNode key).token = key.token from rfl] at stored
        have token : template.token = key.token := by simpa using List.find?_some stored
        have same := decided template (List.mem_of_find?_eq_some stored) key member token
        have reads : (toEngineNode key).inputs.map (number (Exit (toEngineGraph nodes outs) comp)) =
            key.inputs := by
          conv_rhs => rw [← List.map_id key.inputs]
          exact List.map_congr_left (fun x read =>
            numbers x ((topological i key lookup x read).trans bound))
        rw [reads, ← same]
      | stage found op =>
        obtain rfl := Option.some.inj (loaded.symm.trans found)
        rw [show (toEngineNode key).boundary = key.isBoundary from rfl, boundaries key member] at op
        cases op
    · rw [List.getElem?_eq_none (by omega), List.getElem?_eq_none (by omega)]
  · rw [fused.outputs]
    conv_rhs => rw [← List.map_id outs]
    exact List.map_congr_left (fun o member => numbers o (inside o member))

/-- Whatever the second run makes of an arena of boundaries, the keys of its
result are determined by their tokens. -/
theorem reduceWith_tokensDecide (find : EngineGraph → Nat → Nat) {store : GraphStore}
    (interned : store.Interned) (boundaries : ∀ key ∈ store.nodes, key.isBoundary = true)
    (mode : FusionMode) :
    ∃ again report, store.reduceWith (EggEngine.canonicalize find) mode = some (again, report) ∧
      TokensDecide again.nodes := by
  have wellFormed := dedupedGraph_wellFormed find interned.earlier interned.inside
  have tabled := dedupedGraph_tabled find store.nodes store.outputs
  obtain ⟨red, comp, reduces, fused⟩ :=
    reduceWithMode_complete find interned.earlier interned.inside mode
  obtain ⟨again, rebuilds, _, stored, _⟩ := fromReduced_complete
    (fused.topological wellFormed.ordered) (fused.outputs_inside wellFormed.ordered)
  refine ⟨again, red.report, by simp [GraphStore.reduceWith, reduces, rebuilds], ?_⟩
  have all_boundary {e : Nat} : ∀ node,
      (dedupedGraph find store.nodes store.outputs).nodes[e]? = some node → node.boundary = true := by
    intro node lookup
    obtain ⟨key, present, _, kind, _⟩ := dedupedGraph_mem (List.mem_of_getElem? lookup)
    obtain ⟨source, recorded, rfl⟩ := live_mem present
    have boundary := boundaries source recorded
    cases source <;> first | exact kind | cases boundary
  intro key member other member' same
  rw [stored] at member member'
  obtain ⟨source, present, rfl⟩ := quotient_mem member
  obtain ⟨source', present', rfl⟩ := quotient_mem member'
  rw [NodeKey.token_rewire, NodeKey.token_rewire] at same
  obtain ⟨_, _, rebuilt⟩ := fused.rebuilt_of_mem present
  obtain ⟨_, _, rebuilt'⟩ := fused.rebuilt_of_mem present'
  obtain ⟨template, table, built⟩ := rebuilt.template tabled all_boundary
  obtain ⟨template', table', built'⟩ := rebuilt'.template tabled all_boundary
  have decided := template_decides table table' built built' same
  rw [NodeKey.wired_rewire, NodeKey.wired_rewire, NodeKey.withInputs_withInputs,
    NodeKey.inputs_withInputs source' _ (List.length_map _)]
  have moved (ids : List NodeId) : source'.withInputs ids =
      (source.withInputs source'.inputs).withInputs ids := by rw [← decided]
  rw [moved, NodeKey.withInputs_withInputs]

end Second

/-! ## Idempotence -/

/-- Reducing again, with the marked outputs and the same mode, gives the same
bytes, and every stage keeps its place and its members. -/
def Idempotent (engine : RewriteEngine) (mode : FusionMode) (store : GraphStore) : Prop :=
  ∃ again report, store.reduceWith engine mode = some (again, report) ∧
    Serialize.serialize again = Serialize.serialize store ∧
    ∀ (i : NodeId) (inputs : List NodeId) (members : List StageOp),
      store.nodes[i]? = some (.stage inputs members) →
        again.nodes[i]? = some (.stage inputs members)

section Twice

variable {find : EngineGraph → Nat → Nat} {fired : EngineGraph → Nat → Nat → Prop}

/-- What the first run hands to the second: boundaries only, all reached from the
marked outputs, no two equal, and determined by their tokens if the stages are. -/
theorem reduceWithOutputs_settles (generated : EggGenerated find fired) {store : GraphStore}
    (interned : store.Interned) (free : ∀ key ∈ store.nodes, ¬ key.IsStage) {outs : List NodeId}
    (inside : ∀ o ∈ outs, o < store.nodes.length) (mode : FusionMode) :
    ∃ reduced report, store.reduceWithOutputs outs (EggEngine.canonicalize find) mode =
        some (.ok (reduced, report)) ∧
      reduced.Interned ∧ (∀ key ∈ reduced.nodes, key.isBoundary = true) ∧
      (∀ i < reduced.nodes.length, Reaches reduced.nodes reduced.outputs i) ∧
      Distinct NodeKey.operator reduced.nodes ∧
      (StagesByLength reduced.nodes → TokensDecide reduced.nodes) := by
  have wellFormed := dedupedGraph_wellFormed find interned.earlier inside
  have tabled := dedupedGraph_tabled find store.nodes outs
  obtain ⟨red, comp, reduced, reduces, fused, interned', nodes, outputs⟩ :=
    reduceWithOutputs_complete find interned free inside mode
  refine ⟨reduced, red.report, reduces, interned', ?_, ?_, ?_, ?_⟩
  · intro key member
    obtain ⟨_, _, rebuilt⟩ := fused.rebuilt_of_mem (nodes ▸ member)
    exact rebuilt.isBoundary wellFormed tabled
  · intro i bound
    rw [nodes] at bound ⊢
    refine (fused_alive generated interned.earlier inside fused i bound).mono ?_
    intro o member
    rw [outputs, mem_marked]
    exact Or.inr member
  · rw [nodes]
    exact fused.distinct wellFormed (dedupedGraph_faithful find free outs)
      (dedupedGraph_distinct find store.nodes outs)
  · rw [nodes]
    exact fused.tokensDecide tabled

/-- A settled store is reduced to itself exactly when its stages are determined by
their lengths. -/
theorem idempotent_iff (generated : EggGenerated find fired) {store : GraphStore}
    (interned : store.Interned) (boundaries : ∀ key ∈ store.nodes, key.isBoundary = true)
    (alive : ∀ i < store.nodes.length, Reaches store.nodes store.outputs i)
    (distinct : Distinct NodeKey.operator store.nodes)
    (decided : StagesByLength store.nodes → TokensDecide store.nodes) (mode : FusionMode) :
    Idempotent (EggEngine.canonicalize find) mode store ↔ StagesByLength store.nodes := by
  constructor
  · rintro ⟨again, report, reduces, _, kept⟩ inputs members inputs' members' first second lengths
    obtain ⟨other, report', reduces', decides⟩ :=
      reduceWith_tokensDecide find interned boundaries mode
    obtain ⟨rfl, rfl⟩ : again = other ∧ report = report' := by
      simpa using reduces.symm.trans reduces'
    have survives {inputs : List NodeId} {members : List StageOp}
        (member : NodeKey.stage inputs members ∈ store.nodes) :
        NodeKey.stage inputs members ∈ again.nodes := by
      obtain ⟨i, lookup⟩ := List.mem_iff_getElem?.mp member
      exact List.mem_of_getElem? (kept i inputs members lookup)
    exact decides.stagesByLength inputs members inputs' members' (survives first)
      (survives second) lengths
  · intro byLength
    obtain ⟨red, reduces, nodes, outputs⟩ := reduceWithMode_settled generated interned.earlier
      interned.inside alive boundaries distinct (decided byLength) mode
    obtain ⟨again, rebuilds, _, sameNodes, marks⟩ := fromReduced_distinct
      (nodes.symm ▸ interned.earlier) (by rw [nodes, outputs]; exact interned.inside)
      (nodes.symm ▸ distinct)
    have sameOutputs : again.outputs = store.outputs := by
      rw [marks, outputs, marked_fresh (by simpa using interned.once), List.nil_append]
    refine ⟨again, red.report, by simp [GraphStore.reduceWith, reduces, rebuilds], ?_, ?_⟩
    · rw [Serialize.serialize, Serialize.serialize, Serialize.serializeWith,
        Serialize.serializeWith, sameNodes, nodes, sameOutputs]
    · intro i inputs members lookup
      rw [sameNodes, nodes, lookup]

end Twice

/-- Reducing a reduced store again gives the same bytes, with every stage in its
place, exactly when the reduced store has no two stages of one length with
different members. -/
theorem reduction_idempotent_iff (find : EngineGraph → Nat → Nat)
    (fired : EngineGraph → Nat → Nat → Prop) (generated : EggGenerated find fired)
    (calls : List Call) (plain : ∀ call ∈ calls, call.IsPlain) (outs : List NodeId)
    (inside : ∀ o ∈ outs, o < (Call.run .new calls).nodeCount) (mode : FusionMode) :
    ∃ reduced report, (Call.run .new calls).reduceWithOutputs outs (EggEngine.canonicalize find)
        mode = some (.ok (reduced, report)) ∧
      (Idempotent (EggEngine.canonicalize find) mode reduced ↔ StagesByLength reduced.nodes) := by
  have free : ∀ key ∈ (Call.run .new calls).nodes, ¬ key.IsStage :=
    fun key member => (Call.plain_run plain key member).free
  obtain ⟨reduced, report, reduces, interned, boundaries, alive, distinct, decided⟩ :=
    reduceWithOutputs_settles generated (Call.interned_run interned_new calls) free inside mode
  exact ⟨reduced, report, reduces,
    idempotent_iff generated interned boundaries alive distinct decided mode⟩

/-- Two sources with one op on each: two stages of one member, and so of one
token. -/
def twoStagesCalls : List Call :=
  [.addSource "x" (.new []), .addSource "y" (.new []), .addOp "neg" [0] (.new []),
    .addOp "abs" [1] (.new [])]

/-- Two sources, each under an op: the reduced graph has two stages of one
member. -/
theorem reduction_idempotent_iff_of_two_stages :
    ∃ reduced report, (Call.run .new twoStagesCalls).reduceWithOutputs [2, 3]
        (EggEngine.canonicalize saturatedFind) .singleUse = some (.ok (reduced, report)) ∧
      (Idempotent (EggEngine.canonicalize saturatedFind) .singleUse reduced ↔
        StagesByLength reduced.nodes) :=
  reduction_idempotent_iff saturatedFind (fun _ _ _ => True) saturatedFind_saturates
    twoStagesCalls (by decide) [2, 3] (by decide) .singleUse

/-- The second run gives the second stage the member of the first, since one token
stands for both. -/
theorem stages_confused :
    ¬ ∃ reduced report, (Call.run .new twoStagesCalls).reduceWithOutputs [2, 3]
        (EggEngine.canonicalize saturatedFind) .singleUse = some (.ok (reduced, report)) ∧
      Idempotent (EggEngine.canonicalize saturatedFind) .singleUse reduced := by
  have interned := Call.interned_run interned_new twoStagesCalls
  have inside : ∀ o ∈ [2, 3], o < (Call.run .new twoStagesCalls).nodes.length := by decide
  have plain := @Call.plain_run twoStagesCalls (by decide)
  obtain ⟨reduced, report, reduces, interned', boundaries, alive, distinct, decided⟩ :=
    reduceWithOutputs_settles saturatedFind_saturates interned
      (fun key member => (plain key member).free) inside .singleUse
  rintro ⟨other, _, reduces', idempotent⟩
  obtain ⟨rfl, rfl⟩ : reduced = other ∧ report = _ := by simpa using reduces.symm.trans reduces'
  have byLength := (idempotent_iff saturatedFind_saturates interned' boundaries alive distinct
    decided .singleUse).mp idempotent
  have dead : deadCodeElimination (Call.run .new twoStagesCalls).nodes [2, 3] =
      some ((Call.run .new twoStagesCalls).nodes, [2, 3]) := by decide +kernel
  have plainly := reduceWithOutputs_of_different saturatedFind_saturates dead interned.earlier
    inside (by decide +kernel) (by decide +kernel) .singleUse
  have computed : ((Call.run .new twoStagesCalls).reduceWithOutputs [2, 3] some .singleUse).map
      (fun answer => answer.toOption.map (fun result => result.1.nodes)) =
        some (some [.source "x" (.new []), .source "y" (.new []),
          .stage [0] [⟨"op|neg", [.input 0]⟩], .stage [1] [⟨"op|abs", [.input 0]⟩]]) := by
    decide +kernel
  have nodes : reduced.nodes = [.source "x" (.new []), .source "y" (.new []),
      .stage [0] [⟨"op|neg", [.input 0]⟩], .stage [1] [⟨"op|abs", [.input 0]⟩]] := by
    rw [← plainly, reduces] at computed
    simpa [Except.toOption] using computed
  rw [nodes] at byLength
  have confused := byLength [0] [⟨"op|neg", [.input 0]⟩] [1] [⟨"op|abs", [.input 0]⟩] (by simp)
    (by simp) rfl
  exact absurd confused (by decide)

end GraphedCore
