import GraphedCore.Survivors

/-!
# The report of a reduction

The counts are taken before the result is interned again. They are the counts of the
returned store because no two emitted nodes are equal, so interning merges none. Every
component is emitted as one node, and the components share out the canonical nodes: a
boundary is one of them, and a stage has as many members as its component.
-/

namespace GraphedCore

open Dag Wired StageFusion

/-- The ops fused into a node. A boundary has none. -/
def NodeKey.members : NodeKey → List StageOp
  | .stage _ members => members
  | _ => []

/-- What is no stage has no members. -/
theorem NodeKey.members_of_free {key : NodeKey} (free : ¬ key.IsStage) : key.members = [] := by
  cases key with
  | stage => exact absurd trivial free
  | _ => rfl

namespace StageFusion

variable {graph : EngineGraph} {templates : List (String × NodeKey)} {compId : List Nat}

/-- A stage has a member for each op of its component. -/
theorem stageOps_length {ops slots slots' rest : List Nat} {members : List StageOp}
    (did : stageOps graph compId ops slots rest = some (slots', members)) :
    members.length = rest.length := by
  induction rest generalizing slots slots' members with
  | nil =>
    obtain ⟨_, rfl⟩ := Prod.mk.inj (Option.some.inj did)
    rfl
  | cons op rest ih =>
    obtain ⟨node, _, did⟩ := Option.bind_eq_some_iff.mp did
    obtain ⟨⟨middle, refs⟩, _, did⟩ := Option.bind_eq_some_iff.mp did
    obtain ⟨⟨final, others⟩, later, did⟩ := Option.bind_eq_some_iff.mp did
    obtain ⟨_, rfl⟩ := Prod.mk.inj (Option.some.inj did)
    rw [List.length_cons, List.length_cons, ih later]

/-- The counts after the components in `emitted`: the stages and the boundaries
are the nodes, and the boundaries and the members of the stages are the canonical
nodes. -/
structure Counted (compId emitted : List Nat) (state : State) : Prop where
  nodes : state.reduced.length = state.stages + state.boundaryNodes
  stages : state.stages = state.reduced.countP (fun key => decide key.IsStage)
  members : (emitted.flatMap (compMembers compId)).length =
    state.boundaryNodes + (state.reduced.flatMap NodeKey.members).length

/-- One emission keeps the counts right: a boundary counts as one node, and a
component of ops as a stage with its members. -/
theorem Counted.emit {emitted : List Nat} {state next : State} {comp : Nat}
    (counted : Counted compId emitted state)
    (free : ∀ token template, Table.get? (· == ·) templates token = some template →
      ¬ template.IsStage)
    (alone : ∀ head, graph.nodes[comp]? = some head → head.boundary = true →
      compMembers compId comp = [comp])
    (did : StageFusion.emit graph templates compId state comp = some next) :
    Counted compId (emitted ++ [comp]) next := by
  obtain ⟨head, lookup, did⟩ := Option.bind_eq_some_iff.mp did
  split at did
  · rename_i boundary
    obtain ⟨inputs, _, did⟩ := Option.bind_eq_some_iff.mp did
    obtain ⟨template, stored, did⟩ := Option.bind_eq_some_iff.mp did
    obtain rfl := Option.some.inj did
    have plain : ¬ (template.withInputs inputs).IsStage :=
      fun stage => free _ _ stored ((template.isStage_withInputs inputs).mp stage)
    refine ⟨?_, ?_, ?_⟩
    · simp [counted.nodes, Nat.add_assoc]
    · simp [counted.stages, plain]
    · simp [counted.members, alone head lookup boundary, NodeKey.members_of_free plain,
        Nat.add_right_comm]
  · obtain ⟨⟨slots, members⟩, ran, did⟩ := Option.bind_eq_some_iff.mp did
    obtain ⟨inputs, _, did⟩ := Option.bind_eq_some_iff.mp did
    obtain rfl := Option.some.inj did
    have stage : (NodeKey.stage inputs members).IsStage := trivial
    refine ⟨?_, ?_, ?_⟩
    · simp [counted.nodes, Nat.add_right_comm]
    · simp [counted.stages, stage]
    · simp [counted.members, NodeKey.members, stageOps_length ran, Nat.add_assoc]

/-- The counts after all emissions, by induction on the components. -/
theorem Counted.run {emitted comps : List Nat} {state final : State}
    (counted : Counted compId emitted state)
    (free : ∀ token template, Table.get? (· == ·) templates token = some template →
      ¬ template.IsStage)
    (alone : ∀ comp ∈ comps, ∀ head, graph.nodes[comp]? = some head → head.boundary = true →
      compMembers compId comp = [comp])
    (ran : comps.foldlM (StageFusion.emit graph templates compId) state = some final) :
    Counted compId (emitted ++ comps) final := by
  induction comps generalizing emitted state with
  | nil =>
    obtain rfl := Option.some.inj ran
    rwa [List.append_nil]
  | cons comp rest ih =>
    rw [List.foldlM_cons, Option.bind_eq_bind, Option.bind_eq_some_iff] at ran
    obtain ⟨next, did, later⟩ := ran
    have counted' := counted.emit free (alone comp List.mem_cons_self) did
    have all := ih counted' (fun c member => alone c (List.mem_cons_of_mem comp member)) later
    rwa [List.append_assoc] at all

/-- Every component is listed once. -/
theorem comps_nodup (compId : List Nat) : (comps compId).Nodup :=
  (List.perm_insertionSort _ _).nodup_iff.mpr (List.nodup_dedup _)

/-- The components that are listed are those of the nodes. -/
theorem mem_comps (graph : EngineGraph) (comp : Nat → Nat) (c : Nat) :
    c ∈ comps (ids graph comp) ↔ ∃ i < graph.nodes.length, comp i = c := by
  rw [comps, List.mem_insertionSort, List.mem_dedup, ids, List.mem_map]
  simp only [List.mem_range]

/-- The components share out the nodes. -/
theorem comps_members (graph : EngineGraph) (comp : Nat → Nat) :
    ((comps (ids graph comp)).flatMap (compMembers (ids graph comp))).length =
      graph.nodes.length := by
  have nodup : ((comps (ids graph comp)).flatMap (compMembers (ids graph comp))).Nodup := by
    refine List.nodup_flatMap.mpr ⟨fun c _ => ?_, (comps_nodup _).imp (fun {c d} different => ?_)⟩
    · exact (compMembers_sorted _ c).imp (fun less => Nat.ne_of_lt less)
    · intro i here there
      exact different
        (((mem_compMembers c i).mp here).2.symm.trans ((mem_compMembers d i).mp there).2)
  have same (i : Nat) : i ∈ (comps (ids graph comp)).flatMap (compMembers (ids graph comp)) ↔
      i ∈ List.range graph.nodes.length := by
    rw [List.mem_flatMap, List.mem_range]
    constructor
    · rintro ⟨c, _, member⟩
      exact ((mem_compMembers c i).mp member).1
    · intro inside
      exact ⟨comp i, (mem_comps graph comp _).mpr ⟨i, inside, rfl⟩,
        (mem_compMembers _ _).mpr ⟨inside, rfl⟩⟩
  have perm := (List.perm_ext_iff_of_nodup nodup List.nodup_range).mpr same
  rw [perm.length_eq, List.length_range]

/-- A boundary is alone in its component. -/
theorem Components.members_boundary {comp : Nat → Nat} (components : Components graph comp)
    {c : Nat} {head : EngineNode} (lookup : graph.nodes[c]? = some head)
    (boundary : head.boundary = true) : compMembers (ids graph comp) c = [c] := by
  have own := components.boundary_own lookup boundary
  have sorted := compMembers_sorted (ids graph comp) c
  have only : ∀ i, i ∈ compMembers (ids graph comp) c ↔ i = c := by
    intro i
    rw [mem_compMembers]
    constructor
    · rintro ⟨inside, same⟩
      exact components.boundary_component lookup boundary inside (same.trans own.symm)
    · rintro rfl
      exact ⟨lookup_bound lookup, own⟩
  refine List.perm_singleton.mp ((List.perm_ext_iff_of_nodup ?_ (List.nodup_singleton c)).mpr ?_)
  · exact sorted.imp (fun less => Nat.ne_of_lt less)
  · intro i
    rw [only, List.mem_singleton]

end StageFusion

/-- What stage fusion reports is counted on what it returns. -/
theorem stageFusion_report {graph : EngineGraph} {templates : List (String × NodeKey)}
    {mode : FusionMode} {out : Reduced} (ordered : graph.Ordered)
    (free : ∀ token template, Table.get? (· == ·) templates token = some template →
      ¬ template.IsStage)
    (fused : stageFusion graph templates mode = some out) :
    out.report.reducedNodes = out.nodes.length ∧
      out.nodes.length = out.report.stages + out.report.boundaryNodes ∧
      out.report.stages = out.nodes.countP (fun key => decide key.IsStage) ∧
      graph.nodes.length =
        out.report.boundaryNodes + (out.nodes.flatMap NodeKey.members).length := by
  obtain ⟨comp, assigned, components⟩ := compId_complete ordered mode
  rw [stageFusion, assigned, Option.bind_eq_bind, Option.bind_some] at fused
  obtain ⟨state, ran, fused⟩ := Option.bind_eq_some_iff.mp fused
  obtain ⟨outs, _, fused⟩ := Option.bind_eq_some_iff.mp fused
  obtain rfl := Option.some.inj fused
  have start : Counted (ids graph comp) [] ⟨[], [], 0, 0⟩ := ⟨rfl, rfl, rfl⟩
  have counted := start.run free
    (fun c _ head lookup boundary => components.members_boundary lookup boundary) ran
  refine ⟨rfl, counted.nodes, counted.stages, ?_⟩
  rw [← counted.members, List.nil_append, ← ids, comps_members]

section Report

variable {find : EngineGraph → Nat → Nat} {nodes : List NodeKey} {outputs : List NodeId}

/-- The report that comes with a reduction of an arena without stages. -/
theorem reduceWithMode_report (topological : Topological nodes)
    (free : ∀ key ∈ nodes, ¬ key.IsStage) (inside : ∀ o ∈ outputs, o < nodes.length)
    {mode : FusionMode} {red : Reduced}
    (reduces : reduceWithMode nodes outputs (EggEngine.canonicalize find) mode = some red) :
    red.report.reducedNodes = red.nodes.length ∧
      red.nodes.length = red.report.stages + red.report.boundaryNodes ∧
      red.report.stages = red.nodes.countP (fun key => decide key.IsStage) ∧
      red.report.canonicalNodes =
        red.report.boundaryNodes + (red.nodes.flatMap NodeKey.members).length ∧
      red.report.canonicalNodes ≤ red.report.reachableNodes ∧
      red.report.reachableNodes ≤ red.report.inputNodes := by
  rw [reduceWithMode_eq find topological inside, Option.map_eq_some_iff] at reduces
  obtain ⟨out, fused, rfl⟩ := reduces
  have wellFormed := dedupedGraph_wellFormed find topological inside
  obtain ⟨total, split, stages, members⟩ := stageFusion_report wellFormed.ordered
    (fun token template stored => live_free free template (by
      rw [templates_get?] at stored
      exact List.mem_of_find?_eq_some stored)) fused
  refine ⟨total, split, stages, members, dedupedGraph_length_le_live find nodes outputs, ?_⟩
  show (live nodes outputs).length ≤ nodes.length
  rw [live_length]
  exact number_le _ _

end Report

/-- For every store without stages, outputs in range and fusion mode, whatever the
engine merges: interning the reduced list neither fails nor merges, and the report
counts the nodes of the store that is returned. -/
theorem report_matches (find : EngineGraph → Nat → Nat) {store : GraphStore}
    (interned : store.Interned) (free : ∀ key ∈ store.nodes, ¬ key.IsStage) {outs : List NodeId}
    (inside : ∀ o ∈ outs, o < store.nodes.length) (mode : FusionMode) :
    ∃ red reduced report,
      reduceWithMode store.nodes outs (EggEngine.canonicalize find) mode = some red ∧
      GraphStore.fromReduced red = some (reduced, report) ∧
      store.reduceWithOutputs outs (EggEngine.canonicalize find) mode =
        some (.ok (reduced, report)) ∧
      reduced.nodes = red.nodes ∧ report.reducedNodes = reduced.nodeCount ∧
      report.reducedNodes = report.stages + report.boundaryNodes ∧
      report.stages = reduced.nodes.countP (fun key => decide key.IsStage) ∧
      report.canonicalNodes =
        report.boundaryNodes + (reduced.nodes.flatMap NodeKey.members).length ∧
      report.canonicalNodes ≤ report.reachableNodes ∧ report.reachableNodes ≤ report.inputNodes ∧
      report.inputNodes = store.nodeCount := by
  have wellFormed := dedupedGraph_wellFormed find interned.earlier inside
  obtain ⟨red, comp, _, reduces, fused, topological, outputs_inside, _⟩ :=
    reduceWithMode_rebuilds find interned.earlier inside mode
  obtain ⟨reduced, rebuilt, _, nodes, _⟩ :=
    GraphStore.fromReduced_distinct topological outputs_inside
      (fused.distinct wellFormed (dedupedGraph_faithful find free outs)
        (dedupedGraph_distinct find store.nodes outs))
  obtain ⟨total, split, stages, members, canonical, reachable⟩ :=
    reduceWithMode_report interned.earlier free inside reduces
  have input : red.report.inputNodes = store.nodeCount := by
    rw [reduceWithMode_eq find interned.earlier inside, Option.map_eq_some_iff] at reduces
    obtain ⟨out, _, rfl⟩ := reduces
    rfl
  refine ⟨red, reduced, red.report, reduces, rebuilt,
    GraphStore.reduceWithOutputs_eq inside reduces rebuilt, nodes, ?_, total.trans split, ?_, ?_,
    canonical, reachable, input⟩
  · rw [GraphStore.nodeCount, nodes, total]
  · rw [nodes, stages]
  · rw [nodes, members]

/-- A diamond of ops before a reduction, which the two modes fuse differently. -/
def diamondCalls : List Call :=
  [.addSource "x" (.new []), .addOp "neg" [0] (.new []), .addOp "abs" [1] (.new []),
    .addOp "exp" [1] (.new []), .addOp "sub" [2, 3] (.new []), .addReduction "sum" [4] (.new [])]

/-- A diamond, asked for twice, is one stage before a reduction. -/
theorem report_matches_of_diamond :
    ∃ red reduced report,
      reduceWithMode (Call.run .new diamondCalls).nodes [5, 5]
        (EggEngine.canonicalize (fun _ i => i)) .maximal = some red ∧
      GraphStore.fromReduced red = some (reduced, report) ∧
      report.reducedNodes = reduced.nodeCount ∧ report.inputNodes = 6 := by
  have free : ∀ key ∈ (Call.run .new diamondCalls).nodes, ¬ key.IsStage := by decide +kernel
  obtain ⟨red, reduced, report, reduces, rebuilt, _, _, nodes, _, _, _, _, _, input⟩ :=
    @report_matches (fun _ i => i) _ (Call.interned_run GraphStore.interned_new diamondCalls) free
      [5, 5] (by decide +kernel) .maximal
  exact ⟨red, reduced, report, reduces, rebuilt, nodes, input.trans (by decide +kernel)⟩

end GraphedCore
