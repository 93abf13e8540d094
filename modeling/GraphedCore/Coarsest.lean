import GraphedCore.Lib.Exits
import GraphedCore.Report

/-!
# Maximal fusion is coarsest

A partition of the ops into stages is legal when no stage has two exits. The descending
pass of maximal fusion is greedy: an op that need not leave its stage is put into the
stage of its consumers whenever they share one. So each legal partition refines the one
it computes, which is legal itself, and no legal fusion has fewer stages.
-/

namespace GraphedCore

open Dag Wired

namespace StageFusion

variable {graph : EngineGraph}

/-- The nodes that a stage can hold. A partition into stages is an equivalence on
these. -/
abbrev Op (graph : EngineGraph) := { i : Nat // IsOp graph i }

/-- A requested output, without consumers, read by a boundary, or read from
another block. -/
def Exposed (graph : EngineGraph) (r : Setoid (Op graph)) (i : Op graph) : Prop :=
  i.1 ∈ graph.outputs ∨ ¬ Read graph i.1 ∨
    (∃ (k : Nat) (user : EngineNode), graph.nodes[k]? = some user ∧ user.boundary = true ∧
      i.1 ∈ user.inputs) ∨
    ∃ k : Op graph, Reads graph k.1 i.1 ∧ ¬ r i k

/-- Every block has at most one member that is exposed, which is the one that the
stage gives out. -/
def Legal (graph : EngineGraph) (r : Setoid (Op graph)) : Prop :=
  ∀ i j, r i j → Exposed graph r i → Exposed graph r j → i = j

/-- Ops of one component id, as the partition that the pass reports. -/
def blocks (graph : EngineGraph) (compId : List Nat) : Setoid (Op graph) :=
  Setoid.ker (fun i : Op graph => compId[i.1]?)

/-! ## The descending pass -/

/-- What the pass asks of an op to let it join a component: it is no output, it is
read, and all its readers are there. -/
def Joins (graph : EngineGraph) (comp : List Nat) (i t : Nat) : Prop :=
  IsOp graph i ∧ i ∉ graph.outputs ∧ Read graph i ∧
    ∀ k, Reads graph k i → IsOp graph k ∧ comp[k]? = some t

/-- The pass leaves a node alone or with a consumer, and lets it join what it
may. -/
structure Ruled (graph : EngineGraph) (comp : List Nat) (i : Nat) : Prop where
  moved : comp[i]? = some i ∨ ∃ k, Reads graph k i ∧ comp[i]? = comp[k]?
  joined : ∀ t, Joins graph comp i t → comp[i]? = some t

/-- The rule at a node depends on the node and its consumers. -/
theorem Ruled.congr {comp comp' : List Nat} {i : Nat} (ruled : Ruled graph comp i)
    (here : comp'[i]? = comp[i]?) (users : ∀ k, Reads graph k i → comp'[k]? = comp[k]?) :
    Ruled graph comp' i where
  moved := by
    rw [here]
    refine ruled.moved.imp_right (fun moved => ?_)
    obtain ⟨k, reads, same⟩ := moved
    exact ⟨k, reads, by rw [users k reads, same]⟩
  joined t joins := by
    rw [here]
    refine ruled.joined t ⟨joins.1, joins.2.1, joins.2.2.1, fun k reads => ?_⟩
    rw [← users k reads]
    exact joins.2.2.2 k reads

/-- A node that no output asks for joins the stage of its users, when all of them
are ops of one stage. -/
theorem maximalVisit_joins {count first : Nat} {comp : List Nat} {lists : List (List Nat)}
    {marks : List Bool} {node : EngineNode} {users : List Nat}
    (lookup : graph.nodes[count]? = some node) (op : node.boundary = false)
    (used : lists[count]? = some users) (marked : marks[count]? = some false)
    (read : users ≠ []) (together : ∀ k ∈ users, IsOp graph k ∧ comp[k]? = some first) :
    maximalVisit graph lists marks comp count = some (comp.set count first) := by
  obtain ⟨c, rest, rfl⟩ := List.exists_cons_of_ne_nil read
  have kinds : (c :: rest).mapM (fun k => (graph.nodes[k]?).map EngineNode.boundary) =
      some ((c :: rest).map (fun _ => false)) :=
    Enumerate.mapM_complete _ _ _ (fun k member => by
      obtain ⟨user, found, op⟩ := (together k member).1
      simp [found, op])
  have comps : (c :: rest).mapM (fun k => comp[k]?) = some ((c :: rest).map (fun _ => first)) :=
    Enumerate.mapM_complete _ _ _ (fun k member => (together k member).2)
  have joined : comp[c]? = some first := (together c List.mem_cons_self).2
  simp only [maximalVisit, lookup, marked, used, op, kinds, comps, joined, Option.bind_eq_bind,
    Option.bind_some]
  simp

/-- A visit changes the visited node only, and leaves it as the rule asks. -/
theorem maximalVisit_ruled {count : Nat} {comp comp' : List Nat} {lists : List (List Nat)}
    {marks : List Bool} (earlier : Topological graph.nodes) (tables : Tables graph lists marks)
    (length : comp.length = graph.nodes.length)
    (fresh : comp[count]? = some count) (inside : count < graph.nodes.length)
    (visited : maximalVisit graph lists marks comp count = some comp') :
    comp'.length = graph.nodes.length ∧ (∀ j, j ≠ count → comp'[j]? = comp[j]?) ∧
      Ruled graph comp' count := by
  obtain ⟨node, lookup⟩ := lookup_exists inside
  obtain ⟨users, mark, used, marked⟩ := tables.entry count inside
  have reader := tables.uses count users used
  have later {k : Nat} (reads : Reads graph k count) : k ≠ count := by
    obtain ⟨user, found, member⟩ := reads
    exact Nat.ne_of_gt (earlier k user found count member)
  have may (t : Nat) (joins : Joins graph comp count t) :
      maximalVisit graph lists marks comp count = some (comp.set count t) := by
    obtain ⟨⟨_, found, op⟩, hidden, ⟨k, reads⟩, together⟩ := joins
    obtain rfl := Option.some.inj (lookup.symm.trans found)
    have plain : mark = false := by
      rw [Bool.eq_false_iff]
      exact fun output => hidden ((tables.outs count mark marked).mp output)
    exact maximalVisit_joins lookup op used (plain ▸ marked)
      (List.ne_nil_of_mem ((reader k).mpr reads))
      (fun c member => together c ((reader c).mp member))
  by_cases joinable : ∃ t, Joins graph comp count t
  · obtain ⟨t, joins⟩ := joinable
    obtain rfl := Option.some.inj ((may t joins).symm.trans visited)
    have kept (j : Nat) (other : j ≠ count) : (comp.set count t)[j]? = comp[j]? :=
      List.getElem?_set_ne (Ne.symm other)
    have here : (comp.set count t)[count]? = some t :=
      List.getElem?_set_self (length.symm ▸ inside)
    obtain ⟨k, reads⟩ := joins.2.2.1
    have there : (comp.set count t)[k]? = some t :=
      (kept k (later reads)).trans (joins.2.2.2 k reads).2
    refine ⟨by rw [List.length_set, length], kept, Or.inr ⟨k, reads, here.trans there.symm⟩, ?_⟩
    intro t' joins'
    rw [here, ← there]
    exact (joins'.2.2.2 k reads).2
  · have present : ∀ k ∈ users, ∃ user, graph.nodes[k]? = some user :=
      fun k member => ((reader k).mp member).imp (fun _ both => both.1)
    rcases maximalVisit_cases lookup used marked length present with
      did | ⟨c, first, member, op, plain, together, _⟩
    · obtain rfl := Option.some.inj (did.symm.trans visited)
      exact ⟨length, fun _ _ => rfl, Or.inl fresh, fun t joins => absurd ⟨t, joins⟩ joinable⟩
    · refine absurd ⟨first, ⟨node, lookup, op⟩, tables.hidden (plain ▸ marked),
        ⟨c, (reader c).mp member⟩, fun k reads => ?_⟩ joinable
      exact together k ((reader k).mpr reads)

/-- The pass makes every node it visits follow the rule. -/
theorem maximalFrom_ruled {lists : List (List Nat)} {marks : List Bool}
    (earlier : Topological graph.nodes) (tables : Tables graph lists marks) {count : Nat}
    {comp final : List Nat} (length : comp.length = graph.nodes.length)
    (le : count ≤ graph.nodes.length) (fresh : ∀ i < count, comp[i]? = some i)
    (ran : maximalFrom graph lists marks count comp = some final) :
    (∀ j, count ≤ j → final[j]? = comp[j]?) ∧ ∀ i < count, Ruled graph final i := by
  induction count generalizing comp with
  | zero =>
    obtain rfl := Option.some.inj ran
    exact ⟨fun j _ => rfl, fun i impossible => absurd impossible (Nat.not_lt_zero i)⟩
  | succ count ih =>
    obtain ⟨next, visited, ran⟩ := Option.bind_eq_some_iff.mp ran
    obtain ⟨length', kept, ruled⟩ := maximalVisit_ruled earlier tables length
      (fresh count (Nat.lt_succ_self count)) le visited
    obtain ⟨above, below⟩ := ih length' (Nat.le_of_succ_le le) (fun i before => by
      rw [kept i (Nat.ne_of_lt before)]
      exact fresh i (Nat.lt_succ_of_lt before)) ran
    refine ⟨fun j beyond => ?_, fun i before => ?_⟩
    · rw [above j (Nat.le_of_succ_le beyond), kept j (Nat.ne_of_gt beyond)]
    · rcases Nat.eq_or_lt_of_le (Nat.le_of_lt_succ before) with rfl | earlier'
      · refine ruled.congr (above i le_rfl) (fun k reads => ?_)
        obtain ⟨user, found, member⟩ := reads
        exact above k (earlier k user found i member).le
      · exact below i earlier'

/-- After the maximal pass every node has been left alone or put with a consumer,
and has joined what it may join. -/
theorem maximal_ruled (ordered : graph.Ordered) {comp : List Nat}
    (assigned : compId graph .maximal = some comp) :
    ∀ i < graph.nodes.length, Ruled graph comp i := by
  obtain ⟨lists, marks, consumed, marked, tables⟩ := tables_complete ordered
  have ran : maximalFrom graph lists marks graph.nodes.length (List.range graph.nodes.length) =
      some comp := by
    simpa [compId, consumed, marked, maximal] using assigned
  exact (maximalFrom_ruled ordered.earlier tables List.length_range le_rfl
    (fun i inside => by simp [inside]) ran).2

/-- Components of the pass are named by their last members. -/
theorem Ruled.ahead (earlier : Topological graph.nodes) {comp : List Nat}
    (ruled : ∀ i < graph.nodes.length, Ruled graph comp i) {i t : Nat}
    (inside : i < graph.nodes.length) (at_t : comp[i]? = some t) : i ≤ t := by
  rcases (ruled i inside).moved with own | ⟨k, ⟨user, found, reads⟩, same⟩
  · rw [own] at at_t
    exact (Option.some.inj at_t).le
  · have later := earlier k user found i reads
    have bound := lookup_bound found
    exact later.le.trans (Ruled.ahead earlier ruled bound (same.symm.trans at_t))
termination_by graph.nodes.length - i

/-- An op that shares a component with a later node is read by some node. An op
that nobody reads stays alone. -/
theorem maximal_feeding (ordered : graph.Ordered) {comp : Nat → Nat}
    (assigned : compId graph .maximal = some (ids graph comp)) :
    ∀ i j, i < j → j < graph.nodes.length → comp i = comp j → Read graph i := by
  intro i j less inside same
  have ruled := maximal_ruled ordered assigned
  have insideI := less.trans inside
  rcases (ruled i insideI).moved with own | ⟨k, reads, _⟩
  · have ahead := Ruled.ahead ordered.earlier ruled inside (ids_getElem? inside)
    rw [ids_getElem? insideI] at own
    have named := Option.some.inj own
    omega
  · exact ⟨k, reads⟩

/-! ## Legal partitions -/

/-- An op that leaves its block whatever the partition is: an output, an unread
op, or one that a boundary reads. -/
def Bound (graph : EngineGraph) (i : Op graph) : Prop :=
  i.1 ∈ graph.outputs ∨ ¬ Read graph i.1 ∨
    ∃ (k : Nat) (user : EngineNode), graph.nodes[k]? = some user ∧ user.boundary = true ∧
      i.1 ∈ user.inputs

/-- The ops of a graph by the ops that read them. -/
def UsedBy (graph : EngineGraph) (i k : Op graph) : Prop := Reads graph k.1 i.1

/-- An op whose value leaves its stage, in the terms of exits from a block. -/
theorem exposed_iff (r : Setoid (Op graph)) (i : Op graph) :
    Exposed graph r i ↔ Exits.Exit (UsedBy graph) (Bound graph) r i := by
  rw [Exposed, Exits.Exit, Bound, or_assoc, or_assoc]
  rfl

/-- Legality of a partition, in the same terms. -/
theorem legal_iff (r : Setoid (Op graph)) :
    Legal graph r ↔ Exits.Legal (UsedBy graph) (Bound graph) r := by
  rw [Legal, Exits.Legal]
  simp only [exposed_iff]

/-- Two ops are in one block when they have one component. -/
theorem blocks_iff (compId : List Nat) (i j : Op graph) :
    blocks graph compId i j ↔ compId[i.1]? = compId[j.1]? := Iff.rfl

/-- An op is a node of the graph. -/
theorem Op.inside (i : Op graph) : i.1 < graph.nodes.length := by
  obtain ⟨_, found, _⟩ := i.2
  exact lookup_bound found

/-- What reads an op that is not bound is an op. -/
theorem isOp_of_reads {i : Op graph} (free : ¬ Bound graph i) {k : Nat}
    (reads : Reads graph k i.1) : IsOp graph k := by
  obtain ⟨user, found, member⟩ := reads
  refine ⟨user, found, ?_⟩
  rw [Bool.eq_false_iff]
  exact fun boundary => free (Or.inr (Or.inr ⟨k, user, found, boundary, member⟩))

/-- An op that no boundary reads and no output asks for is read by some op. So
following users never gets stuck inside. -/
theorem used_of_free {i : Op graph} (free : ¬ Bound graph i) : ∃ k, UsedBy graph i k := by
  have read : Read graph i.1 := by
    by_contra unread
    exact free (Or.inr (Or.inl unread))
  obtain ⟨k, reads⟩ := read
  exact ⟨⟨k, isOp_of_reads free reads⟩, reads⟩

/-- Following users ends, since users come later and there are finitely many
nodes. -/
theorem usedBy_wellFounded (earlier : Topological graph.nodes) :
    WellFounded (fun k i => UsedBy graph i k) := by
  refine Subrelation.wf ?_ (measure (fun i : Op graph => graph.nodes.length - i.1)).wf
  rintro k i ⟨user, found, member⟩
  have later := earlier k.1 user found i.1 member
  exact Nat.sub_lt_sub_left (later.trans k.inside) later

/-- The pass is greedy: an op whose users are all in one block joins it. The
library then says that it is coarsest. -/
theorem maximal_greedy {comp : List Nat} (length : comp.length = graph.nodes.length)
    (ruled : ∀ i < graph.nodes.length, Ruled graph comp i) :
    Exits.Greedy (UsedBy graph) (Bound graph) (blocks graph comp) := by
  intro i t free together
  obtain ⟨first, named⟩ := lookup_exists (length.symm ▸ t.inside : t.1 < comp.length)
  obtain ⟨k, reads⟩ := used_of_free free
  have joins : Joins graph comp i.1 first := by
    refine ⟨i.2, fun output => free (Or.inl output), ⟨k.1, reads⟩, fun c reads' => ?_⟩
    have op := isOp_of_reads free reads'
    exact ⟨op, ((blocks_iff comp ⟨c, op⟩ t).mp (together ⟨c, op⟩ reads')).trans named⟩
  exact ((ruled i.1 i.inside).joined first joins).trans named.symm

/-- Components with one exit whose other members are read are legal. -/
theorem Components.legal {comp : Nat → Nat} (components : Components graph comp)
    (feeding : ∀ i j, i < j → j < graph.nodes.length → comp i = comp j → Read graph i) :
    Legal graph (blocks graph (ids graph comp)) := by
  have hidden (i j : Op graph) (less : i.1 < j.1) (same : comp i.1 = comp j.1) :
      ¬ Exposed graph (blocks graph (ids graph comp)) i := by
    obtain ⟨inner, together⟩ := components.exit i.1 j.1 less j.inside same
    rintro (output | unread | ⟨k, user, found, boundary, reads⟩ | ⟨k, ⟨user, found, reads⟩, apart⟩)
    · exact inner output
    · exact unread (feeding i.1 j.1 less j.inside same)
    · have own := components.boundary_component found boundary i.inside
        (together k user found reads)
      exact not_isOp found boundary (own ▸ i.2)
    · refine apart ?_
      rw [blocks_iff, ids_getElem? i.inside, ids_getElem? k.inside, together k.1 user found reads]
  intro i j related left right
  rw [blocks_iff, ids_getElem? i.inside, ids_getElem? j.inside] at related
  have same := Option.some.inj related
  rcases Nat.lt_trichotomy i.1 j.1 with less | equal | more
  · exact absurd left (hidden i j less same)
  · exact Subtype.ext equal
  · exact absurd right (hidden j i more same.symm)

/-- The single-use mode assigns components, and they form legal stages. They are
in general more than need be. -/
theorem singleUse_legal (ordered : graph.Ordered) :
    ∃ comp, compId graph .singleUse = some (ids graph comp) ∧ Components graph comp ∧
      Legal graph (blocks graph (ids graph comp)) := by
  obtain ⟨lists, marks, consumed, marked, tables⟩ := tables_complete ordered
  obtain ⟨comp, assigned, components, feeding⟩ := singleUse_complete ordered tables
  refine ⟨comp, by simp [compId, consumed, marked, assigned, ids], components, ?_⟩
  exact components.legal (fun i j less _ same => feeding i j same less)

/-- The pass computes a legal partition, and any legal partition refines it. -/
theorem maximal_legal (ordered : graph.Ordered) :
    ∃ comp, compId graph .maximal = some (ids graph comp) ∧ Components graph comp ∧
      Legal graph (blocks graph (ids graph comp)) ∧
      ∀ r, Legal graph r → r ≤ blocks graph (ids graph comp) := by
  obtain ⟨comp, assigned, components⟩ := compId_complete ordered .maximal
  have greedy := maximal_greedy (by simp) (maximal_ruled ordered assigned)
  refine ⟨comp, assigned, components, components.legal (maximal_feeding ordered assigned), ?_⟩
  intro r legal
  exact ((legal_iff r).mp legal).le_greedy greedy (usedBy_wellFounded ordered.earlier)
    (fun _ free => used_of_free free)

/-! ## Stages -/

instance (graph : EngineGraph) (i : Nat) : Decidable (IsOp graph i) :=
  decidable_of_iff ((graph.nodes[i]?).any (fun node => !node.boundary) = true) (by
    simp [IsOp, Option.any_eq_true])

instance (graph : EngineGraph) : Finite (Op graph) :=
  Finite.of_injective (fun i : Op graph => (⟨i.1, i.inside⟩ : Fin graph.nodes.length))
    (fun _ _ same => Subtype.ext (Fin.mk.inj same))

/-- Emitting a component adds a stage exactly when the component is one of ops. -/
theorem emit_stages {templates : List (String × NodeKey)} {compId : List Nat}
    {state next : State} {comp : Nat} (did : emit graph templates compId state comp = some next) :
    next.stages = state.stages + [comp].countP (fun c => decide (IsOp graph c)) := by
  obtain ⟨head, lookup, did⟩ := Option.bind_eq_some_iff.mp did
  split at did
  · rename_i boundary
    obtain ⟨inputs, _, did⟩ := Option.bind_eq_some_iff.mp did
    obtain ⟨template, _, did⟩ := Option.bind_eq_some_iff.mp did
    obtain rfl := Option.some.inj did
    simp [not_isOp lookup boundary]
  · rename_i op
    obtain ⟨⟨slots, members⟩, _, did⟩ := Option.bind_eq_some_iff.mp did
    obtain ⟨inputs, _, did⟩ := Option.bind_eq_some_iff.mp did
    obtain rfl := Option.some.inj did
    have isOp : IsOp graph comp := ⟨head, lookup, by simpa using op⟩
    simp [isOp]

/-- A run of emissions adds one stage for each component of ops. -/
theorem emits_stages {templates : List (String × NodeKey)} {compId comps : List Nat}
    {state final : State} (ran : comps.foldlM (emit graph templates compId) state = some final) :
    final.stages = state.stages + comps.countP (fun c => decide (IsOp graph c)) := by
  induction comps generalizing state with
  | nil =>
    obtain rfl := Option.some.inj ran
    rfl
  | cons comp rest ih =>
    rw [List.foldlM_cons, Option.bind_eq_bind, Option.bind_eq_some_iff] at ran
    obtain ⟨next, did, later⟩ := ran
    rw [ih later, emit_stages did, Nat.add_assoc, ← List.countP_append]
    rfl

/-- The ids of the components of ops, which are ops. -/
theorem Components.mem_comps_isOp {comp : Nat → Nat} (components : Components graph comp)
    (c : Nat) : c ∈ (comps (ids graph comp)).filter (fun c => decide (IsOp graph c)) ↔
      c ∈ Set.range (fun i : Op graph => comp i.1) := by
  rw [List.mem_filter, mem_comps, decide_eq_true_eq, Set.mem_range]
  constructor
  · rintro ⟨⟨i, inside, rfl⟩, op⟩
    exact ⟨⟨comp i, op⟩, components.head i inside⟩
  · rintro ⟨i, rfl⟩
    refine ⟨⟨i.1, i.inside, rfl⟩, ?_⟩
    by_cases own : comp i.1 = i.1
    · exact own.symm ▸ i.2
    · exact (components.kind i.1 i.inside own).2

/-- There are as many components of ops as blocks, so counting the one counts the
other. -/
theorem Components.card_blocks {comp : Nat → Nat} (components : Components graph comp) :
    (comps (ids graph comp)).countP (fun c => decide (IsOp graph c)) =
      Nat.card (Quotient (blocks graph (ids graph comp))) := by
  have kernel : blocks graph (ids graph comp) = Setoid.ker (fun i : Op graph => comp i.1) := by
    ext i j
    rw [blocks_iff, ids_getElem? i.inside, ids_getElem? j.inside, Option.some.injEq, Setoid.ker_def]
  have nodup := (comps_nodup (ids graph comp)).filter (fun c => decide (IsOp graph c))
  rw [kernel, Nat.card_congr (Setoid.quotientKerEquivRange _), List.countP_eq_length_filter,
    ← List.toFinset_card_of_nodup nodup]
  refine (Nat.subtype_card _ (fun c => ?_)).symm
  rw [List.mem_toFinset, components.mem_comps_isOp]

/-- The stages that the report counts are the blocks of the partition, under
either mode. -/
theorem stageFusion_stages {templates : List (String × NodeKey)} {mode : FusionMode}
    {comp : Nat → Nat} (components : Components graph comp)
    (assigned : compId graph mode = some (ids graph comp)) {red : Reduced}
    (fused : stageFusion graph templates mode = some red) :
    red.report.stages = Nat.card (Quotient (blocks graph (ids graph comp))) := by
  rw [stageFusion, assigned, Option.bind_eq_bind, Option.bind_some] at fused
  obtain ⟨state, ran, fused⟩ := Option.bind_eq_some_iff.mp fused
  obtain ⟨outputs, _, fused⟩ := Option.bind_eq_some_iff.mp fused
  obtain rfl := Option.some.inj fused
  rw [← components.card_blocks]
  exact (emits_stages ran).trans (Nat.zero_add _)

/-- Maximal fusion computes the coarsest legal partition of the ops. Single-use
fusion computes a legal one, so maximal fusion never has more stages than it, nor
than any other legal partition has blocks. -/
theorem maximal_coarsest (ordered : graph.Ordered) :
    ∃ maximal singleUse, compId graph .maximal = some maximal ∧
      compId graph .singleUse = some singleUse ∧
      Legal graph (blocks graph maximal) ∧ Legal graph (blocks graph singleUse) ∧
      (∀ r, Legal graph r → r ≤ blocks graph maximal) ∧
      ∀ templates red, stageFusion graph templates .maximal = some red →
        (∀ r, Legal graph r → red.report.stages ≤ Nat.card (Quotient r)) ∧
        ∀ templates' red', stageFusion graph templates' .singleUse = some red' →
          red.report.stages ≤ red'.report.stages := by
  obtain ⟨comp, assigned, components, legal, coarsest⟩ := maximal_legal ordered
  obtain ⟨comp', assigned', components', legal'⟩ := singleUse_legal ordered
  refine ⟨_, _, assigned, assigned', legal, legal', coarsest, fun templates red fused => ?_⟩
  have least (r : Setoid (Op graph)) (legal : Legal graph r) :
      red.report.stages ≤ Nat.card (Quotient r) := by
    rw [stageFusion_stages components assigned fused]
    exact Exits.card_le_of_le (coarsest r legal)
  refine ⟨least, fun templates' red' fused' => ?_⟩
  rw [stageFusion_stages components' assigned' fused']
  exact least _ legal'

/-- An op on a source that is read by two ops, which are read by a fourth. The
maximal mode makes one stage of it. -/
def fanOut : EngineGraph :=
  ⟨[⟨"src|x", true, []⟩, ⟨"op|inc", false, [0]⟩, ⟨"op|neg", false, [1]⟩, ⟨"op|abs", false, [1]⟩,
    ⟨"op|add", false, [2, 3]⟩], [4]⟩

/-- Maximal fusion makes one stage of the graph with a fan-out, and single-use
fusion two. -/
theorem maximal_coarsest_of_fanOut :
    ∃ maximal singleUse, compId fanOut .maximal = some maximal ∧ maximal = [0, 4, 4, 4, 4] ∧
      compId fanOut .singleUse = some singleUse ∧ singleUse = [0, 1, 2, 2, 2] ∧
      Legal fanOut (blocks fanOut maximal) ∧
      blocks fanOut singleUse ≤ blocks fanOut maximal := by
  obtain ⟨maximal, singleUse, assigned, assigned', legal, legal', coarsest, _⟩ :=
    @maximal_coarsest fanOut ⟨by decide, by decide⟩
  have one : compId fanOut .maximal = some [0, 4, 4, 4, 4] := by decide +kernel
  have two : compId fanOut .singleUse = some [0, 1, 2, 2, 2] := by decide +kernel
  exact ⟨maximal, singleUse, assigned, Option.some.inj (assigned.symm.trans one), assigned',
    Option.some.inj (assigned'.symm.trans two), legal, coarsest _ legal'⟩

end StageFusion

end GraphedCore
