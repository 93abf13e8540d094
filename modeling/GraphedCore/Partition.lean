import GraphedCore.Executable

/-!
# Stage fusion is a partition

Every node of the graph has one home among the reduced nodes, and every op one place
among the members of its stage. Both fusion modes share this account: what differs is
only which ops live together.
-/

namespace GraphedCore

open Dag Wired StageFusion

/-- What a reference of op `i` stands for, when it stands for the node `x`: the
member that `x` is, or the slot of its home. -/
def Reads (home position : Nat → Nat) (i : Nat) (inputs : List NodeId) (x : Nat) : StageRef → Prop
  | .member j => home x = home i ∧ position x = j
  | .input s => home x ≠ home i ∧ inputs[s]? = some (home x)

/-- A requested output, or read by a node that lives elsewhere. Such a value has
to leave its stage. -/
def Escapes (graph : EngineGraph) (home : Nat → Nat) (i : Nat) : Prop :=
  i ∈ graph.outputs ∨
    ∃ k user, graph.nodes[k]? = some user ∧ i ∈ user.inputs ∧ home k ≠ home i

/-- The reduced nodes are the homes of the nodes. A boundary lives alone under its
own token. An op is a member of the stage it lives in, at a place that no other
node has, and every member is such an op. Stages are executable and repeat no
slot, and only their last members escape. -/
structure Partitioned (graph : EngineGraph) (reduced : Reduced) (home position : Nat → Nat) :
    Prop where
  outputs : reduced.outputs = graph.outputs.map home
  covers : ∀ k, k < reduced.nodes.length ↔ ∃ i < graph.nodes.length, home i = k
  earlier : Topological reduced.nodes
  boundary : ∀ i node, graph.nodes[i]? = some node → node.boundary = true →
    (∃ key, reduced.nodes[home i]? = some key ∧ key.token = node.token) ∧
      ∀ j < graph.nodes.length, home j = home i → j = i
  member : ∀ i node, graph.nodes[i]? = some node → node.boundary = false →
    ∃ inputs members op, reduced.nodes[home i]? = some (.stage inputs members) ∧
      members[position i]? = some op ∧ op.token = node.token ∧
        List.Forall₂ (Reads home position i inputs) node.inputs op.inputs
  once : ∀ i < graph.nodes.length, ∀ j < graph.nodes.length, home i = home j →
    position i = position j → i = j
  filled : ∀ i inputs members, IsOp graph i → reduced.nodes[home i]? = some (.stage inputs members) →
    ∀ p < members.length, ∃ j, IsOp graph j ∧ home j = home i ∧ position j = p
  wellFormed : ∀ i inputs members, IsOp graph i →
    reduced.nodes[home i]? = some (.stage inputs members) →
      inputs.Nodup ∧ (NodeKey.stage inputs members).Executable
  exit : ∀ i inputs members, IsOp graph i → reduced.nodes[home i]? = some (.stage inputs members) →
    Escapes graph home i → position i + 1 = members.length

section Fused

variable {graph : EngineGraph} {templates : List (String × NodeKey)} {comp : Nat → Nat}
  {reduced : Reduced}

/-- The reduced node of the component that a node is in. -/
noncomputable def homeOf (graph : EngineGraph) (comp : Nat → Nat) (i : Nat) : Nat :=
  spot graph comp (comp i)

/-- The place among the members of the component, which is the place in its
stage. -/
def positionOf (graph : EngineGraph) (comp : Nat → Nat) (i : Nat) : Nat :=
  (compMembers (ids graph comp) (comp i)).idxOf i

/-- An op whose value leaves its stage has its home where the stage was
emitted. -/
theorem homeOf_exit {e : Nat} (exit : Exit graph comp e) :
    homeOf graph comp e = number (Exit graph comp) e :=
  spot_exit exit

/-- Nodes live together when their components are the same, and only then. -/
theorem homeOf_eq_iff {i j : Nat} (inside : i < graph.nodes.length)
    (inside' : j < graph.nodes.length) :
    homeOf graph comp i = homeOf graph comp j ↔ comp i = comp j := by
  constructor
  · intro same
    obtain ⟨e, exit, comp_e, _⟩ := exit_exists comp inside
    obtain ⟨e', exit', comp_e', _⟩ := exit_exists comp inside'
    rw [homeOf, homeOf, ← comp_e, ← comp_e', spot_exit exit, spot_exit exit'] at same
    rw [← comp_e, ← comp_e', number_injective exit exit' same]
  · intro same
    rw [homeOf, homeOf, same]

/-- A node is a member of its component. -/
theorem mem_members {i : Nat} (inside : i < graph.nodes.length) :
    i ∈ compMembers (ids graph comp) (comp i) :=
  (mem_compMembers _ _).mpr ⟨inside, rfl⟩

/-- A component lists a member once. -/
theorem members_nodup (c : Nat) : (compMembers (ids graph comp) c).Nodup :=
  (compMembers_sorted (ids graph comp) c).imp (fun less => Nat.ne_of_lt less)

/-- A place among the members of a component determines the node, so no two nodes
share one. -/
theorem positionOf_iff {i j p : Nat} (same : comp j = comp i) :
    (compMembers (ids graph comp) (comp i))[p]? = some j ↔
      j < graph.nodes.length ∧ positionOf graph comp j = p := by
  rw [positionOf, same]
  constructor
  · intro found
    obtain ⟨bound, here⟩ := List.getElem?_eq_some_iff.mp found
    refine ⟨((mem_compMembers _ _).mp (List.mem_of_getElem? found)).1, ?_⟩
    rw [← here]
    exact (members_nodup _).idxOf_getElem p bound
  · rintro ⟨inside', rfl⟩
    have member : j ∈ compMembers (ids graph comp) (comp i) := same ▸ mem_members inside'
    rw [List.getElem?_eq_getElem (List.idxOf_lt_length_iff.mpr member), List.getElem_idxOf]

/-- A node sits at its position in its component. -/
theorem positionOf_here {i : Nat} (inside : i < graph.nodes.length) :
    (compMembers (ids graph comp) (comp i))[positionOf graph comp i]? = some i :=
  (positionOf_iff rfl).mpr ⟨inside, rfl⟩

/-- What lives with an op is an op. -/
theorem StageFusion.Components.op_of_same (components : Components graph comp) {i j : Nat}
    (op : IsOp graph i) (inside : j < graph.nodes.length) (same : comp j = comp i) : IsOp graph j := by
  obtain ⟨node, lookup⟩ := lookup_exists inside
  cases kind : node.boundary with
  | false => exact ⟨node, lookup, kind⟩
  | true =>
    have inside' : i < graph.nodes.length := op.elim (fun _ both => lookup_bound both.1)
    exact components.boundary_component lookup kind inside' same.symm ▸ op

/-- The node at the home of a boundary is the boundary rebuilt, alone. -/
theorem Fused.boundary_home (fused : Fused graph templates comp reduced) {i : Nat}
    {node : EngineNode} (lookup : graph.nodes[i]? = some node) (boundary : node.boundary = true) :
    ∃ key, reduced.nodes[homeOf graph comp i]? = some key ∧
      Rebuilt graph templates comp i key := by
  have exit := fused.components.boundary_exit lookup boundary
  rw [homeOf_exit exit]
  exact fused.rebuilt i exit

/-- The stage at the home of an op, with its members in the order of the ops. -/
theorem Fused.stage_home (fused : Fused graph templates comp reduced) {i : Nat}
    (op : IsOp graph i) : ∃ e slots members, Exit graph comp e ∧ comp e = comp i ∧ IsOp graph e ∧
      reduced.nodes[homeOf graph comp i]? = some (.stage (slots.map (spot graph comp)) members) ∧
      Staged graph comp (compMembers (ids graph comp) (comp i)) slots 0
        (compMembers (ids graph comp) (comp i)) members := by
  obtain ⟨node, lookup, kind⟩ := op
  have inside := lookup_bound lookup
  obtain ⟨e, exit, same, _⟩ := exit_exists comp inside
  obtain ⟨key, present, rebuilt⟩ := fused.rebuilt e exit
  have home : homeOf graph comp i = number (Exit graph comp) e := by
    rw [← homeOf_exit exit, homeOf, homeOf, same]
  cases rebuilt with
  | boundary found boundary _ =>
    obtain rfl := fused.components.boundary_component found boundary inside same.symm
    rw [Option.some.inj (lookup.symm.trans found), boundary] at kind
    cases kind
  | @stage node' slots members found kind' staged _ =>
    rw [same] at staged
    exact ⟨e, slots, members, exit, same, ⟨node', found, kind'⟩, by rw [home, present], staged⟩

variable {i : Nat} {slots : List Nat} {members : List StageOp}

/-- The references of a member stand for what its op reads: a member of the stage,
or the node that a slot names. -/
theorem Fused.reads (ordered : graph.Ordered) (inside : i < graph.nodes.length) {x : Nat}
    {node : EngineNode} (lookup : graph.nodes[i]? = some node) (reads : x ∈ node.inputs)
    {ref : StageRef} {k : Nat}
    (resolves : Resolves comp (compMembers (ids graph comp) (comp i)) slots k x ref) :
    Reads (homeOf graph comp) (positionOf graph comp) i (slots.map (spot graph comp)) x ref := by
  have inside' : x < graph.nodes.length := (ordered.earlier i node lookup x reads).trans inside
  cases ref with
  | member j =>
    have same := ((mem_compMembers _ _).mp (List.mem_of_getElem? resolves.2)).2
    exact ⟨(homeOf_eq_iff inside' inside).mpr same, ((positionOf_iff same).mp resolves.2).2⟩
  | input s =>
    refine ⟨fun same => resolves.1 ?_, by rw [List.getElem?_map, resolves.2]; rfl⟩
    exact (mem_compMembers _ _).mpr ⟨inside', (homeOf_eq_iff inside' inside).mp same⟩

/-- A stage over the members of a component is executable. -/
theorem StageFusion.Staged.executable {ops inputs : List Nat}
    (staged : Staged graph comp ops slots 0 ops members) (some : ops ≠ [])
    (inside : ∀ op ∈ ops, op < graph.nodes.length) (length : inputs.length = slots.length) :
    (NodeKey.stage inputs members).Executable := by
  refine ⟨fun none => some (List.length_eq_zero_iff.mp ?_), fun k op lookup ref refers => ?_⟩
  · rw [← staged.length, none, List.length_nil]
  · obtain ⟨j, listed⟩ := lookup_exists (staged.length ▸ lookup_bound lookup : k < ops.length)
    obtain ⟨node, known⟩ := lookup_exists (inside j (List.mem_of_getElem? listed))
    obtain ⟨op', found, _, resolve⟩ := staged.member k j node listed known
    obtain rfl := Option.some.inj (lookup.symm.trans found)
    obtain ⟨x, _, resolves⟩ := Enumerate.forall₂_partner resolve.flip refers
    rw [Nat.zero_add] at resolves
    cases ref with
    | member j => exact resolves.1
    | input s => exact length ▸ lookup_bound resolves.2

/-- A node whose value is used outside of its home is the exit of its
component. -/
theorem StageFusion.Components.escapes_exit (components : Components graph comp)
    (ordered : graph.Ordered) (inside : i < graph.nodes.length)
    (escapes : Escapes graph (homeOf graph comp) i) : Exit graph comp i := by
  rcases escapes with requested | ⟨k, user, lookup, reads, away⟩
  · exact components.output_exit ordered requested
  · refine components.read_exit ordered lookup reads (fun same => away ?_)
    exact ((homeOf_eq_iff inside (lookup_bound lookup)).mpr same).symm

/-- The largest member of a component stands last, and its value is what the stage
gives out. -/
theorem StageFusion.Exit.position (exit : Exit graph comp i) :
    positionOf graph comp i + 1 = (compMembers (ids graph comp) (comp i)).length := by
  have here := @positionOf_here graph comp i exit.1
  have bound := lookup_bound here
  by_contra other
  obtain ⟨j, next⟩ := lookup_exists
    (show positionOf graph comp i + 1 < (compMembers (ids graph comp) (comp i)).length by omega)
  obtain ⟨inside, same⟩ := (mem_compMembers _ _).mp (List.mem_of_getElem? next)
  obtain ⟨first, here⟩ := List.getElem?_eq_some_iff.mp here
  obtain ⟨second, next⟩ := List.getElem?_eq_some_iff.mp next
  have order := List.pairwise_iff_getElem.mp (compMembers_sorted (ids graph comp) (comp i)) _ _
    first second (Nat.lt_succ_self _)
  rw [here, next] at order
  exact exit.2 j order inside same

end Fused

/-- A fused graph is a partition of what was fused: every node has a home, its
token is found at its position there, and what crosses between homes is a slot. -/
theorem Fused.partitioned {graph : EngineGraph} {templates : List (String × NodeKey)}
    {comp : Nat → Nat} {reduced : Reduced} (ordered : graph.Ordered)
    (named : ∀ node ∈ graph.nodes, node.boundary = true → ∀ template,
      Table.get? (· == ·) templates node.token = some template → template.token = node.token)
    (fused : Fused graph templates comp reduced)
    (slotted : Slotted graph comp graph.nodes.length reduced.nodes) :
    Partitioned graph reduced (homeOf graph comp) (positionOf graph comp) where
  outputs := by
    rw [fused.outputs, List.map_inj_left]
    exact fun o member => (homeOf_exit (fused.components.output_exit ordered member)).symm
  covers k := by
    constructor
    · intro inside
      obtain ⟨key, lookup⟩ := lookup_exists inside
      obtain ⟨e, exit, rfl⟩ := fused.exit_of_lookup lookup
      exact ⟨e, exit.1, homeOf_exit exit⟩
    · rintro ⟨i, inside, rfl⟩
      obtain ⟨e, exit, same, _⟩ := exit_exists comp inside
      obtain ⟨key, present, _⟩ := fused.rebuilt e exit
      rw [homeOf, ← same, spot_exit exit]
      exact lookup_bound present
  earlier := fused.topological ordered
  boundary i node lookup boundary := by
    constructor
    · obtain ⟨key, present, rebuilt⟩ := fused.boundary_home lookup boundary
      refine ⟨key, present, ?_⟩
      cases rebuilt with
      | boundary found _ stored =>
        obtain rfl := Option.some.inj (lookup.symm.trans found)
        rw [NodeKey.token_withInputs, named node (List.mem_of_getElem? lookup) boundary _ stored]
      | stage found kind _ _ =>
        rw [Option.some.inj (lookup.symm.trans found), kind] at boundary
        cases boundary
    · intro j inside same
      exact fused.components.boundary_component lookup boundary inside
        ((homeOf_eq_iff inside (lookup_bound lookup)).mp same)
  member i node lookup kind := by
    have inside := lookup_bound lookup
    obtain ⟨_, slots, members, _, _, _, present, staged⟩ := fused.stage_home ⟨node, lookup, kind⟩
    obtain ⟨op, found, token, resolve⟩ := staged.member _ i node
      (positionOf_here inside) lookup
    refine ⟨_, members, op, present, found, token, ?_⟩
    refine List.forall₂_iff_get.mpr ⟨resolve.length_eq, fun k left right => ?_⟩
    exact Fused.reads ordered inside lookup (List.get_mem _ _)
      ((List.forall₂_iff_get.mp resolve).2 k left right)
  once i inside j inside' home place := by
    have same := (homeOf_eq_iff inside inside').mp home
    have here := @positionOf_here graph comp i inside
    rw [place, same, positionOf_here inside'] at here
    exact (Option.some.inj here).symm
  filled i inputs members op lookup p bound := by
    obtain ⟨_, _, _, _, _, _, present, staged⟩ := fused.stage_home op
    obtain ⟨rfl, rfl⟩ := NodeKey.stage.inj (Option.some.inj (lookup.symm.trans present))
    obtain ⟨j, listed⟩ := lookup_exists (staged.length ▸ bound)
    have same := ((mem_compMembers _ _).mp (List.mem_of_getElem? listed)).2
    obtain ⟨inside', place⟩ := (positionOf_iff same).mp listed
    refine ⟨j, fused.components.op_of_same op inside' same, ?_, place⟩
    obtain ⟨_, known, _⟩ := op
    exact (homeOf_eq_iff inside' (lookup_bound known)).mpr same
  wellFormed i inputs members op lookup := by
    obtain ⟨e, _, _, exit, same, opE, present, staged⟩ := fused.stage_home op
    obtain ⟨rfl, rfl⟩ := NodeKey.stage.inj (Option.some.inj (lookup.symm.trans present))
    obtain ⟨_, known, _⟩ := op
    constructor
    · rw [homeOf, ← same, spot_exit exit] at lookup
      exact slotted e exit.1 exit opE _ lookup
    · refine staged.executable (List.ne_nil_of_mem (mem_members (lookup_bound known)))
        (fun j member => ((mem_compMembers _ _).mp member).1) (List.length_map _)
  exit i inputs members op lookup escapes := by
    obtain ⟨_, _, _, _, _, _, present, staged⟩ := fused.stage_home op
    obtain ⟨rfl, rfl⟩ := NodeKey.stage.inj (Option.some.inj (lookup.symm.trans present))
    obtain ⟨_, known, _⟩ := op
    rw [staged.length]
    exact (fused.components.escapes_exit ordered (lookup_bound known) escapes).position

/-- Fusion of an ordered graph runs through in both modes, and its reduced nodes
partition the nodes of the graph. -/
theorem stageFusion_partitions (graph : EngineGraph) (templates : List (String × NodeKey))
    (mode : FusionMode) (ordered : graph.Ordered)
    (known : ∀ node ∈ graph.nodes, node.boundary = true → ∃ template,
      Table.get? (· == ·) templates node.token = some template ∧ template.token = node.token) :
    ∃ reduced home position, stageFusion graph templates mode = some reduced ∧
      Partitioned graph reduced home position := by
  obtain ⟨reduced, comp, ran, fused, slotted⟩ := stageFusion_slotted ordered
    (fun node member boundary => (known node member boundary).imp (fun _ both => both.1)) mode
  refine ⟨reduced, _, _, ran, fused.partitioned ordered ?_ slotted⟩
  intro node member boundary template stored
  obtain ⟨other, stored', token⟩ := known node member boundary
  rwa [Option.some.inj (stored.symm.trans stored')]

/-- An op, a second one on it, and a third one on both. Two readers keep the first
one out of a stage in the default mode, and not in the maximal one. -/
def diamond : EngineGraph :=
  ⟨[⟨"src|x", true, []⟩, ⟨"op|neg", false, [0]⟩, ⟨"op|abs", false, [1]⟩, ⟨"op|add", false, [1, 2]⟩],
    [3]⟩

/-- A diamond in the maximal mode, which becomes one stage behind its source. -/
theorem stageFusion_partitions_of_diamond : ∃ reduced home position,
    stageFusion diamond [("src|x", .source "x" (.new []))] .maximal = some reduced ∧
      Partitioned diamond reduced home position := by
  refine stageFusion_partitions diamond _ .maximal ⟨by decide, by decide⟩ ?_
  intro node member boundary
  simp only [diamond, List.mem_cons, List.not_mem_nil, or_false] at member
  rcases member with rfl | rfl | rfl | rfl
  · exact ⟨_, rfl, by decide⟩
  all_goals cases boundary

example : (stageFusion diamond [("src|x", .source "x" (.new []))] .maximal).map Reduced.nodes =
    some [.source "x" (.new []), .stage [0] [⟨"op|neg", [.input 0]⟩, ⟨"op|abs", [.member 0]⟩,
      ⟨"op|add", [.member 0, .member 1]⟩]] := by
  decide +kernel

end GraphedCore
