import GraphedCore.Components
import GraphedCore.Keys

/-!
# What stage fusion emits

The components are emitted in the order of their exits. A boundary is rebuilt
over the exits it reads. A stage lists the members of its component in order;
every reference of a member names an earlier member, or a slot that stands for
the exit it reads outside the component. Since only exits are read from outside,
every component that is read has been emitted before.
-/

namespace GraphedCore

open Dag Wired

namespace StageFusion

variable {graph : EngineGraph} {comp : Nat → Nat} {templates : List (String × NodeKey)}

/-- The component ids as the program stores them, one for each node of the
graph. -/
def ids (graph : EngineGraph) (comp : Nat → Nat) : List Nat :=
  (List.range graph.nodes.length).map comp

/-- The largest member of its component. In order of these the fused nodes are
emitted. -/
def Exit (graph : EngineGraph) (comp : Nat → Nat) (i : Nat) : Prop :=
  i < graph.nodes.length ∧ ∀ j, i < j → j < graph.nodes.length → comp j ≠ comp i

/-- The component of a node, read off the table. -/
theorem ids_getElem? {i : Nat} (inside : i < graph.nodes.length) :
    (ids graph comp)[i]? = some (comp i) := by
  simp [ids, inside]

/-- The members of a component are the nodes that it was assigned to, and all of
them. -/
theorem mem_compMembers (c i : Nat) :
    i ∈ compMembers (ids graph comp) c ↔ i < graph.nodes.length ∧ comp i = c := by
  rw [compMembers, List.mem_filter, List.mem_range, ids, List.length_map, List.length_range]
  refine and_congr_right (fun inside => ?_)
  simp [inside]

/-- Members are listed in the order of the graph. -/
theorem compMembers_sorted (compId : List Nat) (c : Nat) :
    (compMembers compId c).Pairwise (· < ·) :=
  List.pairwise_lt_range.sublist List.filter_sublist

/-- The greatest element of a list is found by folding the maximum. -/
theorem foldl_max_eq (l : List Nat) (start e : Nat) (above : ∀ x ∈ l, x ≤ e)
    (below : start ≤ e) (member : e ∈ l ∨ start = e) : l.foldl max start = e := by
  induction l generalizing start with
  | nil => simpa using member
  | cons x rest ih =>
    rw [List.foldl_cons]
    have first := above x List.mem_cons_self
    refine ih (max start x) (fun y later => above y (List.mem_cons_of_mem x later))
      (max_le below first) ?_
    rcases member with here | rfl
    · rcases List.mem_cons.mp here with rfl | later
      · exact Or.inr (max_eq_right below)
      · exact Or.inl later
    · exact Or.inr (max_eq_left first)

/-- The last member of a component is its exit. The source folds the maximum over
the members. -/
theorem maxMember_exit {e : Nat} (exit : Exit graph comp e) :
    maxMember (ids graph comp) (comp e) = e := by
  apply foldl_max_eq _ _ _ _ (Nat.zero_le e)
  · exact Or.inl ((mem_compMembers _ _).mpr ⟨exit.1, rfl⟩)
  · intro i member
    obtain ⟨inside, same⟩ := (mem_compMembers _ _).mp member
    by_contra beyond
    exact exit.2 i (Nat.lt_of_not_le beyond) inside same

/-- A component has one exit. So places of exits name components. -/
theorem Exit.unique {e e' : Nat} (first : Exit graph comp e) (second : Exit graph comp e')
    (same : comp e = comp e') : e = e' := by
  rw [← maxMember_exit first, same, maxMember_exit second]

/-- Every component has an exit, at or after each of its members. -/
theorem exit_exists (comp : Nat → Nat) {i : Nat} (inside : i < graph.nodes.length) :
    ∃ e, Exit graph comp e ∧ comp e = comp i ∧ i ≤ e := by
  by_cases exit : Exit graph comp i
  · exact ⟨i, exit, rfl, le_rfl⟩
  · obtain ⟨j, less, inside', same⟩ : ∃ j, i < j ∧ j < graph.nodes.length ∧ comp j = comp i := by
      simpa [Exit, inside] using exit
    obtain ⟨e, exit, same', le⟩ := exit_exists comp inside'
    exact ⟨e, exit, same'.trans same, less.le.trans le⟩
termination_by graph.nodes.length - i

/-- What is read from outside its component is an exit, for all other members are
inner. -/
theorem Components.read_exit (components : Components graph comp) {i x : Nat} {node : EngineNode}
    (ordered : graph.Ordered) (lookup : graph.nodes[i]? = some node)
    (reads : x ∈ node.inputs) (outside : comp x ≠ comp i) : Exit graph comp x := by
  refine ⟨(ordered.earlier i node lookup x reads).trans (lookup_bound lookup), ?_⟩
  intro j less inside same
  exact outside ((components.exit x j less inside same.symm).2 i node lookup reads)

/-- An output is the exit of its component, for inner members are no outputs. -/
theorem Components.output_exit (components : Components graph comp) {o : Nat}
    (ordered : graph.Ordered) (member : o ∈ graph.outputs) : Exit graph comp o := by
  refine ⟨ordered.inside o member, fun j less inside same => ?_⟩
  exact (components.exit o j less inside same.symm).1 member

/-- A boundary is no op. -/
theorem not_isOp {i : Nat} {node : EngineNode} (lookup : graph.nodes[i]? = some node)
    (boundary : node.boundary = true) : ¬ IsOp graph i := by
  rintro ⟨other, found, op⟩
  obtain rfl := Option.some.inj (lookup.symm.trans found)
  rw [op] at boundary
  cases boundary

/-- A boundary is a component of its own. -/
theorem Components.boundary_own (components : Components graph comp) {i : Nat} {node : EngineNode}
    (lookup : graph.nodes[i]? = some node) (boundary : node.boundary = true) : comp i = i := by
  by_contra other
  exact not_isOp lookup boundary (components.kind i (lookup_bound lookup) other).1

/-- A boundary is alone in its component, since only ops are put together. -/
theorem Components.boundary_component (components : Components graph comp) {i j : Nat}
    {node : EngineNode} (lookup : graph.nodes[i]? = some node) (boundary : node.boundary = true)
    (inside : j < graph.nodes.length) (same : comp j = comp i) : j = i := by
  have own := components.boundary_own lookup boundary
  by_contra other
  have op := (components.kind j inside (by omega)).2
  rw [same, own] at op
  exact not_isOp lookup boundary op

/-- A boundary is its own exit. -/
theorem Components.boundary_exit (components : Components graph comp) {i : Nat}
    {node : EngineNode} (lookup : graph.nodes[i]? = some node) (boundary : node.boundary = true) :
    Exit graph comp i := by
  refine ⟨lookup_bound lookup, fun j less inside same => ?_⟩
  exact Nat.ne_of_gt less (components.boundary_component lookup boundary inside same)

/-- What a boundary reads is the exit of its component. -/
theorem Components.boundary_read_exit (components : Components graph comp) {i x : Nat}
    {node : EngineNode} (ordered : graph.Ordered) (lookup : graph.nodes[i]? = some node)
    (boundary : node.boundary = true) (reads : x ∈ node.inputs) : Exit graph comp x := by
  have earlier := ordered.earlier i node lookup x reads
  refine components.read_exit ordered lookup reads (fun same => ?_)
  exact Nat.ne_of_lt earlier (components.boundary_component lookup boundary
    (earlier.trans (lookup_bound lookup)) same)

/-! ## The order of the components -/

/-- Picking from a range picks the numbers that qualify. -/
theorem mem_pick_range (keep : Nat → Prop) (n i : Nat) :
    i ∈ pick keep (List.range n) ↔ i < n ∧ keep i := by
  rw [List.mem_iff_getElem?]
  constructor
  · rintro ⟨k, lookup⟩
    obtain ⟨j, kept, found, _⟩ := (pick_getElem?_iff _ _ _ _).mp lookup
    obtain ⟨inside, rfl⟩ := List.getElem?_eq_some_iff.mp found
    rw [List.length_range] at inside
    simpa using ⟨inside, kept⟩
  · rintro ⟨inside, kept⟩
    exact ⟨_, (pick_getElem?_iff _ _ _ _).mpr ⟨i, kept, by simp [inside], rfl⟩⟩

/-- What is picked from a range stays sorted. -/
theorem pick_range_sorted (keep : Nat → Prop) (n : Nat) :
    (pick keep (List.range n)).Pairwise (· < ·) := by
  induction n with
  | zero => simp [pick_nil]
  | succ n ih =>
    rw [List.range_succ]
    by_cases kept : keep n
    · rw [pick_snoc_kept _ n (by simpa using kept), List.pairwise_append]
      refine ⟨ih, List.pairwise_singleton _ _, ?_⟩
      intro i member j last
      rw [List.mem_singleton.mp last]
      exact ((mem_pick_range keep n i).mp member).1
    · rwa [pick_snoc_dropped _ n (by simpa using kept)]

/-- Components come in the order of their exits. By then all that a stage reads
from outside has been emitted. -/
theorem comps_eq (graph : EngineGraph) (comp : Nat → Nat) :
    comps (ids graph comp) =
      (pick (Exit graph comp) (List.range graph.nodes.length)).map comp := by
  have listed (c : Nat) : c ∈ comps (ids graph comp) ↔
      ∃ e, Exit graph comp e ∧ comp e = c := by
    rw [comps, List.mem_insertionSort, List.mem_dedup, ids, List.mem_map]
    constructor
    · rintro ⟨i, member, rfl⟩
      obtain ⟨e, exit, same, _⟩ := exit_exists comp (List.mem_range.mp member)
      exact ⟨e, exit, same⟩
    · rintro ⟨e, exit, rfl⟩
      exact ⟨e, List.mem_range.mpr exit.1, rfl⟩
  have picked (c : Nat) : c ∈ (pick (Exit graph comp) (List.range graph.nodes.length)).map comp ↔
      ∃ e, Exit graph comp e ∧ comp e = c := by
    rw [List.mem_map]
    refine exists_congr (fun e => and_congr_left (fun _ => ?_))
    rw [mem_pick_range]
    exact ⟨And.right, fun exit => ⟨exit.1, exit⟩⟩
  have nodup : ((pick (Exit graph comp) (List.range graph.nodes.length)).map comp).Nodup := by
    refine List.Nodup.map_on ?_ ((pick_range_sorted _ _).imp (fun less => Nat.ne_of_lt less))
    intro e member e' member' same
    exact Exit.unique ((mem_pick_range _ _ _).mp member).2 ((mem_pick_range _ _ _).mp member').2
      same
  have total : Std.Total (fun a b => maxMember (ids graph comp) a ≤ maxMember (ids graph comp) b) :=
    ⟨fun a b => le_total _ _⟩
  have trans : IsTrans Nat
      (fun a b => maxMember (ids graph comp) a ≤ maxMember (ids graph comp) b) :=
    ⟨fun _ _ _ => le_trans⟩
  refine @List.Perm.eq_of_pairwise _
    (fun a b => maxMember (ids graph comp) a ≤ maxMember (ids graph comp) b) _ _ ?_ ?_ ?_ ?_
  · intro a b left right le ge
    obtain ⟨e, exit, rfl⟩ := (listed a).mp left
    obtain ⟨e', exit', rfl⟩ := (picked b).mp right
    rw [maxMember_exit exit, maxMember_exit exit'] at le ge
    rw [Nat.le_antisymm le ge]
  · exact List.pairwise_insertionSort _ _
  · rw [List.pairwise_map]
    refine (pick_range_sorted (Exit graph comp) graph.nodes.length).imp_of_mem ?_
    intro e e' member member' less
    rw [maxMember_exit ((mem_pick_range _ _ _).mp member).2,
      maxMember_exit ((mem_pick_range _ _ _).mp member').2]
    exact less.le
  · refine (List.perm_ext_iff_of_nodup ?_ nodup).mpr (fun c => (listed c).trans (picked c).symm)
    exact (List.perm_insertionSort _ _).nodup_iff.mpr (List.nodup_dedup _)

/-! ## The members of a stage -/

/-- A reference of the member at position `k` stands for the node `x` it reads: an
earlier member, or the component of `x` in a slot. -/
def Resolves (comp : Nat → Nat) (ops slots : List Nat) (k x : Nat) : StageRef → Prop
  | .member j => j < k ∧ ops[j]? = some x
  | .input s => x ∉ ops ∧ slots[s]? = some (comp x)

/-- A slot keeps its meaning when further slots are appended, which is all that
later members do. -/
theorem Resolves.mono {ops slots more : List Nat} (extends_slots : slots <+: more) {k x : Nat}
    {ref : StageRef} (resolves : Resolves comp ops slots k x ref) :
    Resolves comp ops more k x ref := by
  cases ref with
  | member j => exact resolves
  | input s =>
    obtain ⟨suffix, rfl⟩ := extends_slots
    exact ⟨resolves.1, by rw [List.getElem?_append_left (lookup_bound resolves.2), resolves.2]⟩

/-- One input of a member is given a slot: a member slot when it is in the stage,
and otherwise a stage input, which is appended when it is new. -/
theorem stageRef_complete (comp : Nat → Nat) {ops : List Nat} (slots : List Nat) {k x : Nat}
    (inside : x < graph.nodes.length)
    (before : ∀ j, ops[j]? = some x → j < k) :
    ∃ slots' ref, stageRef (ids graph comp) ops slots x = some (slots', ref) ∧
      slots <+: slots' ∧ (∀ c ∈ slots', c ∈ slots ∨ (x ∉ ops ∧ comp x = c)) ∧
      Resolves comp ops slots' k x ref := by
  cases member : ops.idxOf? x with
  | some j =>
    have found : ops[j]? = some x := by
      obtain ⟨bound, same, _⟩ := List.idxOf?_eq_some_iff.mp member
      rw [List.getElem?_eq_getElem bound, same]
    exact ⟨slots, .member j, by simp [stageRef, member], List.prefix_refl _,
      fun c old => Or.inl old, before j found, found⟩
  | none =>
    have outside : x ∉ ops := List.idxOf?_eq_none_iff.mp member
    cases slot : slots.idxOf? (comp x) with
    | some s =>
      have found : slots[s]? = some (comp x) := by
        obtain ⟨bound, same, _⟩ := List.idxOf?_eq_some_iff.mp slot
        rw [List.getElem?_eq_getElem bound, same]
      exact ⟨slots, .input s, by simp [stageRef, member, ids_getElem? inside, slot],
        List.prefix_refl _, fun c old => Or.inl old, outside, found⟩
    | none =>
      refine ⟨slots ++ [comp x], .input slots.length,
        by simp [stageRef, member, ids_getElem? inside, slot], List.prefix_append _ _, ?_,
        outside, by simp⟩
      intro c known
      rcases List.mem_append.mp known with old | last
      · exact Or.inl old
      · exact Or.inr ⟨outside, (List.mem_singleton.mp last).symm⟩

/-- The inputs of a member, by induction on them. Each reference resolves to the
node it stands for. -/
theorem stageRefs_complete (graph : EngineGraph) (comp : Nat → Nat) {ops : List Nat} {k : Nat}
    (inputs slots : List Nat)
    (inside : ∀ x ∈ inputs, x < graph.nodes.length)
    (before : ∀ x ∈ inputs, ∀ j, ops[j]? = some x → j < k) :
    ∃ slots' refs, stageRefs (ids graph comp) ops slots inputs = some (slots', refs) ∧
      slots <+: slots' ∧ (∀ c ∈ slots', c ∈ slots ∨ ∃ x ∈ inputs, x ∉ ops ∧ comp x = c) ∧
      List.Forall₂ (Resolves comp ops slots' k) inputs refs := by
  induction inputs generalizing slots with
  | nil => exact ⟨slots, [], rfl, List.prefix_refl _, fun c old => Or.inl old, .nil⟩
  | cons x rest ih =>
    obtain ⟨first, ref, did, grows, fresh, resolves⟩ := stageRef_complete comp slots
      (inside x List.mem_cons_self) (before x List.mem_cons_self)
    obtain ⟨final, refs, ran, grows', fresh', rest_resolve⟩ := ih first
      (fun y member => inside y (List.mem_cons_of_mem x member))
      (fun y member => before y (List.mem_cons_of_mem x member))
    refine ⟨final, ref :: refs, by simp [stageRefs, did, ran], grows.trans grows', ?_,
      .cons (resolves.mono grows') rest_resolve⟩
    intro c known
    rcases fresh' c known with old | ⟨y, member, outside, same⟩
    · rcases fresh c old with old | ⟨outside, same⟩
      · exact Or.inl old
      · exact Or.inr ⟨x, List.mem_cons_self, outside, same⟩
    · exact Or.inr ⟨y, List.mem_cons_of_mem x member, outside, same⟩

/-- Members from position `k` on, for the ops of a component from there on. Each
has the token of its op, and references that resolve to its inputs. -/
structure Staged (graph : EngineGraph) (comp : Nat → Nat) (ops slots : List Nat) (k : Nat)
    (rest : List Nat) (members : List StageOp) : Prop where
  length : members.length = rest.length
  member : ∀ (j op : Nat) (node : EngineNode), rest[j]? = some op →
    graph.nodes[op]? = some node → ∃ m, members[j]? = some m ∧ m.token = node.token ∧
      List.Forall₂ (Resolves comp ops slots (k + j)) node.inputs m.inputs

/-- The members of a stage, by induction on the ops of its component. The slots
only grow. -/
theorem stageOps_complete (comp : Nat → Nat) {ops : List Nat} (earlier : Topological graph.nodes)
    (sorted : ops.Pairwise (· < ·)) (inside : ∀ op ∈ ops, op < graph.nodes.length)
    (done rest slots : List Nat) (split : ops = done ++ rest) :
    ∃ slots' members, stageOps graph (ids graph comp) ops slots rest = some (slots', members) ∧
      slots <+: slots' ∧
      (∀ c ∈ slots', c ∈ slots ∨ ∃ op node x, op ∈ rest ∧ graph.nodes[op]? = some node ∧
        x ∈ node.inputs ∧ x ∉ ops ∧ comp x = c) ∧
      Staged graph comp ops slots' done.length rest members := by
  induction rest generalizing done slots with
  | nil =>
    exact ⟨slots, [], rfl, List.prefix_refl _, fun c old => Or.inl old, rfl,
      fun j op node found => by simp at found⟩
  | cons op rest ih =>
    have here : op ∈ ops := by simp [split]
    obtain ⟨node, lookup⟩ := lookup_exists (inside op here)
    have before : ∀ x ∈ node.inputs, ∀ j, ops[j]? = some x → j < done.length := by
      intro x reads j found
      by_contra beyond
      have less := earlier op node lookup x reads
      obtain ⟨bound, rfl⟩ := List.getElem?_eq_some_iff.mp found
      obtain ⟨here', at_op⟩ : ∃ here' : done.length < ops.length, ops[done.length] = op :=
        List.getElem?_eq_some_iff.mp (by simp [split])
      rcases Nat.eq_or_lt_of_le (Nat.le_of_not_lt beyond) with same | above
      · simp only [← same, at_op] at less
        exact Nat.lt_irrefl _ less
      · have order := List.pairwise_iff_getElem.mp sorted done.length j here' bound above
        rw [at_op] at order
        exact Nat.lt_irrefl _ (order.trans less)
    obtain ⟨middle, refs, did, grows, fresh, resolve⟩ := stageRefs_complete graph comp
      node.inputs slots
      (fun x reads => (earlier op node lookup x reads).trans (inside op here)) before
    obtain ⟨final, members, ran, grows', fresh', staged⟩ := ih (done ++ [op]) middle
      (by simp [split])
    refine ⟨final, ⟨node.token, refs⟩ :: members, by simp [stageOps, lookup, did, ran],
      grows.trans grows', ?_, ?_, ?_⟩
    · intro c known
      rcases fresh' c known with old | ⟨op', node', x, later, rest_facts⟩
      · rcases fresh c old with old | ⟨x, reads, facts⟩
        · exact Or.inl old
        · exact Or.inr ⟨op, node, x, List.mem_cons_self, lookup, reads, facts⟩
      · exact Or.inr ⟨op', node', x, List.mem_cons_of_mem op later, rest_facts⟩
    · simp [staged.length]
    · intro j op' node' found lookup'
      cases j with
      | zero =>
        obtain rfl : op = op' := by simpa using found
        obtain rfl := Option.some.inj (lookup.symm.trans lookup')
        exact ⟨_, rfl, rfl, resolve.imp (fun _ _ h => h.mono grows')⟩
      | succ j =>
        obtain ⟨m, present, token, resolves⟩ := staged.member j op' node' (by simpa using found)
          lookup'
        refine ⟨m, by simpa using present, token, ?_⟩
        rwa [List.length_append, List.length_singleton, Nat.add_right_comm, Nat.add_assoc] at resolves

/-! ### Slots are not repeated -/

/-- No stage input is appended twice: a component that has a slot is found
there. -/
theorem stageRef_nodup {compId ops slots slots' : List Nat} {x : Nat} {ref : StageRef}
    (did : stageRef compId ops slots x = some (slots', ref)) (once : slots.Nodup) :
    slots'.Nodup := by
  rw [stageRef] at did
  split at did
  · obtain ⟨rfl, _⟩ := Prod.mk.inj (Option.some.inj did)
    exact once
  · obtain ⟨c, _, did⟩ := Option.bind_eq_some_iff.mp did
    split at did
    · obtain ⟨rfl, _⟩ := Prod.mk.inj (Option.some.inj did)
      exact once
    · rename_i absent
      obtain ⟨rfl, _⟩ := Prod.mk.inj (Option.some.inj did)
      exact List.nodup_append.mpr ⟨once, List.nodup_singleton c, fun a old b last =>
        fun same => List.idxOf?_eq_none_iff.mp absent (List.mem_singleton.mp last ▸ same ▸ old)⟩

/-- Nor by the inputs of a member. -/
theorem stageRefs_nodup {compId ops slots slots' inputs : List Nat} {refs : List StageRef}
    (did : stageRefs compId ops slots inputs = some (slots', refs)) (once : slots.Nodup) :
    slots'.Nodup := by
  induction inputs generalizing slots refs with
  | nil =>
    obtain ⟨rfl, _⟩ := Prod.mk.inj (Option.some.inj did)
    exact once
  | cons x rest ih =>
    obtain ⟨⟨middle, ref⟩, first, did⟩ := Option.bind_eq_some_iff.mp did
    obtain ⟨⟨final, others⟩, later, did⟩ := Option.bind_eq_some_iff.mp did
    obtain ⟨rfl, _⟩ := Prod.mk.inj (Option.some.inj did)
    exact ih later (stageRef_nodup first once)

/-- Nor by the members of a stage. -/
theorem stageOps_nodup {compId ops slots slots' rest : List Nat} {members : List StageOp}
    (did : stageOps graph compId ops slots rest = some (slots', members)) (once : slots.Nodup) :
    slots'.Nodup := by
  induction rest generalizing slots members with
  | nil =>
    obtain ⟨rfl, _⟩ := Prod.mk.inj (Option.some.inj did)
    exact once
  | cons op rest ih =>
    obtain ⟨node, _, did⟩ := Option.bind_eq_some_iff.mp did
    obtain ⟨⟨middle, refs⟩, first, did⟩ := Option.bind_eq_some_iff.mp did
    obtain ⟨⟨final, others⟩, later, did⟩ := Option.bind_eq_some_iff.mp did
    obtain ⟨rfl, _⟩ := Prod.mk.inj (Option.some.inj did)
    exact ih later (stageRefs_nodup first once)

/-! ## Emission -/

/-- The place of the component with id `c` among the emitted nodes, which is the
number of its exit. -/
noncomputable def spot (graph : EngineGraph) (comp : Nat → Nat) (c : Nat) : Nat :=
  number (Exit graph comp) (maxMember (ids graph comp) c)

/-- A component is emitted as many places on as there are exits before its own. -/
theorem spot_exit {e : Nat} (exit : Exit graph comp e) :
    spot graph comp (comp e) = number (Exit graph comp) e := by
  rw [spot, maxMember_exit exit]

/-- The node emitted for the component with exit `e`: a boundary over the places
of its inputs, or a stage over the places of its slots. -/
inductive Rebuilt (graph : EngineGraph) (templates : List (String × NodeKey)) (comp : Nat → Nat)
    (e : Nat) : NodeKey → Prop
  | boundary {node : EngineNode} {template : NodeKey} : graph.nodes[e]? = some node →
      node.boundary = true → Table.get? (· == ·) templates node.token = some template →
      Rebuilt graph templates comp e
        (template.withInputs (node.inputs.map (number (Exit graph comp))))
  | stage {node : EngineNode} {slots : List Nat} {members : List StageOp} :
      graph.nodes[e]? = some node → node.boundary = false →
      Staged graph comp (compMembers (ids graph comp) (comp e)) slots 0
        (compMembers (ids graph comp) (comp e)) members →
      (∀ c ∈ slots, ∃ op node x, op ∈ compMembers (ids graph comp) (comp e) ∧
        graph.nodes[op]? = some node ∧ x ∈ node.inputs ∧ Exit graph comp x ∧ comp x = c) →
      Rebuilt graph templates comp e (.stage (slots.map (spot graph comp)) members)

/-- The emitted nodes of the exits below a bound. This is what the loop over the
components keeps. -/
structure Emitted (graph : EngineGraph) (templates : List (String × NodeKey)) (comp : Nat → Nat)
    (bound : Nat) (state : State) : Prop where
  length : state.reduced.length = number (Exit graph comp) bound
  table : ∀ e < bound, Exit graph comp e →
    compToReduced state (comp e) = some (number (Exit graph comp) e)
  rebuilt : ∀ e < bound, Exit graph comp e → ∃ key,
    state.reduced[number (Exit graph comp) e]? = some key ∧ Rebuilt graph templates comp e key

/-- One component more has been emitted, at its exit. The exits before keep their
places. -/
theorem Emitted.push {bound : Nat} {state : State} {key : NodeKey}
    (emitted : Emitted graph templates comp bound state) (exit : Exit graph comp bound)
    (built : Rebuilt graph templates comp bound key) (stages boundaryNodes : Nat) :
    Emitted graph templates comp (bound + 1) {
      reduced := state.reduced ++ [key]
      compToReduced := (comp bound, state.reduced.length) :: state.compToReduced
      stages := stages
      boundaryNodes := boundaryNodes } := by
  refine ⟨?_, ?_, ?_⟩
  · rw [List.length_append, emitted.length, number_succ_kept exit, List.length_singleton]
  · intro e before exit'
    rw [compToReduced, Table.get?_cons]
    by_cases same : comp bound = comp e
    · rw [exit.unique exit' same, emitted.length]
      simp [exit.unique exit' same]
    · have earlier : e < bound := lt_of_le_of_ne (Nat.lt_succ_iff.mp before)
        (fun here => same (by rw [here]))
      rw [if_neg (by simpa using same)]
      exact emitted.table e earlier exit'
  · intro e before exit'
    rcases Nat.lt_succ_iff_lt_or_eq.mp before with earlier | rfl
    · obtain ⟨old, present, built⟩ := emitted.rebuilt e earlier exit'
      exact ⟨old, by rw [List.getElem?_append_left (lookup_bound present), present], built⟩
    · exact ⟨key, by rw [← emitted.length]; simp, built⟩

/-- The stages emitted for the exits below a bound read no slot twice, since a
slot is opened only for a component that has none. -/
def Slotted (graph : EngineGraph) (comp : Nat → Nat) (bound : Nat) (nodes : List NodeKey) : Prop :=
  ∀ e < bound, Exit graph comp e → IsOp graph e → ∀ key,
    nodes[number (Exit graph comp) e]? = some key → key.inputs.Nodup

/-- Stages stay without a repeated slot when the new node has none. -/
theorem Emitted.slotted {bound : Nat} {state : State} {key : NodeKey}
    (emitted : Emitted graph templates comp bound state)
    (slotted : Slotted graph comp bound state.reduced)
    (once : IsOp graph bound → key.inputs.Nodup) :
    Slotted graph comp (bound + 1) (state.reduced ++ [key]) := by
  intro e before exit op other lookup
  rcases (getElem?_snoc _ _ _ _).mp lookup with old | ⟨place, rfl⟩
  · rcases Nat.lt_succ_iff_lt_or_eq.mp before with earlier | rfl
    · exact slotted e earlier exit op other old
    · exact absurd (lookup_bound old) (by rw [emitted.length]; exact lt_irrefl _)
  · rcases Nat.lt_succ_iff_lt_or_eq.mp before with earlier | rfl
    · obtain ⟨_, present, _⟩ := emitted.rebuilt e earlier exit
      exact absurd (lookup_bound present) (by rw [place]; exact lt_irrefl _)
    · exact once op

/-- The step for the component of a boundary, which reads components that were
emitted. -/
theorem Emitted.emit_boundary {bound : Nat} {state : State} {node : EngineNode}
    (ordered : graph.Ordered) (components : Components graph comp)
    (emitted : Emitted graph templates comp bound state)
    (slotted : Slotted graph comp bound state.reduced) (exit : Exit graph comp bound)
    (lookup : graph.nodes[bound]? = some node) (boundary : node.boundary = true)
    {template : NodeKey} (stored : Table.get? (· == ·) templates node.token = some template) :
    ∃ next, StageFusion.emit graph templates (ids graph comp) state (comp bound) = some next ∧
      Emitted graph templates comp (bound + 1) next ∧
      Slotted graph comp (bound + 1) next.reduced := by
  have own := components.boundary_own lookup boundary
  have reads : node.inputs.mapM (fun i =>
      ((ids graph comp)[i]?).bind (fun c => compToReduced state c)) =
      some (node.inputs.map (number (Exit graph comp))) := by
    apply Enumerate.mapM_complete
    intro x member
    have exitX := components.boundary_read_exit ordered lookup boundary member
    rw [ids_getElem? exitX.1, Option.bind_some]
    exact emitted.table x (ordered.earlier bound node lookup x member) exitX
  have built : Rebuilt graph templates comp bound _ := .boundary lookup boundary stored
  refine ⟨_, ?_, emitted.push exit built state.stages (state.boundaryNodes + 1),
    emitted.slotted slotted (fun op => absurd op (not_isOp lookup boundary))⟩
  simp only [StageFusion.emit, own, lookup, boundary, Option.bind_eq_bind, Option.bind_some,
    if_true, reads, stored]

/-- The step for a component of ops, whose slots are components that were
emitted. -/
theorem Emitted.emit_stage {bound : Nat} {state : State} {node : EngineNode}
    (ordered : graph.Ordered) (components : Components graph comp)
    (emitted : Emitted graph templates comp bound state)
    (slotted : Slotted graph comp bound state.reduced) (exit : Exit graph comp bound)
    (lookup : graph.nodes[bound]? = some node) (inner : node.boundary = false) :
    ∃ next, StageFusion.emit graph templates (ids graph comp) state (comp bound) = some next ∧
      Emitted graph templates comp (bound + 1) next ∧
      Slotted graph comp (bound + 1) next.reduced := by
  obtain ⟨head, found, op⟩ : IsOp graph (comp bound) := by
    by_cases own : comp bound = bound
    · exact ⟨node, by rw [own, lookup], inner⟩
    · exact (components.kind bound exit.1 own).2
  obtain ⟨slots, members, ran, _, fresh, staged⟩ := stageOps_complete comp
    ordered.earlier (compMembers_sorted (ids graph comp) (comp bound))
    (fun op member => ((mem_compMembers _ _).mp member).1) []
    (compMembers (ids graph comp) (comp bound)) [] rfl
  have sources : ∀ c ∈ slots, ∃ op node x,
      op ∈ compMembers (ids graph comp) (comp bound) ∧ graph.nodes[op]? = some node ∧
        x ∈ node.inputs ∧ Exit graph comp x ∧ comp x = c := by
    intro c member
    rcases fresh c member with absurd_member | ⟨op, node, x, here, lookup, reads, outside, same⟩
    · simp at absurd_member
    · refine ⟨op, node, x, here, lookup, reads, ?_, same⟩
      have inside := (ordered.earlier op node lookup x reads).trans (lookup_bound lookup)
      refine components.read_exit ordered lookup reads (fun same' => outside ?_)
      exact (mem_compMembers _ _).mpr ⟨inside, same'.trans ((mem_compMembers _ _).mp here).2⟩
  have reads : slots.mapM (compToReduced state) = some (slots.map (spot graph comp)) := by
    apply Enumerate.mapM_complete
    intro c member
    obtain ⟨op, node, x, here, lookup, reads, exitX, rfl⟩ := sources c member
    obtain ⟨inside, same⟩ := (mem_compMembers _ _).mp here
    have le : op ≤ bound := by
      by_contra beyond
      exact exit.2 op (Nat.lt_of_not_le beyond) inside same
    rw [spot_exit exitX]
    exact emitted.table x ((ordered.earlier op node lookup x reads).trans_le le) exitX
  have built : Rebuilt graph templates comp bound _ := .stage lookup inner staged sources
  have once : (slots.map (spot graph comp)).Nodup := by
    refine (stageOps_nodup ran List.nodup_nil).map_on ?_
    intro c left c' right same
    obtain ⟨_, _, x, _, _, _, exitX, rfl⟩ := sources c left
    obtain ⟨_, _, y, _, _, _, exitY, rfl⟩ := sources c' right
    rw [spot_exit exitX, spot_exit exitY] at same
    rw [number_injective exitX exitY same]
  refine ⟨_, ?_, emitted.push exit built (state.stages + 1) state.boundaryNodes,
    emitted.slotted slotted (fun _ => once)⟩
  simp only [StageFusion.emit, found, op, Option.bind_eq_bind, Option.bind_some, ran, reads,
    Bool.false_eq_true, if_false]

/-- Emitting the component of an exit succeeds: what it reads was emitted before,
since exits come in order. -/
theorem Emitted.emit {bound : Nat} {state : State} (ordered : graph.Ordered)
    (components : Components graph comp)
    (known : ∀ node ∈ graph.nodes, node.boundary = true →
      ∃ template, Table.get? (· == ·) templates node.token = some template)
    (emitted : Emitted graph templates comp bound state)
    (slotted : Slotted graph comp bound state.reduced) (exit : Exit graph comp bound) :
    ∃ next, StageFusion.emit graph templates (ids graph comp) state (comp bound) = some next ∧
      Emitted graph templates comp (bound + 1) next ∧
      Slotted graph comp (bound + 1) next.reduced := by
  obtain ⟨node, lookup⟩ := lookup_exists exit.1
  cases kind : node.boundary with
  | true =>
    obtain ⟨template, stored⟩ := known node (List.mem_of_getElem? lookup) kind
    exact emitted.emit_boundary ordered components slotted exit lookup kind stored
  | false => exact emitted.emit_stage ordered components slotted exit lookup kind

/-- All exits below a bound are emitted, by induction on the bound. A node that is
no exit adds nothing. -/
theorem emit_all (ordered : graph.Ordered) (components : Components graph comp)
    (known : ∀ node ∈ graph.nodes, node.boundary = true →
      ∃ template, Table.get? (· == ·) templates node.token = some template)
    (bound : Nat) (inside : bound ≤ graph.nodes.length) :
    ∃ state, ((pick (Exit graph comp) (List.range bound)).map comp).foldlM
        (StageFusion.emit graph templates (ids graph comp)) ⟨[], [], 0, 0⟩ = some state ∧
      Emitted graph templates comp bound state ∧ Slotted graph comp bound state.reduced := by
  induction bound with
  | zero =>
    refine ⟨_, rfl, ⟨by simp [number_zero], ?_, ?_⟩, ?_⟩
    · exact fun e before => absurd before (Nat.not_lt_zero e)
    · exact fun e before => absurd before (Nat.not_lt_zero e)
    · exact fun e before => absurd before (Nat.not_lt_zero e)
  | succ bound ih =>
    obtain ⟨state, ran, emitted, slotted⟩ := ih (Nat.le_of_succ_le inside)
    rw [List.range_succ]
    by_cases exit : Exit graph comp bound
    · obtain ⟨next, did, kept⟩ := emitted.emit ordered components known slotted exit
      refine ⟨next, ?_, kept⟩
      rw [pick_snoc_kept _ bound (by simpa using exit), List.map_append, List.foldlM_append, ran]
      simpa using did
    · have earlier {e : Nat} (before : e < bound + 1) (exit' : Exit graph comp e) : e < bound :=
        lt_of_le_of_ne (Nat.lt_succ_iff.mp before) (fun here => exit (here ▸ exit'))
      refine ⟨state, ?_, ⟨?_, ?_, ?_⟩, ?_⟩
      · rwa [pick_snoc_dropped _ bound (by simpa using exit)]
      · rw [number_succ_dropped exit, emitted.length]
      · exact fun e before exit' => emitted.table e (earlier before exit') exit'
      · exact fun e before exit' => emitted.rebuilt e (earlier before exit') exit'
      · exact fun e before exit' => slotted e (earlier before exit') exit'

end StageFusion

open StageFusion

/-- The fused form of a graph: one node for each component, in the order of the
exits, and the outputs at the places of their exits. -/
structure Fused (graph : EngineGraph) (templates : List (String × NodeKey)) (comp : Nat → Nat)
    (reduced : Reduced) : Prop where
  components : Components graph comp
  length : reduced.nodes.length = number (Exit graph comp) graph.nodes.length
  rebuilt : ∀ e, Exit graph comp e → ∃ key,
    reduced.nodes[number (Exit graph comp) e]? = some key ∧ Rebuilt graph templates comp e key
  outputs : reduced.outputs = graph.outputs.map (number (Exit graph comp))

/-- Every emitted node stands at the place of an exit. There are no others. -/
theorem Fused.exit_of_lookup {graph : EngineGraph} {templates : List (String × NodeKey)}
    {comp : Nat → Nat} {reduced : Reduced} (fused : Fused graph templates comp reduced) {k : Nat}
    {key : NodeKey} (lookup : reduced.nodes[k]? = some key) :
    ∃ e, Exit graph comp e ∧ k = number (Exit graph comp) e := by
  have inside := lookup_bound lookup
  have positions := pick_length (Exit graph comp) (List.range graph.nodes.length)
  rw [List.length_range, ← fused.length] at positions
  obtain ⟨item, picked⟩ := lookup_exists (positions.symm ▸ inside)
  obtain ⟨e, exit, _, position⟩ := (pick_getElem?_iff _ _ _ _).mp picked
  exact ⟨e, exit, position⟩

/-- The inputs of an emitted node are earlier emitted nodes, so the reduced arena
is one that can be interned. -/
theorem Fused.topological {graph : EngineGraph} {templates : List (String × NodeKey)}
    {comp : Nat → Nat} {reduced : Reduced} (fused : Fused graph templates comp reduced)
    (ordered : graph.Ordered) : Topological reduced.nodes := by
  intro k key lookup x member
  obtain ⟨e, exit, rfl⟩ := fused.exit_of_lookup lookup
  obtain ⟨built, present, rebuilt⟩ := fused.rebuilt e exit
  obtain rfl := Option.some.inj (lookup.symm.trans present)
  cases rebuilt with
  | @boundary node template found boundary stored =>
    obtain ⟨y, reads, rfl⟩ := List.mem_map.mp (NodeKey.mem_inputs_withInputs member)
    have exitY := fused.components.boundary_read_exit ordered found boundary reads
    exact number_lt exitY (ordered.earlier e node found y reads)
  | @stage node slots members found op staged sources =>
    obtain ⟨c, slot, rfl⟩ := List.mem_map.mp (show x ∈ slots.map (spot graph comp) from member)
    obtain ⟨op, node', y, here, found', reads, exitY, rfl⟩ := sources c slot
    obtain ⟨inside, same⟩ := (mem_compMembers _ _).mp here
    have le : op ≤ e := by
      by_contra beyond
      exact exit.2 op (Nat.lt_of_not_le beyond) inside same
    rw [spot_exit exitY]
    exact number_lt exitY ((ordered.earlier op node' found' y reads).trans_le le)

/-- The outputs are places of emitted nodes. -/
theorem Fused.outputs_inside {graph : EngineGraph} {templates : List (String × NodeKey)}
    {comp : Nat → Nat} {reduced : Reduced} (fused : Fused graph templates comp reduced)
    (ordered : graph.Ordered) : ∀ o ∈ reduced.outputs, o < reduced.nodes.length := by
  intro o member
  rw [fused.outputs] at member
  obtain ⟨e, present, rfl⟩ := List.mem_map.mp member
  have exit := fused.components.output_exit ordered present
  rw [fused.length]
  exact number_lt exit exit.1

/-- Fusion succeeds on an ordered graph whose boundaries have templates, and the
stages it makes have no input twice. -/
theorem stageFusion_slotted {graph : EngineGraph} {templates : List (String × NodeKey)}
    (ordered : graph.Ordered)
    (known : ∀ node ∈ graph.nodes, node.boundary = true →
      ∃ template, Table.get? (· == ·) templates node.token = some template) (mode : FusionMode) :
    ∃ reduced comp, stageFusion graph templates mode = some reduced ∧
      Fused graph templates comp reduced ∧
      Slotted graph comp graph.nodes.length reduced.nodes := by
  obtain ⟨comp, assigned, components⟩ := compId_complete ordered mode
  obtain ⟨state, ran, emitted, slotted⟩ :=
    emit_all ordered components known graph.nodes.length le_rfl
  have outs : graph.outputs.mapM (fun o =>
      ((ids graph comp)[o]?).bind (fun c => compToReduced state c)) =
      some (graph.outputs.map (number (Exit graph comp))) := by
    apply Enumerate.mapM_complete
    intro o member
    have exit := components.output_exit ordered member
    rw [ids_getElem? exit.1, Option.bind_some]
    exact emitted.table o exit.1 exit
  rw [← comps_eq] at ran
  refine ⟨⟨state.reduced, graph.outputs.map (number (Exit graph comp)),
    ⟨0, 0, 0, state.stages, state.reduced.length, state.boundaryNodes⟩⟩, comp, ?_, ⟨components,
    emitted.length, ?_, rfl⟩, slotted⟩
  · simp only [stageFusion, assigned, Option.bind_eq_bind, Option.bind_some]
    rw [← ids, ran, Option.bind_some, outs, Option.bind_some]
  · intro e exit
    exact emitted.rebuilt e exit.1 exit

end GraphedCore
