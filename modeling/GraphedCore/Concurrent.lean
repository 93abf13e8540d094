import GraphedCore.Interning
import GraphedCore.Lib.Renaming

/-!
# Concurrent recording

Clients record into one store at once. Every call is one critical section, so a run
is an interleaving of the clients' calls. The ids a client receives depend on the
interleaving, and flow into its later calls as inputs; the trees that they unfold to
do not. Two interleavings of the same programs therefore leave the same store up to
the numbering of its nodes.
-/

namespace GraphedCore

open Dag Wired

/-- An input that a client names: a node recorded before the clients started, or
the answer to one of its own earlier calls. -/
inductive Ref where
  | prior (id : NodeId)
  | own (call : Nat)

namespace Ref

/-- The id that a reference stands for, once the thread has the answers so far. -/
def resolve (answers : List NodeId) : Ref → Option NodeId
  | .prior id => some id
  | .own call => answers[call]?

/-- The node is there when the `k`-th call of the client is made: it was recorded
before, or by an earlier call of the client. -/
def Known (prior : GraphStore) (k : Nat) : Ref → Prop
  | .prior id => id < prior.nodeCount
  | .own call => call < k

instance (prior : GraphStore) (k : Nat) : (ref : Ref) → Decidable (ref.Known prior k)
  | .prior id => inferInstanceAs (Decidable (id < prior.nodeCount))
  | .own call => inferInstanceAs (Decidable (call < k))

/-- Where the input stands when the client's own calls follow the prefix, with
nothing in between. -/
def position (prior : GraphStore) : Ref → Nat
  | .prior id => id
  | .own call => prior.nodeCount + call

end Ref

/-- A recording call of a client's program. Its inputs are references, since ids
depend on the schedule. -/
inductive Add where
  | addSource (name : String) (params : ParamMap)
  | addOp (name : String) (inputs : List Ref) (params : ParamMap)
  | addReduction (name : String) (inputs : List Ref) (params : ParamMap)
  | addExternal (descriptor : PayloadDescriptor) (inputs : List Ref) (params : ParamMap)

namespace Add

/-- What a call reads, in order. -/
def inputs : Add → List Ref
  | .addSource _ _ => []
  | .addOp _ inputs _ | .addReduction _ inputs _ | .addExternal _ inputs _ => inputs

/-- The key of the call over given ids. -/
def key (ids : List NodeId) : Add → NodeKey
  | .addSource name params => .source name params
  | .addOp name _ params => .op name params ids
  | .addReduction name _ params => .reduction name params ids
  | .addExternal descriptor _ params => .external descriptor params ids

/-- Make the call on the store. The store's lock makes it one step. -/
def perform (store : GraphStore) (ids : List NodeId) : Add → Except BadNodeId NodeId × GraphStore
  | .addSource name params => store.addSource name params
  | .addOp name _ params => store.addOp name ids params
  | .addReduction name _ params => store.addReduction name ids params
  | .addExternal descriptor _ params => store.addExternal descriptor ids params

/-- Every recording call is an interning of its key, and so one step under the
lock. -/
theorem perform_eq (add : Add) (store : GraphStore) (ids : List NodeId) :
    add.perform store ids = store.intern (add.key ids) := by
  cases add <;> rfl

/-- What a call records over is no part of its operator. -/
@[simp] theorem operator_key (add : Add) (ids more : List NodeId) :
    (add.key ids).operator = (add.key more).operator := by
  cases add <;> rfl

/-- The key of a call reads the ids that the call's references stand for. -/
theorem inputs_key (add : Add) (ids : List NodeId) (arity : ids.length = add.inputs.length) :
    (add.key ids).inputs = ids := by
  cases add with
  | addSource => exact (List.length_eq_zero_iff.mp arity).symm
  | _ => rfl

end Add

/-! ## Interleavings -/

/-- A store with its clients: the ids that each client has received, in call
order. -/
structure Recorders (ι : Type) where
  store : GraphStore
  answers : ι → List NodeId

namespace Recorders

/-- Every input of every call is known when the call is made. A program that uses
only ids it was given is so. -/
def Closed (prior : GraphStore) (program : List Add) : Prop :=
  ∀ (k : Nat) (add : Add), program[k]? = some add → ∀ ref ∈ add.inputs, ref.Known prior k

variable {ι : Type}

/-- No call has been made by any thread, and the prefix is recorded. -/
def start (prior : GraphStore) : Recorders ι := ⟨prior, fun _ => []⟩

section Scheduling

variable [DecidableEq ι]

/-- One client makes its next call. There is no next state when its program is
over, when it names an answer that it does not have, or when the call fails. -/
def step (programs : ι → List Add) (recorders : Recorders ι) (client : ι) :
    Option (Recorders ι) := do
  let add ← (programs client)[(recorders.answers client).length]?
  let ids ← add.inputs.mapM (Ref.resolve (recorders.answers client))
  match add.perform recorders.store ids with
  | (.ok id, store) =>
    some ⟨store, Function.update recorders.answers client (recorders.answers client ++ [id])⟩
  | (.error _, _) => none

/-- The clients make their calls in the given order. A schedule that asks too many
calls of a client gives nothing. -/
def run (programs : ι → List Add) (recorders : Recorders ι) (schedule : List ι) :
    Option (Recorders ι) :=
  schedule.foldlM (step programs) recorders

/-- An interleaving of the programs: each client makes all its calls. -/
def Interleaves (programs : ι → List Add) (schedule : List ι) : Prop :=
  ∀ client, schedule.count client = (programs client).length

end Scheduling

/-! ## What the programs denote -/

/-- The graph a client means: the prefix, and its own calls after it. -/
def graph (prior : GraphStore) (program : List Add) : List NodeKey :=
  prior.nodes ++ program.map (fun add => add.key (add.inputs.map (Ref.position prior)))

/-- The terms of the prefix and of all the calls of all clients. -/
def denoted (prior : GraphStore) (programs : ι → List Add) : Set (Term NodeKey) :=
  trees NodeKey.operator prior.nodes ∪ ⋃ client, trees NodeKey.operator (graph prior (programs client))

/-- The calls of a thread, each over earlier ones, form a graph in recording
order. -/
theorem graph_topological {prior : GraphStore} (interned : prior.Interned) {program : List Add}
    (closed : Closed prior program) : Topological (graph prior program) := by
  intro i node lookup x member
  rcases Nat.lt_or_ge i prior.nodes.length with old | own
  · rw [graph, List.getElem?_append_left old] at lookup
    exact interned.earlier i node lookup x member
  · rw [graph, List.getElem?_append_right own, List.getElem?_map, Option.map_eq_some_iff] at lookup
    obtain ⟨add, found, rfl⟩ := lookup
    rw [NodeKey.wired_inputs, Add.inputs_key add _ (List.length_map _)] at member
    obtain ⟨ref, named, rfl⟩ := List.mem_map.mp member
    have known := closed _ add found ref named
    cases ref with
    | prior id => exact Nat.lt_of_lt_of_le known own
    | own call =>
      have before : call < i - prior.nodes.length := known
      show prior.nodes.length + call < i
      omega

/-- The term of a call: its operator over the terms of its inputs, whatever ids
these got. -/
theorem termAt_call {prior : GraphStore} (interned : prior.Interned) {program : List Add}
    (closed : Closed prior program) {k : Nat} {add : Add} (found : program[k]? = some add) :
    termAt NodeKey.operator (graph prior program) (prior.nodeCount + k) =
      (add.inputs.mapM (fun ref => termAt NodeKey.operator (graph prior program)
        (ref.position prior))).map (Term.apply (add.key []).operator) := by
  have lookup : (graph prior program)[prior.nodeCount + k]? =
      some (add.key (add.inputs.map (Ref.position prior))) := by
    rw [graph, GraphStore.nodeCount, List.getElem?_append_right (Nat.le_add_right _ _)]
    simp [found]
  rw [termAt_node (graph_topological interned closed) lookup, NodeKey.wired_inputs,
    Add.inputs_key add _ (List.length_map _), Add.operator_key add _ []]
  congr 1
  exact Enumerate.mapM_forall₂ (List.forall₂_map_left_iff.mpr (List.forall₂_same.mpr fun _ _ => rfl))

/-! ## Every run records the same terms -/

/-- Whatever was scheduled so far: every answer is a node that unfolds to the term
of its call, and there are no nodes but those of the prefix and of the answers. -/
structure Tracked (prior : GraphStore) (programs : ι → List Add) (recorders : Recorders ι) :
    Prop where
  interned : recorders.store.Interned
  grown : prior.nodes <+: recorders.store.nodes
  answered : ∀ (client : ι) (k id : Nat), (recorders.answers client)[k]? = some id →
    id < recorders.store.nodes.length ∧ termAt NodeKey.operator recorders.store.nodes id =
      termAt NodeKey.operator (graph prior (programs client)) (prior.nodeCount + k)
  covered : ∀ id < recorders.store.nodes.length,
    id < prior.nodeCount ∨ ∃ (client : ι) (k : Nat), (recorders.answers client)[k]? = some id

variable {prior : GraphStore} {programs : ι → List Add} {recorders : Recorders ι}

/-- Nothing has been answered yet, and the prior store is as it was. -/
theorem tracked_start (programs : ι → List Add) (interned : prior.Interned) :
    Tracked prior programs (start prior) where
  interned := interned
  grown := List.prefix_refl _
  answered := by simp [start]
  covered := fun _ before => Or.inl before

/-- Appended nodes leave the terms of the nodes before them, so answers keep their
meaning. -/
theorem termAt_grown {nodes grown : List NodeKey} (topological : Topological grown)
    (grows : nodes <+: grown) {i : Nat} (inside : i < nodes.length) :
    termAt NodeKey.operator grown i = termAt NodeKey.operator nodes i := by
  obtain ⟨more, rfl⟩ := grows
  exact termAt_append topological inside

/-- The inputs a client names are resolved to nodes of the terms it means. -/
theorem Tracked.resolve (tracked : Tracked prior programs recorders)
    (interned : prior.Interned) (closed : ∀ client, Closed prior (programs client)) {client : ι}
    {ref : Ref} (known : ref.Known prior (recorders.answers client).length) :
    ∃ id, ref.resolve (recorders.answers client) = some id ∧ id < recorders.store.nodes.length ∧
      termAt NodeKey.operator recorders.store.nodes id =
        termAt NodeKey.operator (graph prior (programs client)) (ref.position prior) := by
  cases ref with
  | prior id =>
    have inside : id < prior.nodes.length := known
    refine ⟨id, rfl, inside.trans_le tracked.grown.length_le, ?_⟩
    exact (termAt_grown tracked.interned.earlier tracked.grown inside).trans
      (termAt_grown (graph_topological interned (closed client)) (List.prefix_append _ _)
        inside).symm
  | own call =>
    obtain ⟨id, found⟩ := lookup_exists (show call < (recorders.answers client).length from known)
    exact ⟨id, found, tracked.answered client call id found⟩

variable [DecidableEq ι]

/-- A client that is answered keeps its answers and gains one; the others keep
theirs. -/
theorem answers_iff (answers : ι → List NodeId) (client other : ι) (id k i : Nat) :
    (Function.update answers client (answers client ++ [id]) other)[k]? = some i ↔
      (answers other)[k]? = some i ∨ other = client ∧ k = (answers client).length ∧ i = id := by
  by_cases same : other = client
  · subst same
    rw [Function.update_self, getElem?_snoc]
    simp
  · rw [Function.update_of_ne same]
    simp [same]

/-- The next call of a client is answered, and its answer unfolds to the term of
the call. -/
theorem Tracked.step (tracked : Tracked prior programs recorders) (interned : prior.Interned)
    (closed : ∀ client, Closed prior (programs client)) {client : ι}
    (pending : (recorders.answers client).length < (programs client).length) :
    ∃ id store, Recorders.step programs recorders client = some ⟨store,
        Function.update recorders.answers client (recorders.answers client ++ [id])⟩ ∧
      Tracked prior programs ⟨store,
        Function.update recorders.answers client (recorders.answers client ++ [id])⟩ := by
  obtain ⟨add, found⟩ := lookup_exists pending
  obtain ⟨ids, read, means⟩ := Enumerate.mapM_found fun ref member =>
    tracked.resolve interned closed (closed client _ add found ref member)
  have arity : ids.length = add.inputs.length := means.length_eq.symm
  have inside : ∀ i ∈ (add.key ids).inputs, i < recorders.store.nodes.length := by
    rw [Add.inputs_key add ids arity]
    intro i member
    obtain ⟨ref, _, before, _⟩ := Enumerate.forall₂_partner means.flip member
    exact before
  obtain ⟨id, store, node, did, interned', grows, lookup, operators, inputs, fresh⟩ :=
    tracked.interned.granted inside
  rw [Add.inputs_key add ids arity] at inputs
  have stepped : Recorders.step programs recorders client = some ⟨store,
      Function.update recorders.answers client (recorders.answers client ++ [id])⟩ := by
    simp only [Recorders.step, found, read, Option.bind_eq_bind, Option.bind_some, Add.perform_eq, did]
  have kept {i : Nat} (before : i < recorders.store.nodes.length) :
      termAt NodeKey.operator store.nodes i = termAt NodeKey.operator recorders.store.nodes i :=
    termAt_grown interned'.earlier grows.nodes before
  have answer : termAt NodeKey.operator store.nodes id = termAt NodeKey.operator
      (graph prior (programs client)) (prior.nodeCount + (recorders.answers client).length) := by
    have reads : ids.mapM (termAt NodeKey.operator store.nodes) = add.inputs.mapM (fun ref =>
        termAt NodeKey.operator (graph prior (programs client)) (ref.position prior)) :=
      Enumerate.mapM_forall₂ (means.flip.imp fun _ _ facts => (kept facts.1).trans facts.2)
    rw [termAt_node interned'.earlier lookup, termAt_call interned (closed client) found,
      NodeKey.wired_inputs, inputs, reads, operators, Add.operator_key add ids []]
  refine ⟨id, store, stepped, interned', tracked.grown.trans grows.nodes, ?_, ?_⟩
  · intro other k i answered
    rcases (answers_iff _ _ _ _ _ _).mp answered with old | ⟨rfl, rfl, rfl⟩
    · obtain ⟨before, term⟩ := tracked.answered other k i old
      exact ⟨before.trans_le grows.nodes.length_le, (kept before).trans term⟩
    · exact ⟨lookup_bound lookup, answer⟩
  · intro i before
    rcases fresh i before with old | rfl
    · refine (tracked.covered i old).imp_right ?_
      rintro ⟨other, k, answered⟩
      exact ⟨other, k, (answers_iff _ _ _ _ _ _).mpr (Or.inl answered)⟩
    · exact Or.inr ⟨client, _, (answers_iff _ _ _ _ _ _).mpr (Or.inr ⟨rfl, rfl, rfl⟩)⟩

/-- What is left of an interleaving runs to its end, and every call is
answered. -/
theorem Tracked.run (tracked : Tracked prior programs recorders) (interned : prior.Interned)
    (closed : ∀ client, Closed prior (programs client)) {schedule : List ι}
    (rest : ∀ client, (recorders.answers client).length + schedule.count client =
      (programs client).length) :
    ∃ final, Recorders.run programs recorders schedule = some final ∧
      Tracked prior programs final ∧
      ∀ client, (final.answers client).length = (programs client).length := by
  induction schedule generalizing recorders with
  | nil => exact ⟨recorders, rfl, tracked, rest⟩
  | cons client schedule ih =>
    have pending : (recorders.answers client).length < (programs client).length := by
      have all := rest client
      rw [List.count_cons_self] at all
      omega
    obtain ⟨id, store, stepped, next⟩ := tracked.step interned closed pending
    obtain ⟨final, ran, done⟩ := ih next (fun other => by
      have all := rest other
      by_cases same : other = client
      · subst same
        rw [List.count_cons_self] at all
        simp only [Function.update_self, List.length_append, List.length_singleton]
        omega
      · rw [List.count_cons_of_ne (Ne.symm same)] at all
        simpa only [Function.update_of_ne same] using all)
    refine ⟨final, ?_, done⟩
    rw [Recorders.run, List.foldlM_cons, stepped]
    exact ran

omit [DecidableEq ι] in
/-- When all calls are answered, the store unfolds to what the programs denote. -/
theorem Tracked.trees_eq (tracked : Tracked prior programs recorders) (interned : prior.Interned)
    (closed : ∀ client, Closed prior (programs client))
    (done : ∀ client, (recorders.answers client).length = (programs client).length) :
    trees NodeKey.operator recorders.store.nodes = denoted prior programs := by
  have old {i : Nat} (before : i < prior.nodes.length) :
      termAt NodeKey.operator recorders.store.nodes i = termAt NodeKey.operator prior.nodes i :=
    termAt_grown tracked.interned.earlier tracked.grown before
  ext term
  constructor
  · rintro ⟨i, known⟩
    have inside := (termAt_exists_iff NodeKey.operator tracked.interned.earlier).mp ⟨term, known⟩
    rcases tracked.covered i inside with before | ⟨client, k, answered⟩
    · exact Or.inl ⟨i, (old before).symm.trans known⟩
    · refine Or.inr (Set.mem_iUnion.mpr ⟨client, prior.nodeCount + k, ?_⟩)
      exact (tracked.answered client k i answered).2.symm.trans known
  · rintro (⟨i, known⟩ | member)
    · have before := (termAt_exists_iff NodeKey.operator interned.earlier).mp ⟨term, known⟩
      exact ⟨i, (old before).trans known⟩
    · obtain ⟨client, i, known⟩ := Set.mem_iUnion.mp member
      have topological := graph_topological interned (closed client)
      have inside := (termAt_exists_iff NodeKey.operator topological).mp ⟨term, known⟩
      rcases Nat.lt_or_ge i prior.nodes.length with before | own
      · refine ⟨i, (old before).trans ?_⟩
        exact (termAt_grown topological (List.prefix_append _ _) before).symm.trans known
      · obtain ⟨k, rfl⟩ := Nat.exists_eq_add_of_le own
        have pending : k < (recorders.answers client).length := by
          rw [graph, List.length_append, List.length_map] at inside
          rw [done client]
          omega
        obtain ⟨id, answered⟩ := lookup_exists pending
        exact ⟨id, (tracked.answered client k id answered).2.trans known⟩

/-- However the calls of the clients are interleaved, every call is answered,
and the stores that two interleavings leave differ in the numbering of their
nodes only: the answers to one call correspond, and corresponding nodes are
equal keys over corresponding inputs. There is a node for each term that the
programs denote. -/
theorem recording_commutes (calls : List Call) (programs : ι → List Add)
    (closed : ∀ client, Closed (Call.run .new calls) (programs client)) {schedule other : List ι}
    (interleaves : Interleaves programs schedule) (interleaves' : Interleaves programs other) :
    ∃ (final final' : Recorders ι) (rename : NodeId → NodeId),
      run programs (start (Call.run .new calls)) schedule = some final ∧
      run programs (start (Call.run .new calls)) other = some final' ∧
      Set.BijOn rename (Set.Iio final.store.nodeCount) (Set.Iio final'.store.nodeCount) ∧
      (∀ (client : ι) (k : Nat), k < (programs client).length → ∃ id,
        (final.answers client)[k]? = some id ∧ (final'.answers client)[k]? = some (rename id)) ∧
      (∀ (id : NodeId) (node : NodeKey), final.store.nodes[id]? = some node → ∃ node',
        final'.store.nodes[rename id]? = some node' ∧
          (node.withInputs (node.inputs.map rename)).eq node' = true) ∧
      (∀ id < (Call.run .new calls).nodeCount, rename id = id) ∧
      final.store.nodeCount = final'.store.nodeCount ∧
      (denoted (Call.run .new calls) programs).encard = final.store.nodeCount := by
  have interned := Call.interned_run GraphStore.interned_new calls
  obtain ⟨final, ran, tracked, done⟩ := (tracked_start programs interned).run interned
    closed (fun client => (Nat.zero_add _).trans (interleaves client))
  obtain ⟨final', ran', tracked', done'⟩ := (tracked_start programs interned).run
    interned closed (fun client => (Nat.zero_add _).trans (interleaves' client))
  have earlier := tracked.interned.earlier
  have earlier' := tracked'.interned.earlier
  have terms := tracked.trees_eq interned closed done
  have terms' := tracked'.trees_eq interned closed done'
  obtain ⟨rename, respects, agree⟩ := renaming_exists earlier earlier'
    tracked.interned.distinct tracked'.interned.distinct (terms.trans terms'.symm)
  have inside' {id : NodeId} (before : id < final.store.nodes.length) :
      rename id < final'.store.nodes.length := respects.bijective.mapsTo before
  have count : (denoted (Call.run .new calls) programs).encard = final.store.nodeCount := by
    rw [← terms, encard_trees earlier tracked.interned.distinct, GraphStore.nodeCount]
  have count' : (denoted (Call.run .new calls) programs).encard = final'.store.nodeCount := by
    rw [← terms', encard_trees earlier' tracked'.interned.distinct, GraphStore.nodeCount]
  refine ⟨final, final', rename, ran, ran', respects.bijective, ?_, ?_, ?_,
    Nat.cast_injective (count.symm.trans count'), count⟩
  · intro client k pending
    obtain ⟨id, answered⟩ := lookup_exists (done client ▸ pending)
    obtain ⟨id', answered'⟩ := lookup_exists (done' client ▸ pending)
    obtain ⟨before, term⟩ := tracked.answered client k id answered
    obtain ⟨before', term'⟩ := tracked'.answered client k id' answered'
    have same := (tracked'.interned.termAt_iff (inside' before) before').mp
      ((agree id before).trans (term.trans term'.symm))
    exact ⟨id, answered, same ▸ answered'⟩
  · intro id node lookup
    obtain ⟨node', lookup', operators, inputs⟩ := respects.carried id node lookup
    refine ⟨node', lookup', (NodeKey.eq_iff _ _).mpr ((NodeKey.canon_eq_iff _ _).mpr ⟨?_, ?_⟩)⟩
    · rw [NodeKey.operator_withInputs, operators]
    · exact (NodeKey.inputs_withInputs node _ (List.length_map _)).trans inputs.symm
  · intro id before
    have first := before.trans_le tracked.grown.length_le
    refine (tracked'.interned.termAt_iff (inside' first)
      (before.trans_le tracked'.grown.length_le)).mp ((agree id first).trans ?_)
    exact (termAt_grown earlier tracked.grown before).trans
      (termAt_grown earlier' tracked'.grown before).symm

/-- One client negates the transverse momentum, the other reads two columns, one
of them the same. -/
def muons : Bool → List Add
  | false => [.addOp "pt" [.prior 0] (.new []), .addOp "neg" [.own 0] (.new [])]
  | true => [.addOp "eta" [.prior 0] (.new []), .addOp "pt" [.prior 0] (.new [])]

/-- The calls of both clients refer to their own earlier answers and to the prior
source. -/
theorem muons_closed (client : Bool) :
    Closed (Call.run .new [.addSource "events" (.new [])]) (muons client) := by
  intro k add found ref named
  match client, k with
  | false, 0 | false, 1 | true, 0 | true, 1 =>
    obtain rfl := Option.some.inj found
    obtain rfl := List.mem_singleton.mp named
    decide +kernel
  | false, k + 2 | true, k + 2 => cases found

/-- The column that both clients read is node 1 when the first client goes first,
and node 2 when the second does. -/
theorem recording_commutes_muons :
    ∃ rename : NodeId → NodeId, Set.BijOn rename (Set.Iio 4) (Set.Iio 4) ∧ rename 1 = 2 := by
  have first : Interleaves muons [false, false, true, true] := by
    intro client
    cases client <;> rfl
  have second : Interleaves muons [true, true, false, false] := by
    intro client
    cases client <;> rfl
  obtain ⟨final, final', rename, ran, ran', bijective, answers, _⟩ :=
    recording_commutes [.addSource "events" (.new [])] muons muons_closed first second
  have left : (run muons (start (Call.run .new [.addSource "events" (.new [])]))
      [false, false, true, true]).map (fun r => (r.store.nodeCount, r.answers false)) =
        some (4, [1, 2]) := by
    decide +kernel
  have right : (run muons (start (Call.run .new [.addSource "events" (.new [])]))
      [true, true, false, false]).map (fun r => (r.store.nodeCount, r.answers false)) =
        some (4, [2, 3]) := by
    decide +kernel
  rw [ran, Option.map_some, Option.some.injEq, Prod.mk.injEq] at left
  rw [ran', Option.map_some, Option.some.injEq, Prod.mk.injEq] at right
  rw [left.1, right.1] at bijective
  obtain ⟨id, received, received'⟩ := answers false 0 (by decide)
  rw [left.2] at received
  rw [right.2] at received'
  obtain rfl := Option.some.inj received
  exact ⟨rename, bijective, (Option.some.inj received').symm⟩

end Recorders

end GraphedCore
