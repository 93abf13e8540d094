import GraphedCore.Matching
import GraphedCore.Session

/-!
# Compiling after other recordings

A program is a list of keys whose inputs are earlier steps of it. Recording it
into a store answers every step with an id, and the store unfolds from these ids
as the program does, whatever was recorded before. Earlier recordings can still
decide the order of the ids, which orientation of a symmetric op came first, and
which bits of a NaN were stored. When they do not, compiling gives the bytes that
it gives in an empty store.
-/

namespace GraphedCore

open Dag Wired GraphStore

/-! ## Recording a program -/

/-- A store, and the ids answered so far. A program knows its nodes by the calls
that made them. -/
structure Recording where
  store : GraphStore
  results : List NodeId
deriving DecidableEq

namespace Recording

/-- The id of a step. Steps that were not made yet have none, and `0` stands
there. -/
def id (recording : Recording) (step : Nat) : NodeId := recording.results.getD step 0

/-- Nothing has been answered, whatever the store holds already. -/
def start (store : GraphStore) : Recording := ⟨store, []⟩

/-- The call that records a key over the given ids. A stage cannot be recorded,
and is not asked for by a plain program. -/
def call (store : GraphStore) (key : NodeKey) (ids : List NodeId) :
    Except BadNodeId NodeId × GraphStore :=
  match key with
  | .source name params => store.addSource name params
  | .op name params _ => store.addOp name ids params
  | .reduction name params _ => store.addReduction name ids params
  | .external d params _ => store.addExternal d ids params
  | .stage _ members => store.addKey (.stage ids members)

/-- Record the steps in order. The inputs of a step are earlier steps, and are
passed by the ids that were answered. -/
def record : List NodeKey → Recording → Option Recording
  | [], recording => some recording
  | key :: rest, recording => do
    let ids ← key.inputs.mapM (fun step => recording.results[step]?)
    match call recording.store key ids with
    | (.ok id, store) => record rest ⟨store, recording.results ++ [id]⟩
    | (.error _, _) => none

/-- Every call of a program interns its key over the ids that it is given. -/
theorem call_eq (store : GraphStore) (key : NodeKey) (ids : List NodeId) :
    call store key ids = store.intern (key.withInputs ids) := by
  cases key <;> rfl

/-- The first `n` steps are stored, each under its operator and over the ids of
its inputs. -/
structure Stores (program : List NodeKey) (n : Nat) (recording : Recording) : Prop where
  interned : recording.store.Interned
  length : recording.results.length = n
  stored : ∀ step key, step < n → program[step]? = some key → ∃ node,
    recording.store.nodes[recording.id step]? = some node ∧ node.operator = key.operator ∧
      node.inputs = key.inputs.map recording.id

variable {program : List NodeKey} {n : Nat} {recording : Recording} {key : NodeKey}

/-- A further answer leaves the earlier ones in place. -/
theorem Stores.id_append (stores : Stores program n recording) {store : GraphStore} (fresh : NodeId)
    {step : Nat} (before : step < n) :
    id ⟨store, recording.results ++ [fresh]⟩ step = recording.id step := by
  simp [id, List.getElem?_append_left (stores.length.symm ▸ before)]

/-- The last answer is that of the last step. -/
theorem Stores.id_last (stores : Stores program n recording) (store : GraphStore)
    (fresh : NodeId) : id ⟨store, recording.results ++ [fresh]⟩ n = fresh := by
  simp [id, ← stores.length]

/-- The id of a step is one of the store. -/
theorem Stores.id_lt (stores : Stores program n recording) {step : Nat} (before : step < n)
    (known : program[step]? = some key) : recording.id step < recording.store.nodes.length := by
  obtain ⟨node, lookup, _⟩ := stores.stored step key before known
  exact lookup_bound lookup

/-- The next step is answered with an id of an equal node. It may be an old one,
from before the program. -/
theorem Stores.step (stores : Stores program n recording) (topological : Topological program)
    (known : program[n]? = some key) :
    ∃ ids fresh store, key.inputs.mapM (fun step => recording.results[step]?) = some ids ∧
      call recording.store key ids = (.ok fresh, store) ∧
      Stores program (n + 1) ⟨store, recording.results ++ [fresh]⟩ := by
  have earlier := topological n key known
  have reads : key.inputs.mapM (fun step => recording.results[step]?) =
      some (key.inputs.map recording.id) := by
    apply Enumerate.mapM_complete
    intro step member
    have before : step < recording.results.length := stores.length.symm ▸ earlier step member
    simp [id, before]
  have arity : (key.inputs.map recording.id).length = key.inputs.length := List.length_map _
  have inputs := NodeKey.inputs_withInputs key _ arity
  have granted : ∀ x ∈ (key.withInputs (key.inputs.map recording.id)).inputs,
      x < recording.store.nodes.length := by
    rw [inputs]
    intro x member
    obtain ⟨step, read, rfl⟩ := List.mem_map.mp member
    obtain ⟨other, found⟩ := lookup_exists ((earlier step read).trans (lookup_bound known))
    exact stores.id_lt (earlier step read) found
  obtain ⟨fresh, store, node, did, interned, grown, lookup, operators, same, _⟩ :=
    stores.interned.granted granted
  rw [NodeKey.operator_withInputs] at operators
  refine ⟨_, fresh, store, reads, (call_eq _ _ _).trans did, interned, by simp [stores.length],
    fun step other before found => ?_⟩
  -- whichever node answers the step, the steps before it keep theirs
  have agree : ∀ x ∈ other.inputs, id ⟨store, recording.results ++ [fresh]⟩ x = recording.id x :=
    fun x member => stores.id_append fresh
      ((topological step other found x member).trans_le (Nat.lt_succ_iff.mp before))
  rw [List.map_congr_left agree]
  rcases Nat.lt_succ_iff_lt_or_eq.mp before with old | rfl
  · obtain ⟨stored, present, facts⟩ := stores.stored step other old found
    rw [stores.id_append fresh old]
    exact ⟨stored, grown.lookup present, facts⟩
  · obtain rfl := Option.some.inj (known.symm.trans found)
    rw [stores.id_last]
    exact ⟨node, lookup, operators, same.trans inputs⟩

/-- The calls of a program are all answered, by induction on those that are
left. -/
theorem Stores.record (stores : Stores program n recording) (topological : Topological program)
    (rest : List NodeKey) (split : program.drop n = rest) :
    ∃ final, Recording.record rest recording = some final ∧
      Stores program (n + rest.length) final := by
  induction rest generalizing n recording with
  | nil => exact ⟨recording, rfl, stores⟩
  | cons key rest ih =>
    have known : program[n]? = some key := by
      have first := congrArg List.head? split
      simpa [List.head?_drop] using first
    obtain ⟨ids, fresh, store, reads, did, next⟩ := stores.step topological known
    obtain ⟨final, ran, done⟩ := ih next (by
      rw [← List.drop_drop, split]
      rfl)
    refine ⟨final, ?_, ?_⟩
    · simp only [Recording.record, reads, did, Option.bind_eq_bind, Option.bind_some, ran]
    · rwa [List.length_cons, Nat.add_comm rest.length, ← Nat.add_assoc]

/-- A program is recorded into any interned store. None of its calls is
refused. -/
theorem record_complete {store : GraphStore} (interned : store.Interned)
    (topological : Topological program) :
    ∃ final, Recording.record program (start store) = some final ∧
      Stores program program.length final := by
  have begun : Stores program 0 (start store) :=
    ⟨interned, rfl, fun _ _ impossible => absurd impossible (Nat.not_lt_zero _)⟩
  obtain ⟨final, ran, done⟩ := begun.record topological program rfl
  exact ⟨final, ran, by rwa [Nat.zero_add] at done⟩

/-! ## The store unfolds as the program does -/

/-- A step and its id, in one recording of the program. -/
def Answers (program : List NodeKey) (recording : Recording) (step i : NodeId) : Prop :=
  step < program.length ∧ i = recording.id step

/-- A program and the store it is recorded into are bisimilar: a step and its node
have one operator, and their inputs correspond. -/
theorem Stores.bisimulation (stores : Stores program program.length recording)
    (topological : Topological program) :
    Bisimulation nodeRules nodeRules program recording.store.nodes (Answers program recording) := by
  have same {step i : NodeId} {key node : NodeKey} (answers : Answers program recording step i)
      (known : program[step]? = some key) (lookup : recording.store.nodes[i]? = some node) :
      node.operator = key.operator ∧ node.inputs = key.inputs.map recording.id := by
    obtain ⟨inside, rfl⟩ := answers
    obtain ⟨stored, present, facts⟩ := stores.stored step key inside known
    obtain rfl := Option.some.inj (lookup.symm.trans present)
    exact facts
  constructor
  · rintro step _ ⟨inside, rfl⟩
    obtain ⟨key, known⟩ := lookup_exists inside
    obtain ⟨node, lookup, _, reads⟩ := stores.stored step key inside known
    refine ⟨key, node, known, lookup, ?_⟩
    rw [NodeKey.wired_inputs, NodeKey.wired_inputs, reads, List.forall₂_map_right_iff]
    exact List.forall₂_same.mpr
      (fun x member => ⟨(topological step key known x member).trans inside, rfl⟩)
  · intro step i other j key node key' node' first second known lookup known' lookup'
    show key.operator = key'.operator ↔ node.operator = node'.operator
    rw [(same first known lookup).1, (same second known' lookup').1]
  · intro step i key node answers known lookup
    show SymmetricOperator key.operator ↔ SymmetricOperator node.operator
    rw [(same answers known lookup).1]
  · intro step i key node answers known lookup
    show IdentityOperator key.operator ↔ IdentityOperator node.operator
    rw [(same answers known lookup).1]

/-- The ids of the requested steps, as they are passed to a reduction. -/
def outputs (recording : Recording) (outs : List NodeId) : List NodeId := outs.map recording.id

variable {outs : List NodeId}

/-- The outputs of a program correspond to the ids that were answered for them. -/
theorem outputs_answer (inside : ∀ o ∈ outs, o < program.length) :
    List.Forall₂ (Answers program recording) outs (recording.outputs outs) := by
  rw [outputs, List.forall₂_map_right_iff]
  exact List.forall₂_same.mpr (fun o member => ⟨inside o member, rfl⟩)

/-- The outputs are ids of the store. -/
theorem Stores.outputs_inside (stores : Stores program program.length recording)
    (inside : ∀ o ∈ outs, o < program.length) :
    ∀ o ∈ recording.outputs outs, o < recording.store.nodes.length := by
  intro o member
  obtain ⟨step, requested, rfl⟩ := List.mem_map.mp member
  obtain ⟨key, known⟩ := lookup_exists (inside step requested)
  exact stores.id_lt (inside step requested) known

/-- A live step has a live id, since inputs were answered with the ids that are
read. -/
theorem Stores.reaches (stores : Stores program program.length recording)
    (topological : Topological program) (inside : ∀ o ∈ outs, o < program.length) {step : NodeId}
    (reached : Reaches program outs step) :
    Reaches recording.store.nodes (recording.outputs outs) (recording.id step) := by
  obtain ⟨i, ⟨_, rfl⟩, live⟩ :=
    (stores.bisimulation topological).reaches (outputs_answer inside) reached
  exact live

/-- Every live node answers a live step, under its operator. What was in the store
before is dead unless the program meets it. -/
theorem Stores.live (stores : Stores program program.length recording)
    (topological : Topological program) (inside : ∀ o ∈ outs, o < program.length) {i : NodeId}
    (reached : Reaches recording.store.nodes (recording.outputs outs) i) :
    ∃ step key node, Reaches program outs step ∧ i = recording.id step ∧
      program[step]? = some key ∧ recording.store.nodes[i]? = some node ∧
      node.operator = key.operator := by
  obtain ⟨step, ⟨before, rfl⟩, live⟩ :=
    (stores.bisimulation topological).flip.reaches (outputs_answer inside).flip reached
  obtain ⟨key, known⟩ := lookup_exists before
  obtain ⟨node, lookup, operators, _⟩ := stores.stored step key before known
  exact ⟨step, key, node, live, rfl, known, lookup, operators⟩

/-- Two steps are congruent in the program exactly when their nodes are in the
store. -/
theorem Stores.least_iff (stores : Stores program program.length recording)
    (topological : Topological program) {step other : NodeId} (first : step < program.length)
    (second : other < program.length) :
    Least nodeRules program step other ↔
      Least nodeRules recording.store.nodes (recording.id step) (recording.id other) :=
  (stores.bisimulation topological).least_iff topological stores.interned.earlier ⟨first, rfl⟩
    ⟨second, rfl⟩

/-- What the outputs reach of the store is what the program recorded, and so no
stage and no payload. -/
theorem Stores.livePlain (stores : Stores program program.length recording)
    (topological : Topological program) (inside : ∀ o ∈ outs, o < program.length)
    (plain : ∀ key ∈ program, key.IsPlain) :
    LivePlain recording.store.nodes (recording.outputs outs) := by
  intro i node reached lookup
  obtain ⟨step, key, stored, _, _, known, present, operators⟩ :=
    stores.live topological inside reached
  obtain rfl := Option.some.inj (lookup.symm.trans present)
  exact (plain key (List.mem_of_getElem? known)).of_operator operators.symm

end Recording

/-! ## Two recordings -/

section Two

variable {program : List NodeKey} {outs : List NodeId} {fresh later : Recording}

/-- The ids of two live steps that the rules relate, in two recordings. The live
graphs of the two correspond by it. -/
def Answered (program : List NodeKey) (outs : List NodeId) (fresh later : Recording)
    (i j : NodeId) : Prop :=
  ∃ step other, Reaches program outs step ∧ Reaches program outs other ∧
    Least nodeRules program step other ∧ i = fresh.id step ∧ j = later.id other

/-- The first live member of the class of a step, which decides its order and its
orientation. -/
noncomputable def Recording.first (recording : Recording) (outs : List NodeId) (step : NodeId) :
    NodeId :=
  firstLive recording.store.nodes (recording.outputs outs) (recording.id step)

/-- What was recorded before decides neither the order of the live classes, nor
what their first live members read, nor the parameters that boundaries are rebuilt
from. -/
structure Steady (program : List NodeKey) (outs : List NodeId) (fresh later : Recording) :
    Prop where
  order : ∀ step other, Reaches program outs step → Reaches program outs other →
    (fresh.first outs step < fresh.first outs other ↔
      later.first outs step < later.first outs other)
  straight : ∀ step key key', Reaches program outs step →
    fresh.store.nodes[fresh.first outs step]? = some key →
    later.store.nodes[later.first outs step]? = some key' →
      List.Forall₂ (Answered program outs fresh later) key.inputs key'.inputs
  params : ∀ step key key', Reaches program outs step →
    fresh.store.nodes[fresh.first outs step]? = some key →
    later.store.nodes[later.first outs step]? = some key' →
      key.isBoundary = true → (∀ l other,
        Reaches fresh.store.nodes (fresh.outputs outs) l → fresh.store.nodes[l]? = some other →
          other.token = key.token → fresh.first outs step ≤ l) →
            key.withInputs [] = key'.withInputs []

namespace Recording

/-- The first live node of a class, in a history, is the node of a step of the
program of that class. -/
theorem Stores.first_spec {recording : Recording} (stores : Stores program program.length recording)
    (topological : Topological program) (inside : ∀ o ∈ outs, o < program.length) {step : NodeId}
    (reached : Reaches program outs step) :
    ∃ leading key node, Reaches program outs leading ∧ Least nodeRules program leading step ∧
      recording.first outs step = recording.id leading ∧ program[leading]? = some key ∧
      recording.store.nodes[recording.first outs step]? = some node ∧
      node.operator = key.operator ∧ ¬ Collapsed nodeRules (fun _ _ => True) program leading := by
  have live := stores.reaches topological inside reached
  obtain ⟨first, related⟩ := firstLive_spec live
  obtain ⟨leading, key, node, reached', same, known, lookup, operators⟩ :=
    stores.live topological inside first
  rw [same] at related
  have before := reached'.bound topological inside
  refine ⟨leading, key, node, reached', ?_, same, known, lookup, operators, ?_⟩
  · exact (stores.least_iff topological before (reached.bound topological inside)).mpr related
  · intro collapsed
    refine firstLive_not_collapsed stores.interned.earlier live ?_
    rw [same]
    exact (stores.bisimulation topological).collapsed ⟨before, rfl⟩ collapsed

/-- Related steps have one first live member. -/
theorem Stores.first_eq {recording : Recording} (stores : Stores program program.length recording)
    (topological : Topological program) (inside : ∀ o ∈ outs, o < program.length)
    {step other : NodeId} (reached : Reaches program outs step)
    (reached' : Reaches program outs other) (related : Least nodeRules program step other) :
    recording.first outs step = recording.first outs other := by
  have same := (stores.least_iff topological (reached.bound topological inside)
    (reached'.bound topological inside)).mp related
  obtain ⟨first, onto⟩ := firstLive_spec (stores.reaches topological inside reached)
  obtain ⟨first', onto'⟩ := firstLive_spec (stores.reaches topological inside reached')
  exact Nat.le_antisymm (firstLive_le first' (onto'.trans same.symm))
    (firstLive_le first (onto.trans same))

end Recording

open Recording

/-- The first live members of a step carry one token in both stores. -/
theorem first_tokens (stores : Stores program program.length fresh)
    (stores' : Stores program program.length later) (topological : Topological program)
    (inside : ∀ o ∈ outs, o < program.length) (plain : ∀ key ∈ program, key.IsPlain)
    {step : NodeId} (reached : Reaches program outs step) {key key' : NodeKey}
    (lookup : fresh.store.nodes[fresh.first outs step]? = some key)
    (lookup' : later.store.nodes[later.first outs step]? = some key') : key.token = key'.token := by
  obtain ⟨a, source, node, _, relatedA, _, known, present, operators, free⟩ :=
    stores.first_spec topological inside reached
  obtain ⟨b, source', node', _, relatedB, _, known', present', operators', free'⟩ :=
    stores'.first_spec topological inside reached
  obtain rfl := Option.some.inj (lookup.symm.trans present)
  obtain rfl := Option.some.inj (lookup'.symm.trans present')
  -- neither step collapsed, so they are of one operator
  obtain ⟨found, found', first, second, labels, _⟩ :=
    ((relatedA.trans relatedB.symm).twin topological free free').alike known
  obtain rfl := Option.some.inj (known.symm.trans first)
  obtain rfl := Option.some.inj (known'.symm.trans second)
  have live := stores.livePlain topological inside plain _ _
    (firstLive_spec (stores.reaches topological inside reached)).1 lookup
  have live' := stores'.livePlain topological inside plain _ _
    (firstLive_spec (stores'.reaches topological inside reached)).1 lookup'
  refine (NodeKey.token_eq_iff live live').mpr ?_
  rw [operators, operators']
  exact labels

/-- Steady recordings leave matching arenas, so that they are reduced to one
list. -/
theorem Steady.matching (steady : Steady program outs fresh later)
    (stores : Stores program program.length fresh) (stores' : Stores program program.length later)
    (topological : Topological program) (inside : ∀ o ∈ outs, o < program.length)
    (plain : ∀ key ∈ program, key.IsPlain) :
    Matching fresh.store.nodes (fresh.outputs outs) later.store.nodes (later.outputs outs)
      (Answered program outs fresh later) where
  reached := by
    rintro _ _ ⟨step, other, reached, reached', _, rfl, rfl⟩
    exact ⟨stores.reaches topological inside reached, stores'.reaches topological inside reached'⟩
  total i live := by
    obtain ⟨step, _, _, reached, rfl, _⟩ := stores.live topological inside live
    exact ⟨later.id step, step, step, reached, reached, .refl step, rfl, rfl⟩
  onto j live := by
    obtain ⟨step, _, _, reached, rfl, _⟩ := stores'.live topological inside live
    exact ⟨fresh.id step, step, step, reached, reached, .refl step, rfl, rfl⟩
  agree := by
    rintro _ _ _ _ ⟨p, q, reachedP, reachedQ, related, rfl, rfl⟩
      ⟨p', q', reachedP', reachedQ', related', rfl, rfl⟩
    rw [← stores.least_iff topological (reachedP.bound topological inside)
        (reachedP'.bound topological inside),
      ← stores'.least_iff topological (reachedQ.bound topological inside)
        (reachedQ'.bound topological inside)]
    constructor
    · intro merged
      exact related.symm.trans (merged.trans related')
    · intro merged
      exact related.trans (merged.trans related'.symm)
  order := by
    rintro _ _ _ _ ⟨p, q, reachedP, reachedQ, related, rfl, rfl⟩
      ⟨p', q', reachedP', reachedQ', related', rfl, rfl⟩
    have same := stores.first_eq topological inside reachedP reachedQ related
    have same' := stores.first_eq topological inside reachedP' reachedQ' related'
    rw [Recording.first, Recording.first] at same same'
    rw [same, same']
    exact steady.order q q' reachedQ reachedQ'
  shape := by
    rintro _ _ key key' ⟨p, q, reachedP, reachedQ, related, rfl, rfl⟩ lookup lookup'
    have same := stores.first_eq topological inside reachedP reachedQ related
    rw [Recording.first, Recording.first] at same
    rw [same] at lookup
    refine ⟨first_tokens stores stores' topological inside plain reachedQ lookup lookup',
      steady.straight q key key' reachedQ lookup lookup', fun boundary earliest => ?_⟩
    rw [same] at earliest
    exact steady.params q key key' reachedQ lookup lookup' boundary earliest
  outputs := by
    rw [Recording.outputs, Recording.outputs, List.forall₂_map_left_iff,
      List.forall₂_map_right_iff]
    exact List.forall₂_same.mpr
      (fun o member => ⟨o, o, .root member, .root member, .refl o, rfl, rfl⟩)

/-- When the live steps got their ids in one order, their classes begin with the
same steps. -/
theorem first_agree (stores : Stores program program.length fresh)
    (stores' : Stores program program.length later) (topological : Topological program)
    (inside : ∀ o ∈ outs, o < program.length)
    (order : ∀ step other, Reaches program outs step → Reaches program outs other →
      (fresh.id step < fresh.id other ↔ later.id step < later.id other))
    {step : NodeId} (reached : Reaches program outs step) :
    ∃ leading, Reaches program outs leading ∧ fresh.first outs step = fresh.id leading ∧
      later.first outs step = later.id leading := by
  obtain ⟨a, _, _, reachedA, relatedA, sameA, _⟩ := stores.first_spec topological inside reached
  obtain ⟨b, _, _, reachedB, relatedB, sameB, _⟩ := stores'.first_spec topological inside reached
  refine ⟨b, reachedB, ?_, sameB⟩
  have bound {x : NodeId} (live : Reaches program outs x) : x < program.length :=
    live.bound topological inside
  have le : fresh.id a ≤ fresh.id b := sameA ▸ firstLive_le
    (stores.reaches topological inside reachedB)
    ((stores.least_iff topological (bound reachedB) (bound reached)).mp relatedB)
  have le' : later.id b ≤ later.id a := sameB ▸ firstLive_le
    (stores'.reaches topological inside reachedA)
    ((stores'.least_iff topological (bound reachedA) (bound reached)).mp relatedA)
  rw [sameA]
  exact Nat.le_antisymm le
    (Nat.le_of_not_lt (fun less => Nat.not_lt_of_ge le' ((order a b reachedA reachedB).mp less)))

/-- Recordings are steady when the live steps got their ids in one order and the
boundaries among them are stored with the same parameters. -/
theorem steady_of_order (stores : Stores program program.length fresh)
    (stores' : Stores program program.length later) (topological : Topological program)
    (inside : ∀ o ∈ outs, o < program.length)
    (order : ∀ step other, Reaches program outs step → Reaches program outs other →
      (fresh.id step < fresh.id other ↔ later.id step < later.id other))
    (params : ∀ step key key', Reaches program outs step →
      fresh.store.nodes[fresh.id step]? = some key → later.store.nodes[later.id step]? = some key' →
        key.isBoundary = true → key.withInputs [] = key'.withInputs []) :
    Steady program outs fresh later := by
  have agree {step : NodeId} (reached : Reaches program outs step) :=
    first_agree stores stores' topological inside order reached
  constructor
  · intro step other reached reached'
    obtain ⟨a, reachedA, first, first'⟩ := agree reached
    obtain ⟨b, reachedB, second, second'⟩ := agree reached'
    rw [first, first', second, second']
    exact order a b reachedA reachedB
  · intro step key key' reached lookup lookup'
    obtain ⟨a, live, first, first'⟩ := agree reached
    rw [first] at lookup
    rw [first'] at lookup'
    obtain ⟨source, known⟩ := lookup_exists (live.bound topological inside)
    have before := live.bound topological inside
    obtain ⟨node, present, _, reads⟩ := stores.stored a source before known
    obtain ⟨node', present', _, reads'⟩ := stores'.stored a source before known
    obtain rfl := Option.some.inj (lookup.symm.trans present)
    obtain rfl := Option.some.inj (lookup'.symm.trans present')
    rw [reads, reads', List.forall₂_map_left_iff, List.forall₂_map_right_iff]
    exact List.forall₂_same.mpr (fun x member =>
      ⟨x, x, live.input known member, live.input known member, .refl x, rfl, rfl⟩)
  · intro step key key' reached lookup lookup' boundary _
    obtain ⟨a, live, first, first'⟩ := agree reached
    exact params a key key' live (first ▸ lookup) (first' ▸ lookup') boundary

end Two

/-! ## Independence -/

/-- Recording a program into the store and into an empty store, and reducing each
to the requested steps, gives the same bytes. -/
def Independent (engine : RewriteEngine) (mode : FusionMode) (store : GraphStore)
    (program : List NodeKey) (outs : List NodeId) : Prop :=
  ∃ fresh later reduced report reduced' report',
    Recording.record program (.start .new) = some fresh ∧
    Recording.record program (.start store) = some later ∧
    fresh.store.reduceWithOutputs (fresh.outputs outs) engine mode = some (.ok (reduced, report)) ∧
    later.store.reduceWithOutputs (later.outputs outs) engine mode =
      some (.ok (reduced', report')) ∧
    Serialize.serialize reduced' = Serialize.serialize reduced

/-- A compile does not depend on the history when the order in which the classes
are met and the way they are spelled does not. -/
theorem independent_of_steady {find : EngineGraph → Nat → Nat} (saturates : EggSaturates find)
    {store : GraphStore} (interned : store.Interned) {program : List NodeKey}
    (topological : Topological program) (plain : ∀ key ∈ program, key.IsPlain) {outs : List NodeId}
    (inside : ∀ o ∈ outs, o < program.length) (mode : FusionMode)
    (steady : ∀ fresh later, Recording.record program (.start .new) = some fresh →
      Recording.record program (.start store) = some later → Steady program outs fresh later) :
    Independent (EggEngine.canonicalize find) mode store program outs := by
  obtain ⟨fresh, ran, stores⟩ := Recording.record_complete interned_new topological
  obtain ⟨later, ran', stores'⟩ := Recording.record_complete interned topological
  have requested := stores.outputs_inside inside
  have requested' := stores'.outputs_inside inside
  obtain ⟨one, one', reduces, reduces', nodes, outputs⟩ :=
    ((steady fresh later ran ran').matching stores stores' topological inside plain).reduceWithMode_eq
      saturates stores.interned.earlier stores'.interned.earlier requested requested'
      (stores.livePlain topological inside plain) (stores'.livePlain topological inside plain) mode
  obtain ⟨red, _, reduced, reduces₁, _, _, _, rebuilt, _⟩ :=
    reduceWithMode_rebuilds find stores.interned.earlier requested mode
  obtain ⟨red', _, reduced', reduces₂, _, _, _, rebuilt', _⟩ :=
    reduceWithMode_rebuilds find stores'.interned.earlier requested' mode
  obtain rfl := Option.some.inj (reduces.symm.trans reduces₁)
  obtain rfl := Option.some.inj (reduces'.symm.trans reduces₂)
  refine ⟨fresh, later, reduced, _, reduced', _, ran, ran',
    reduceWithOutputs_eq requested reduces rebuilt,
    reduceWithOutputs_eq requested' reduces' rebuilt', ?_⟩
  rw [fromReduced_store_eq nodes outputs rebuilt rebuilt']

/-- Compiling a program in a store is independent of what the store held before,
when recording the program there is steady: what was there decides neither the
order nor the orientation of its live nodes. -/
theorem compile_independent (find : EngineGraph → Nat → Nat) (saturates : EggSaturates find)
    (requests : List Request) (store : GraphStore)
    (produced : store ∈ (Session.run requests).stores) (program : List NodeKey)
    (topological : Topological program) (plain : ∀ key ∈ program, key.IsPlain) (outs : List NodeId)
    (inside : ∀ o ∈ outs, o < program.length) (mode : FusionMode)
    (steady : ∀ fresh later, Recording.record program (.start .new) = some fresh →
      Recording.record program (.start store) = some later → Steady program outs fresh later) :
    Independent (EggEngine.canonicalize find) mode store program outs :=
  independent_of_steady saturates ((Session.settled_run requests).stores store produced).interned
    topological plain inside mode steady

/-- The sum of two sources, as steps of a program. -/
def sumProgram : List NodeKey :=
  [.source "x" (.new []), .source "y" (.new []), .op "add" (.new []) [0, 1]]

/-- The recording of the sum in an empty store, where ids are steps. -/
def sumFresh : Recording where
  store := ⟨[.source "x" (.new []), .source "y" (.new []), .op "add" (.new []) [0, 1]],
    [(.op "add" (.new []) [0, 1], 2), (.source "y" (.new []), 1), (.source "x" (.new []), 0)], []⟩
  results := [0, 1, 2]

/-- The program, recorded into a new store. -/
theorem sumFresh_recorded : Recording.record sumProgram (.start .new) = some sumFresh := by
  decide +kernel

/-- The recording of the sum after an unrelated source, where all ids are
shifted. -/
def sumLater : Recording where
  store := ⟨[.source "z" (.new []), .source "x" (.new []), .source "y" (.new []),
      .op "add" (.new []) [1, 2]],
    [(.op "add" (.new []) [1, 2], 3), (.source "y" (.new []), 2), (.source "x" (.new []), 1),
      (.source "z" (.new []), 0)], []⟩
  results := [1, 2, 3]

/-- A store that holds an unrelated source, for a recording to follow. -/
def otherRequests : List Request :=
  [.newStore, .call 0 (.addSource "z" (.new [])) trivial]

/-- A sum, recorded beside what another session has left. -/
theorem compile_independent_of_sum :
    ∃ store ∈ (Session.run otherRequests).stores, store.nodes = [.source "z" (.new [])] ∧
      Independent (EggEngine.canonicalize saturatedFind) .singleUse store sumProgram [2] := by
  have topological : Topological sumProgram := by decide
  have inside : ∀ o ∈ [2], o < sumProgram.length := by decide
  have produced : (Session.run otherRequests).stores[0]? =
      some ⟨[.source "z" (.new [])], [(.source "z" (.new []), 0)], []⟩ := by decide +kernel
  have member := List.mem_of_getElem? produced
  refine ⟨_, member, rfl, compile_independent saturatedFind saturatedFind_saturates otherRequests _
    member sumProgram topological (by decide) [2] inside .singleUse ?_⟩
  intro fresh later ran ran'
  have interned := ((Session.settled_run otherRequests).stores _ member).interned
  obtain ⟨_, known, stores⟩ := Recording.record_complete interned_new topological
  obtain ⟨_, known', stores'⟩ := Recording.record_complete interned topological
  obtain rfl := Option.some.inj (ran.symm.trans known)
  obtain rfl := Option.some.inj (ran'.symm.trans known')
  obtain rfl : sumFresh = fresh := Option.some.inj (sumFresh_recorded.symm.trans ran)
  obtain rfl : sumLater = later :=
    Option.some.inj (Eq.trans (by decide +kernel : some sumLater = _) ran')
  refine steady_of_order stores stores' topological inside ?_ ?_
  · intro step other reached reached'
    have bound := reached.bound topological inside
    have bound' := reached'.bound topological inside
    have ordered : ∀ step < 3, ∀ other < 3,
      (sumFresh.id step < sumFresh.id other ↔ sumLater.id step < sumLater.id other) := by decide
    exact ordered step bound other bound'
  · intro step key key' reached lookup lookup' _
    have bound := reached.bound topological inside
    match step, bound with
    | 0, _ | 1, _ | 2, _ =>
      obtain rfl := Option.some.inj lookup
      obtain rfl := Option.some.inj lookup'
      rfl

/-- The recording of the sum after its second source, which turns the order of the
two. -/
def sumReordered : Recording where
  store := ⟨[.source "y" (.new []), .source "x" (.new []), .op "add" (.new []) [1, 0]],
    [(.op "add" (.new []) [1, 0], 2), (.source "x" (.new []), 1), (.source "y" (.new []), 0)], []⟩
  results := [1, 0, 2]

/-- When the second source was recorded first, the reduced store begins with it,
and its bytes are others. -/
theorem history_reorders :
    ¬ ∀ store ∈ (Session.run [.newStore, .call 0 (.addSource "y" (.new [])) trivial]).stores,
      Independent (EggEngine.canonicalize saturatedFind) .singleUse store sumProgram [2] := by
  intro claimed
  have produced : (Session.run [.newStore, .call 0 (.addSource "y" (.new [])) trivial]).stores[0]? =
      some ⟨[.source "y" (.new [])], [(.source "y" (.new []), 0)], []⟩ := by decide +kernel
  obtain ⟨fresh, later, reduced, report, reduced', report', ran, ran', reduces, reduces', bytes⟩ :=
    claimed _ (List.mem_of_getElem? produced)
  obtain rfl : sumFresh = fresh := Option.some.inj (sumFresh_recorded.symm.trans ran)
  obtain rfl : sumReordered = later :=
    Option.some.inj (Eq.trans (by decide +kernel : some sumReordered = _) ran')
  have plainly (store : GraphStore) := @reduceWithOutputs_of_different saturatedFind store [2] _
    saturatedFind_saturates
  have first := plainly sumFresh.store (by decide +kernel) (by decide) (by decide)
    (by decide +kernel) (by decide +kernel) .singleUse
  have second := plainly sumReordered.store (by decide +kernel) (by decide) (by decide)
    (by decide +kernel) (by decide +kernel) .singleUse
  have differ : (sumFresh.store.reduceWithOutputs [2] some .singleUse).map
        (fun answer => answer.toOption.map (fun result => Serialize.serialize result.1)) ≠
      (sumReordered.store.reduceWithOutputs [2] some .singleUse).map
        (fun answer => answer.toOption.map (fun result => Serialize.serialize result.1)) := by
    decide +kernel
  rw [← first, ← second, show [2] = sumFresh.outputs [2] from rfl, reduces,
    show sumFresh.outputs [2] = sumReordered.outputs [2] from rfl, reduces'] at differ
  exact differ (by simp [Except.toOption, bytes])

end GraphedCore
