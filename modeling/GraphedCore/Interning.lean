import GraphedCore.Store
import GraphedCore.Keys
import GraphedCore.Lib.Term

/-!
# The interning invariant

The arena and the intern table are two views of one finite map, every input id is
smaller than the id of its node, and the marked outputs are distinct ids of the
arena. Every call keeps this, so it holds however the calls of concurrent callers
are ordered: each call is one critical section.

In such a store two ids are equal exactly when the terms they unfold to are.
-/

namespace GraphedCore

namespace GraphStore

section Steps

variable {τ : Type}

/-- Everything one marking call can do: refuse an id, find it marked, or mark
it. -/
theorem markOutput_cases (store : GraphStore τ) (id : NodeId) :
    (store.nodes.length ≤ id ∧ store.markOutput id = (.error ⟨id⟩, store)) ∨
    id < store.nodes.length ∧
      ((id ∈ store.outputs ∧ store.markOutput id = (.ok (), store)) ∨
        (id ∉ store.outputs ∧
          store.markOutput id = (.ok (), { store with outputs := store.outputs ++ [id] }))) := by
  by_cases outside : store.nodes.length ≤ id
  · exact Or.inl ⟨outside, by simp [markOutput, outside]⟩
  · refine Or.inr ⟨Nat.lt_of_not_le outside, ?_⟩
    by_cases marked : id ∈ store.outputs
    · exact Or.inl ⟨marked, by simp [markOutput, outside, marked]⟩
    · exact Or.inr ⟨marked, by simp [markOutput, outside, marked]⟩

variable [Table.Keyed NodeKey NodeId τ]

/-- The store after appending an absent key. The table learns the key under the id
that it gets. -/
def push (store : GraphStore τ) (key : NodeKey) : GraphStore τ :=
  { store with
    nodes := store.nodes ++ [key]
    internTable := Table.Keyed.insert store.internTable key store.nodes.length }

/-- The id under which a key is interned, as the table of the store answers it. -/
def lookup (store : GraphStore τ) (key : NodeKey) : Option NodeId :=
  Table.Keyed.get? store.internTable key

/-- Everything one interning call can do: refuse an input id, find the key, or
append it. -/
theorem intern_cases (store : GraphStore τ) (key : NodeKey) :
    (∃ i ∈ key.inputs, store.nodes.length ≤ i ∧ store.intern key = (.error ⟨i⟩, store)) ∨
    (∀ i ∈ key.inputs, i < store.nodes.length) ∧
      ((∃ id, store.lookup key = some id ∧ store.intern key = (.ok id, store)) ∨
        (store.lookup key = none ∧
          store.intern key = (.ok store.nodes.length, store.push key))) := by
  cases bad : key.inputs.find? (fun i => decide (store.nodes.length ≤ i)) with
  | some i =>
    refine Or.inl ⟨i, List.mem_of_find?_eq_some bad, by simpa using List.find?_some bad, ?_⟩
    simp [intern, bad]
  | none =>
    have inside : ∀ i ∈ key.inputs, i < store.nodes.length := by
      simpa using List.find?_eq_none.mp bad
    refine Or.inr ⟨inside, ?_⟩
    cases found : store.lookup key with
    | some id =>
      refine Or.inl ⟨id, rfl, ?_⟩
      rw [lookup] at found
      simp [intern, bad, found]
    | none =>
      refine Or.inr ⟨rfl, ?_⟩
      rw [lookup] at found
      simp [intern, bad, found, push]

/-- An absent key is appended at the end of the arena. -/
@[simp] theorem push_nodes (store : GraphStore τ) (key : NodeKey) :
    (store.push key).nodes = store.nodes ++ [key] := rfl

/-- Appending a key marks nothing. -/
@[simp] theorem push_outputs (store : GraphStore τ) (key : NodeKey) :
    (store.push key).outputs = store.outputs := rfl

end Steps

/-- A list takes what is stored at its head, where the next lookup begins. -/
theorem push_internTable (store : GraphStore) (key : NodeKey) :
    (store.push key).internTable = (key, store.nodes.length) :: store.internTable := rfl

/-- A list is searched from its head, with the equality of keys. -/
theorem lookup_eq (store : GraphStore) (key : NodeKey) :
    store.lookup key = Table.get? NodeKey.eq store.internTable key := rfl

/-- The intern table is the inverse of the arena, inputs come earlier, and the
outputs are distinct ids of the arena. -/
structure Interned (store : GraphStore) : Prop where
  stored : ∀ key id, (key, id) ∈ store.internTable ↔ store.nodes[id]? = some key
  found : Table.Indexes NodeKey.eq store.internTable store.nodes
  earlier : Dag.Topological store.nodes
  inside : ∀ o ∈ store.outputs, o < store.nodes.length
  once : store.outputs.Nodup

/-- The later store keeps every node and every output in its place, and may have
more of both. -/
structure Extends (old new : GraphStore) : Prop where
  nodes : old.nodes <+: new.nodes
  outputs : old.outputs <+: new.outputs

/-- Every store extends itself. -/
theorem Extends.refl (store : GraphStore) : Extends store store :=
  ⟨List.prefix_refl _, List.prefix_refl _⟩

/-- Extensions compose. -/
theorem Extends.trans {a b c : GraphStore} (first : Extends a b) (second : Extends b c) :
    Extends a c :=
  ⟨first.nodes.trans second.nodes, first.outputs.trans second.outputs⟩

/-- An id keeps its node. -/
theorem Extends.lookup {old new : GraphStore} (grown : Extends old new) {i : NodeId}
    {key : NodeKey} (found : old.nodes[i]? = some key) : new.nodes[i]? = some key := by
  obtain ⟨more, appended⟩ := grown.nodes
  rw [← appended, List.getElem?_append_left (Dag.lookup_bound found), found]

/-- Appending a key moves nothing: ids and marks keep their meaning. -/
theorem extends_push (store : GraphStore) (key : NodeKey) : Extends store (store.push key) :=
  ⟨List.prefix_append _ _, List.prefix_refl _⟩

/-- The empty store is interned, since there is nothing in it. -/
theorem interned_new : Interned new where
  stored := fun _ _ => iff_of_false List.not_mem_nil (by simp [new])
  found := Table.indexes_nil
  earlier := Dag.topological_nil
  inside := by simp [new]
  once := List.nodup_nil

/-- Appending a key that is absent, over ids of the arena, keeps the store
interned. -/
theorem Interned.push {store : GraphStore} (interned : Interned store) {key : NodeKey}
    (inside : ∀ i ∈ key.inputs, i < store.nodes.length) (absent : store.lookup key = none) :
    Interned (store.push key) where
  stored := by
    intro other id
    rw [push_internTable, push_nodes, List.mem_cons, interned.stored, Dag.getElem?_snoc,
      Prod.mk.injEq]
    tauto
  found := interned.found.snoc NodeKey.compares absent
  earlier := (Dag.topological_snoc _ _).mpr ⟨interned.earlier, inside⟩
  inside := by
    intro o marked
    rw [push_nodes, List.length_append, List.length_singleton]
    exact Nat.lt_succ_of_lt (interned.inside o marked)
  once := interned.once

/-- Every interning call keeps the store interned, also one that is refused. -/
theorem Interned.intern {store : GraphStore} (interned : Interned store) (key : NodeKey) :
    Interned (store.intern key).2 := by
  rcases store.intern_cases key with ⟨_, _, _, refused⟩ | ⟨inside, ⟨_, _, hit⟩ | ⟨absent, miss⟩⟩
  · rwa [refused]
  · rwa [hit]
  · rw [miss]
    exact interned.push inside absent

/-- Every marking call keeps the store interned. Refused and repeated ones leave
it as it was. -/
theorem Interned.markOutput {store : GraphStore} (interned : Interned store) (id : NodeId) :
    Interned (store.markOutput id).2 := by
  rcases store.markOutput_cases id with ⟨_, refused⟩ | ⟨inside, ⟨_, again⟩ | ⟨fresh, marked⟩⟩
  · rwa [refused]
  · rwa [again]
  · rw [marked]
    exact {
      stored := interned.stored
      found := interned.found
      earlier := interned.earlier
      inside := by
        intro o member
        rcases List.mem_append.mp member with old | last
        · exact interned.inside o old
        · rwa [List.mem_singleton.mp last]
      once := by
        rw [List.nodup_append]
        refine ⟨interned.once, List.nodup_singleton id, ?_⟩
        intro o old other last
        rw [List.mem_singleton.mp last]
        rintro rfl
        exact fresh old }

/-- Interning moves nothing, whether it refuses, finds or appends. -/
theorem extends_intern (store : GraphStore) (key : NodeKey) : Extends store (store.intern key).2 := by
  rcases store.intern_cases key with ⟨_, _, _, refused⟩ | ⟨_, ⟨_, _, hit⟩ | ⟨_, miss⟩⟩
  · exact refused ▸ .refl store
  · exact hit ▸ .refl store
  · exact miss ▸ extends_push store key

/-- Marking moves nothing. -/
theorem extends_markOutput (store : GraphStore) (id : NodeId) :
    Extends store (store.markOutput id).2 := by
  rcases store.markOutput_cases id with ⟨_, refused⟩ | ⟨_, ⟨_, again⟩ | ⟨_, marked⟩⟩
  · exact refused ▸ .refl store
  · exact again ▸ .refl store
  · rw [marked]
    exact ⟨List.prefix_refl _, List.prefix_append _ _⟩

/-- Interning a key over ids of the arena answers the id of an equal key, and the
arena gains at most that id. -/
theorem Interned.granted {store : GraphStore} (interned : Interned store) {key : NodeKey}
    (inside : ∀ i ∈ key.inputs, i < store.nodes.length) :
    ∃ id after stored, store.intern key = (.ok id, after) ∧ Interned after ∧ Extends store after ∧
      after.nodes[id]? = some stored ∧ stored.operator = key.operator ∧
      stored.inputs = key.inputs ∧
      ∀ i < after.nodes.length, i < store.nodes.length ∨ i = id := by
  rcases store.intern_cases key with ⟨i, member, outside, _⟩ | ⟨_, ⟨id, hit, did⟩ | ⟨absent, did⟩⟩
  · exact absurd (inside i member) (Nat.not_lt_of_le outside)
  · obtain ⟨stored, present, equal⟩ := (interned.found key id).mp hit
    obtain ⟨operators, inputs⟩ := (NodeKey.canon_eq_iff _ _).mp ((NodeKey.eq_iff _ _).mp equal)
    exact ⟨id, store, stored, did, interned, .refl store, present, operators, inputs,
      fun i before => Or.inl before⟩
  · have last : (store.push key).nodes[store.nodes.length]? = some key := by simp
    refine ⟨store.nodes.length, store.push key, key, did, interned.push inside absent,
      extends_push store key, last, rfl, rfl, fun i before => ?_⟩
    simp only [push_nodes, List.length_append, List.length_singleton] at before
    exact Nat.lt_succ_iff_lt_or_eq.mp before

/-- No two ids hold equal keys, because the table answers one id for a key. -/
theorem Interned.injective {store : GraphStore} (interned : Interned store) {i j : NodeId}
    {key other : NodeKey} (first : store.nodes[i]? = some key)
    (second : store.nodes[j]? = some other) (equal : key.eq other = true) : i = j :=
  interned.found.injective first second equal NodeKey.compares.reflexive

/-- No two nodes of an interned store have the same operator over the same
inputs. -/
theorem Interned.distinct {store : GraphStore} (interned : Interned store) :
    Dag.Distinct NodeKey.operator store.nodes := by
  intro i j key other first second operators inputs
  refine interned.injective first second ?_
  exact (NodeKey.eq_iff key other).mpr ((NodeKey.canon_eq_iff key other).mpr ⟨operators, inputs⟩)

/-- Identity of ids is identity of the terms they unfold to. No two ids hold equal
keys, so the induction goes through the inputs. -/
theorem Interned.termAt_iff {store : GraphStore} (interned : Interned store) {i j : NodeId}
    (inside : i < store.nodes.length) (inside' : j < store.nodes.length) :
    Dag.termAt NodeKey.operator store.nodes i = Dag.termAt NodeKey.operator store.nodes j ↔
      i = j :=
  Dag.termAt_injective interned.earlier interned.distinct inside inside'

end GraphStore

/-! ## Runs of calls -/

/-- A call of the public interface that may change the store. `addKey` is not
exposed to Python; the decoder and the optimizer use it. -/
inductive Call where
  | addSource (name : String) (params : ParamMap)
  | addOp (name : String) (inputs : List NodeId) (params : ParamMap)
  | addReduction (name : String) (inputs : List NodeId) (params : ParamMap)
  | addExternal (descriptor : PayloadDescriptor) (inputs : List NodeId) (params : ParamMap)
  | addKey (key : NodeKey)
  | markOutput (id : NodeId)

namespace Call

/-- What a call answers: an id, nothing, or the id it refused. A call answers in
any case, for none of them panics. -/
inductive Answer where
  | node (id : NodeId)
  | marked
  | refused (bad : BadNodeId)
deriving DecidableEq

/-- What the caller sees of an interning call, beside the store it leaves. -/
def answerNode {τ : Type} : Except BadNodeId NodeId × GraphStore τ → Answer × GraphStore τ
  | (.ok id, store) => (.node id, store)
  | (.error bad, store) => (.refused bad, store)

/-- What the caller sees of a marking call, beside the store it leaves. -/
def answerMark {τ : Type} : Except BadNodeId Unit × GraphStore τ → Answer × GraphStore τ
  | (.ok (), store) => (.marked, store)
  | (.error bad, store) => (.refused bad, store)

/-- The call on a store, with what it answers. Refused calls are performed too and
leave the store as it was. -/
def perform {τ : Type} [Table.Keyed NodeKey NodeId τ] (store : GraphStore τ) :
    Call → Answer × GraphStore τ
  | .addSource name params => answerNode (store.addSource name params)
  | .addOp name inputs params => answerNode (store.addOp name inputs params)
  | .addReduction name inputs params => answerNode (store.addReduction name inputs params)
  | .addExternal d inputs params => answerNode (store.addExternal d inputs params)
  | .addKey key => answerNode (store.addKey key)
  | .markOutput id => answerMark (store.markOutput id)

/-- The key a call asks for. Marking asks for none. -/
def key? : Call → Option NodeKey
  | .addSource name params => some (.source name params)
  | .addOp name inputs params => some (.op name params inputs)
  | .addReduction name inputs params => some (.reduction name params inputs)
  | .addExternal d inputs params => some (.external d params inputs)
  | .addKey key => some key
  | .markOutput _ => none

/-- Every call interns the key it asks for, or marks an output. Facts about calls
follow from those about the two. -/
theorem perform_cases {τ : Type} [Table.Keyed NodeKey NodeId τ] (store : GraphStore τ)
    (call : Call) :
    (∃ key, call.key? = some key ∧ call.perform store = answerNode (store.intern key)) ∨
    (∃ id, call.key? = none ∧ call.perform store = answerMark (store.markOutput id)) := by
  cases call with
  | markOutput id => exact Or.inr ⟨id, rfl, rfl⟩
  | _ => exact Or.inl ⟨_, rfl, rfl⟩

/-- The keys of the calls that were granted an id, in call order. A key stands in
it as often as it was asked for and granted. -/
def granted (store : GraphStore) : List Call → List NodeKey
  | [] => []
  | call :: rest =>
    match call.key?, call.perform store with
    | some key, (.node _, store) => key :: granted store rest
    | _, (_, store) => granted store rest

/-- The store after a sequence of calls, refused ones included. -/
def run (store : GraphStore) (calls : List Call) : GraphStore :=
  calls.foldl (fun store call => (call.perform store).2) store

/-- Answering leaves the store as it is. -/
@[simp] theorem answerNode_store (result : Except BadNodeId NodeId × GraphStore) :
    (answerNode result).2 = result.2 := by
  obtain ⟨_ | _, _⟩ := result <;> rfl

/-- Answering leaves the store as it is. -/
@[simp] theorem answerMark_store (result : Except BadNodeId Unit × GraphStore) :
    (answerMark result).2 = result.2 := by
  obtain ⟨_ | _, _⟩ := result <;> rfl

/-- Every call keeps the store interned, the refused ones too. -/
theorem interned_perform {store : GraphStore} (interned : store.Interned) (call : Call) :
    (call.perform store).2.Interned := by
  rcases perform_cases store call with ⟨key, _, performed⟩ | ⟨id, _, performed⟩
  · rw [performed, answerNode_store]
    exact interned.intern key
  · rw [performed, answerMark_store]
    exact interned.markOutput id

/-- No call moves anything. Ids that were answered stay valid. -/
theorem extends_perform (store : GraphStore) (call : Call) :
    store.Extends (call.perform store).2 := by
  rcases perform_cases store call with ⟨key, _, performed⟩ | ⟨id, _, performed⟩
  · rw [performed, answerNode_store]
    exact store.extends_intern key
  · rw [performed, answerMark_store]
    exact store.extends_markOutput id

/-- A refused call leaves the store as it was. -/
theorem perform_refused {store after : GraphStore} {call : Call} {bad : BadNodeId}
    (refused : call.perform store = (.refused bad, after)) : after = store := by
  rcases perform_cases store call with ⟨key, _, performed⟩ | ⟨id, _, performed⟩
  · rw [performed] at refused
    rcases store.intern_cases key with ⟨_, _, _, did⟩ | ⟨_, ⟨_, _, did⟩ | ⟨_, did⟩⟩
    · rw [did] at refused
      exact (congrArg Prod.snd refused).symm
    all_goals
      rw [did] at refused
      cases congrArg Prod.fst refused
  · rw [performed] at refused
    rcases store.markOutput_cases id with ⟨_, did⟩ | ⟨_, ⟨_, did⟩ | ⟨_, did⟩⟩
    · rw [did] at refused
      exact (congrArg Prod.snd refused).symm
    all_goals
      rw [did] at refused
      cases congrArg Prod.fst refused

/-- A store stays interned, whatever is called, by induction on the calls. -/
theorem interned_run {store : GraphStore} (interned : store.Interned) (calls : List Call) :
    (run store calls).Interned := by
  induction calls generalizing store with
  | nil => exact interned
  | cons call rest ih => exact ih (interned_perform interned call)

/-- Nothing moves, whatever is called, by induction on the calls. -/
theorem extends_run (store : GraphStore) (calls : List Call) : store.Extends (run store calls) := by
  induction calls generalizing store with
  | nil => exact .refl store
  | cons call rest ih => exact (extends_perform store call).trans (ih _)

/-- One call: the arena holds, up to equality, what it held and the key that was
granted. -/
theorem mem_perform {store : GraphStore} (interned : store.Interned) (call : Call) (key : NodeKey) :
    key ∈ (call.perform store).2.nodes.map NodeKey.canon ↔
      key ∈ store.nodes.map NodeKey.canon ∨ key ∈ (granted store [call]).map NodeKey.canon := by
  rcases perform_cases store call with ⟨asked, asks, performed⟩ | ⟨id, asks, performed⟩
  · rcases store.intern_cases asked with ⟨_, _, _, did⟩ | ⟨_, ⟨id, hit, did⟩ | ⟨_, did⟩⟩
    · simp [granted, asks, performed, did, answerNode]
    · obtain ⟨stored, present, equal⟩ := (interned.found asked id).mp hit
      have member : asked.canon ∈ store.nodes.map NodeKey.canon := by
        rw [← (NodeKey.eq_iff stored asked).mp equal]
        exact List.mem_map_of_mem (List.mem_of_getElem? present)
      simp only [granted, asks, performed, did, answerNode, List.map_cons, List.map_nil,
        List.mem_singleton]
      exact ⟨Or.inl, fun either => either.elim (fun old => old) (fun same => same ▸ member)⟩
    · simp [granted, asks, performed, did, answerNode, GraphStore.push]
  · rcases store.markOutput_cases id with ⟨_, did⟩ | ⟨_, ⟨_, did⟩ | ⟨_, did⟩⟩ <;>
      simp [granted, asks, performed, did, answerMark]

/-- The keys of a run are those of the first call and those of the rest. -/
theorem granted_cons (store : GraphStore) (call : Call) (rest : List Call) :
    granted store (call :: rest) =
      granted store [call] ++ granted (call.perform store).2 rest := by
  simp only [granted]
  split <;> simp_all

/-- The keys of the arena are those that it had and those that were granted, up to
equality. -/
theorem mem_run {store : GraphStore} (interned : store.Interned) (calls : List Call)
    (key : NodeKey) :
    key ∈ (run store calls).nodes.map NodeKey.canon ↔
      key ∈ store.nodes.map NodeKey.canon ∨ key ∈ (granted store calls).map NodeKey.canon := by
  induction calls generalizing store with
  | nil => simp [run, granted]
  | cons call rest ih =>
    have later := ih (interned_perform interned call)
    rw [run, List.foldl_cons, ← run, later, mem_perform interned, granted_cons store call rest,
      List.map_append, List.mem_append, or_assoc]

/-- The arena holds no key twice, not even up to the bits of NaNs. -/
theorem nodup_canon {store : GraphStore} (interned : store.Interned) :
    (store.nodes.map NodeKey.canon).Nodup := by
  rw [List.nodup_iff_injective_getElem]
  intro ⟨i, inside⟩ ⟨j, inside'⟩ same
  simp only [List.length_map] at inside inside'
  simp only [List.getElem_map] at same
  exact Fin.ext (interned.injective (List.getElem?_eq_getElem inside)
    (List.getElem?_eq_getElem inside') ((NodeKey.eq_iff _ _).mpr same))

/-- As many nodes as distinct keys were granted. A key that is granted again adds
none. -/
theorem nodeCount_run (calls : List Call) :
    (run .new calls).nodeCount = ((granted .new calls).map NodeKey.canon).dedup.length := by
  have unique := nodup_canon (interned_run GraphStore.interned_new calls)
  have same : ((run .new calls).nodes.map NodeKey.canon).Perm
      ((granted .new calls).map NodeKey.canon).dedup := by
    rw [List.perm_ext_iff_of_nodup unique (List.nodup_dedup _)]
    intro key
    rw [mem_run GraphStore.interned_new, List.mem_dedup]
    simp [GraphStore.new]
  simpa [GraphStore.nodeCount] using same.length_eq

/-- After any sequence of calls, refused ones included: the intern table is the
inverse of the arena, inputs come earlier, outputs are distinct ids, no two ids
hold equal keys, later calls only append, a refused call changes nothing, ids are
equal exactly when their terms are, and there are as many nodes as distinct keys
were granted. -/
theorem interning_invariant (calls : List Call) :
    (run .new calls).Interned ∧
    (∀ (i j : NodeId) (key other : NodeKey), (run .new calls).nodes[i]? = some key →
      (run .new calls).nodes[j]? = some other → key.eq other = true → i = j) ∧
    (∀ later, (run .new calls).Extends (run .new (calls ++ later))) ∧
    (∀ (call : Call) (bad : BadNodeId) (after : GraphStore),
      call.perform (run .new calls) = (.refused bad, after) → after = run .new calls) ∧
    (∀ i j, i < (run .new calls).nodeCount → j < (run .new calls).nodeCount →
      (Dag.termAt NodeKey.operator (run .new calls).nodes i =
        Dag.termAt NodeKey.operator (run .new calls).nodes j ↔ i = j)) ∧
    (run .new calls).nodeCount = ((granted .new calls).map NodeKey.canon).dedup.length := by
  have interned := interned_run GraphStore.interned_new calls
  refine ⟨interned, ?_, ?_, ?_, ?_, nodeCount_run calls⟩
  · intro i j key other first second equal
    exact interned.injective first second equal
  · intro later
    have split : run .new (calls ++ later) = run (run .new calls) later := List.foldl_append
    exact split ▸ extends_run _ later
  · intro call bad after refused
    exact perform_refused refused
  · intro i j inside inside'
    exact interned.termAt_iff inside inside'

end Call

end GraphedCore
