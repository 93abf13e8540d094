import GraphedCore.FixedPoint
import GraphedCore.Hashing
import GraphedCore.Interning
import GraphedCore.Lib.Machine

/-!
# Tables that are searched by hash

A hash map compares a key only with the keys that fell into one bucket with it, and which do is
a matter of the hasher. Equal keys feed it the same bytes, so they are never looked for in
different buckets. The store and the reducer ask their table for nothing but what it answers, so
over any two tables that keep the law of a search they answer alike; and whatever the hasher
makes of the bytes, interning and stepping over hash maps answers as over tables that are
searched from end to end.
-/

namespace GraphedCore

open Table

/-! ## Keys under a hasher -/

/-- A key in a map whose hasher was seeded in some way. The seed is part of the
type, so the equality of keys stays theirs. -/
structure HashedKey (hasher : List UInt8 → UInt64) where
  key : NodeKey

section Hashed

variable {hasher : List UInt8 → UInt64}

instance : BEq (HashedKey hasher) := ⟨fun a b => a.key.eq b.key⟩

instance : Hashable (HashedKey hasher) := ⟨fun a => hasher a.key.hash⟩

/-- Keys under a hasher are equal as the keys are, whatever the hasher makes of
them. -/
theorem HashedKey.beq_iff (a b : HashedKey hasher) :
    (a == b) = true ↔ a.key.canon = b.key.canon := NodeKey.eq_iff a.key b.key

instance : EquivBEq (HashedKey hasher) where
  rfl := (HashedKey.beq_iff _ _).mpr rfl
  symm same := (HashedKey.beq_iff _ _).mpr ((HashedKey.beq_iff _ _).mp same).symm
  trans first second := (HashedKey.beq_iff _ _).mpr
    (((HashedKey.beq_iff _ _).mp first).trans ((HashedKey.beq_iff _ _).mp second))

/-- Equal keys feed the hasher the same bytes, and so fall into one bucket. -/
instance : LawfulHashable (HashedKey hasher) where
  hash_eq _ _ same := congrArg hasher (NodeKey.hash_congr same)

/-- The table of a store or of a reducer that is a hash map, as in the source. -/
abbrev KeyTable (hasher : List UInt8 → UInt64) := Std.HashMap (HashedKey hasher) NodeId

instance : Keyed NodeKey NodeId (KeyTable hasher) :=
  ⟨∅, fun table key => table[(⟨key⟩ : HashedKey hasher)]?, fun table key id =>
    table.insert ⟨key⟩ id⟩

/-- A hash map keeps the law of a search with the equality of keys. -/
instance : LawfulKeyed (KeyTable hasher) NodeKey.eq where
  get?_empty _ := Std.HashMap.getElem?_empty
  get?_insert _ _ _ _ := Std.HashMap.getElem?_insert

end Hashed

variable {τ τ' : Type} [Keyed NodeKey NodeId τ] [Keyed NodeKey NodeId τ']
  [LawfulKeyed τ NodeKey.eq] [LawfulKeyed τ' NodeKey.eq]

/-! ## The store -/

namespace GraphStore

/-- The same arena and marks, beside tables that answer alike whatever their
kind. -/
structure Alike (store : GraphStore τ) (store' : GraphStore τ') : Prop where
  nodes : store.nodes = store'.nodes
  outputs : store.outputs = store'.outputs
  agree : Keyed.Agree store.internTable store'.internTable

variable {store : GraphStore τ} {store' : GraphStore τ'}

/-- A key is refused, found or appended by both stores, and gets the same id. Only
the lookup asks the tables. -/
theorem Alike.intern (alike : Alike store store') (key : NodeKey) :
    (store.intern key).1 = (store'.intern key).1 ∧
      Alike (store.intern key).2 (store'.intern key).2 := by
  rw [GraphStore.intern, GraphStore.intern, alike.nodes, alike.agree key]
  cases key.inputs.find? (fun i => decide (store'.nodes.length ≤ i)) with
  | some i => exact ⟨rfl, alike⟩
  | none =>
    cases Keyed.get? store'.internTable key with
    | some id => exact ⟨rfl, alike⟩
    | none => exact ⟨rfl, rfl, alike.outputs, alike.agree.insert key _⟩

omit [LawfulKeyed τ NodeKey.eq] [LawfulKeyed τ' NodeKey.eq] in
/-- Marking does not look at the table, so both stores refuse or mark the same. -/
theorem Alike.markOutput (alike : Alike store store') (id : NodeId) :
    (store.markOutput id).1 = (store'.markOutput id).1 ∧
      Alike (store.markOutput id).2 (store'.markOutput id).2 := by
  rw [GraphStore.markOutput, GraphStore.markOutput, alike.nodes, alike.outputs]
  split_ifs
  · exact ⟨rfl, alike⟩
  · exact ⟨rfl, alike⟩
  · exact ⟨rfl, rfl, rfl, alike.agree⟩

omit [LawfulKeyed τ NodeKey.eq] [LawfulKeyed τ' NodeKey.eq] in
/-- What a call answers is read off the result of the store, and the store is
kept. -/
theorem answerNode_alike {result : Except BadNodeId NodeId × GraphStore τ}
    {result' : Except BadNodeId NodeId × GraphStore τ'}
    (both : result.1 = result'.1 ∧ Alike result.2 result'.2) :
    (Call.answerNode result).1 = (Call.answerNode result').1 ∧
      Alike (Call.answerNode result).2 (Call.answerNode result').2 := by
  obtain ⟨first, after⟩ := result
  obtain ⟨second, after'⟩ := result'
  obtain ⟨rfl, later⟩ := both
  cases first with
  | error bad => exact ⟨rfl, later⟩
  | ok id => exact ⟨rfl, later⟩

omit [LawfulKeyed τ NodeKey.eq] [LawfulKeyed τ' NodeKey.eq] in
/-- What marking answers is read off its result in the same way for both
stores. -/
theorem answerMark_alike {result : Except BadNodeId Unit × GraphStore τ}
    {result' : Except BadNodeId Unit × GraphStore τ'}
    (both : result.1 = result'.1 ∧ Alike result.2 result'.2) :
    (Call.answerMark result).1 = (Call.answerMark result').1 ∧
      Alike (Call.answerMark result).2 (Call.answerMark result').2 := by
  obtain ⟨first, after⟩ := result
  obtain ⟨second, after'⟩ := result'
  obtain ⟨rfl, later⟩ := both
  cases first with
  | error bad => exact ⟨rfl, later⟩
  | ok _ => exact ⟨rfl, later⟩

/-- Every call is answered alike, and leaves stores that are alike. It is the step
of the induction over a run. -/
theorem Alike.perform (alike : Alike store store') (call : Call) :
    (call.perform store).1 = (call.perform store').1 ∧
      Alike (call.perform store).2 (call.perform store').2 := by
  cases call with
  | markOutput id => exact answerMark_alike (alike.markOutput id)
  | addSource name params => exact answerNode_alike (alike.intern (.source name params))
  | addOp name inputs params => exact answerNode_alike (alike.intern (.op name params inputs))
  | addReduction name inputs params =>
    exact answerNode_alike (alike.intern (.reduction name params inputs))
  | addExternal descriptor inputs params =>
    exact answerNode_alike (alike.intern (.external descriptor params inputs))
  | addKey key => exact answerNode_alike (alike.intern key)

end GraphStore

/-! ## The reducer -/

namespace IncrementalReducer

/-- The same canonical arena and map, beside tables that answer alike whatever
their kind. -/
structure Alike (reducer : IncrementalReducer τ) (reducer' : IncrementalReducer τ') : Prop where
  nodes : reducer.canonNodes = reducer'.canonNodes
  map : reducer.map = reducer'.map
  work : reducer.totalWork = reducer'.totalWork
  agree : Keyed.Agree reducer.canonTable reducer'.canonTable

/-- Both panic, or both answer the same and are alike afterwards. -/
def AlikeAfter {α : Type} (result : Option (α × IncrementalReducer τ))
    (result' : Option (α × IncrementalReducer τ')) : Prop :=
  Option.Rel (fun after after' => after.1 = after'.1 ∧ Alike after.2 after'.2) result result'

variable {reducer : IncrementalReducer τ} {reducer' : IncrementalReducer τ'}

/-- A key is found or appended by both reducers, under the same canonical id. -/
theorem Alike.hashCons (alike : Alike reducer reducer') (key : NodeKey) :
    AlikeAfter (some (reducer.hashCons key)) (some (reducer'.hashCons key)) := by
  have same : reducer.lookup key = reducer'.lookup key := alike.agree key
  cases found : reducer'.lookup key with
  | some id =>
    rw [hashCons_hit found, hashCons_hit (same.trans found)]
    exact .some ⟨rfl, alike⟩
  | none =>
    rw [hashCons_miss found, hashCons_miss (same.trans found)]
    refine .some ⟨congrArg List.length alike.nodes, ?_, alike.map, alike.work, ?_⟩
    · rw [push, push, alike.nodes]
    · rw [push, push, alike.nodes]
      exact alike.agree.insert key _

omit [LawfulKeyed τ NodeKey.eq] [LawfulKeyed τ' NodeKey.eq] in
/-- Both orientations of a symmetric op are found alike, and in the same order of
looking. -/
theorem Alike.findSymmetric (alike : Alike reducer reducer') (key : NodeKey) (a b : NodeId) :
    reducer.findSymmetric key a b = reducer'.findSymmetric key a b := by
  have same (key : NodeKey) : reducer.lookup key = reducer'.lookup key := alike.agree key
  rw [findSymmetric_eq, findSymmetric_eq, same, same]

/-- Every kind of key is canonicalized alike. The cases are those of the
program. -/
theorem Alike.canonicalize (alike : Alike reducer reducer') (key : NodeKey) :
    AlikeAfter (reducer.canonicalize key) (reducer'.canonicalize key) := by
  have stored := alike.hashCons key
  cases key with
  | op name params inputs =>
    rcases inputs with _ | ⟨a, _ | ⟨b, _ | ⟨c, more⟩⟩⟩ <;>
      simp only [IncrementalReducer.canonicalize]
    case nil =>
      split_ifs
      · exact .none
      · exact stored
    case cons.cons.nil =>
      split_ifs
      · exact .some ⟨rfl, alike⟩
      · rw [alike.findSymmetric]
        cases reducer'.findSymmetric (NodeKey.op name params [a, b]) a b with
        | none => exact stored
        | some id => exact .some ⟨rfl, alike⟩
      · exact stored
    all_goals
      split_ifs
      · exact .some ⟨rfl, alike⟩
      · exact stored
  | _ => exact stored

/-- The loop of a step, by induction on the delta. A refused node or a panic stops
both loops at one node. -/
theorem Alike.consume (alike : Alike reducer reducer') (delta : List NodeKey) :
    AlikeAfter (consume delta reducer) (consume delta reducer') := by
  induction delta generalizing reducer reducer' with
  | nil => exact .some ⟨rfl, alike⟩
  | cons key rest ih =>
    rw [IncrementalReducer.consume, IncrementalReducer.consume, alike.map]
    cases translate reducer'.map key.inputs with
    | error bad => exact .some ⟨rfl, alike⟩
    | ok inputs =>
      have canonical := alike.canonicalize (key.withInputs inputs)
      dsimp only
      generalize reducer.canonicalize (key.withInputs inputs) = after at canonical ⊢
      generalize reducer'.canonicalize (key.withInputs inputs) = after' at canonical ⊢
      cases canonical with
      | none =>
        exact .none
      | @some after after' both =>
        obtain ⟨same, later⟩ := both
        have grown : after.2.map ++ [after.1] = after'.2.map ++ [after'.1] := by
          rw [later.map, same]
        exact ih ⟨later.nodes, grown, later.work, later.agree⟩

/-- A delta is consumed, refused or panics on alike, and the work counts the
same. -/
theorem Alike.step (alike : Alike reducer reducer') (delta : List NodeKey) :
    AlikeAfter (reducer.step delta) (reducer'.step delta) := by
  have consumed := alike.consume delta
  rw [IncrementalReducer.step, IncrementalReducer.step]
  generalize IncrementalReducer.consume delta reducer = after at consumed ⊢
  generalize IncrementalReducer.consume delta reducer' = after' at consumed ⊢
  cases consumed with
  | none =>
    simp only [Option.bind_eq_bind, Option.bind_none]
    exact .none
  | @some first second both =>
    obtain ⟨result, last⟩ := first
    obtain ⟨result', last'⟩ := second
    obtain ⟨rfl, later⟩ := both
    cases result with
    | error bad => exact .some ⟨rfl, later⟩
    | ok _ => exact .some ⟨rfl, later.nodes, later.map, by rw [later.work], later.agree⟩

omit [LawfulKeyed τ NodeKey.eq] [LawfulKeyed τ' NodeKey.eq] in
/-- Finalizing does not look at the table: it reduces the canonical arena. -/
theorem Alike.finalize (alike : Alike reducer reducer') (outputs : List NodeId)
    (engine : RewriteEngine) (mode : FusionMode) :
    reducer.finalize outputs engine mode = reducer'.finalize outputs engine mode := by
  rw [IncrementalReducer.finalize, IncrementalReducer.finalize, alike.map, alike.nodes]

/-! ## Runs -/

/-- Step a reducer behind its mutex, which a panic leaves without one. Later steps
find nothing to step. -/
def stepOnce (guarded : Option (IncrementalReducer τ)) (delta : List NodeKey) :
    Option (Except BadNodeId Nat) × Option (IncrementalReducer τ) :=
  match guarded.bind (fun reducer => reducer.step delta) with
  | some (answer, reducer) => (some answer, some reducer)
  | none => (none, none)

/-- Guarded reducers that are alike answer a delta alike, and stay so. A panic
takes both of them. -/
theorem stepOnce_alike {guarded : Option (IncrementalReducer τ)}
    {guarded' : Option (IncrementalReducer τ')} (alike : Option.Rel Alike guarded guarded')
    (delta : List NodeKey) :
    (stepOnce guarded delta).1 = (stepOnce guarded' delta).1 ∧
      Option.Rel Alike (stepOnce guarded delta).2 (stepOnce guarded' delta).2 := by
  cases alike with
  | none => exact ⟨rfl, .none⟩
  | @some reducer reducer' alike =>
    have stepped := alike.step delta
    rw [stepOnce, stepOnce, Option.bind_some, Option.bind_some]
    generalize reducer.step delta = after at stepped ⊢
    generalize reducer'.step delta = after' at stepped ⊢
    cases stepped with
    | none => exact ⟨rfl, .none⟩
    | some both => exact ⟨congrArg some both.1, .some both.2⟩

end IncrementalReducer

/-- Whatever a hasher makes of the bytes it is fed, a store and a reducer that
look keys up by hash answer every run of calls and deltas as those that search do,
hold the same nodes, and finalize the same. So nothing depends on the seed of a
map, and the lists of the model stand for the maps of the source. -/
theorem hashed_runs (hasher : List UInt8 → UInt64) (calls : List Call)
    (deltas : List (List NodeKey)) :
    (Machine.transcript Call.perform (.new : GraphStore (KeyTable hasher)) calls).1 =
        (Machine.transcript Call.perform (.new : GraphStore) calls).1 ∧
      (Machine.transcript Call.perform (.new : GraphStore (KeyTable hasher)) calls).2.nodes =
        (Call.run .new calls).nodes ∧
      (Machine.transcript Call.perform (.new : GraphStore (KeyTable hasher)) calls).2.outputs =
        (Call.run .new calls).outputs ∧
      (Machine.transcript IncrementalReducer.stepOnce
          (some (.new : IncrementalReducer (KeyTable hasher))) deltas).1 =
        (Machine.transcript IncrementalReducer.stepOnce
          (some (.new : IncrementalReducer)) deltas).1 ∧
      (Machine.transcript IncrementalReducer.stepOnce
          (some (.new : IncrementalReducer (KeyTable hasher))) deltas).2.map
            (fun reducer => (reducer.canonNodes, reducer.map, reducer.totalWork)) =
        (Machine.transcript IncrementalReducer.stepOnce
          (some (.new : IncrementalReducer)) deltas).2.map
            (fun reducer => (reducer.canonNodes, reducer.map, reducer.totalWork)) ∧
      (Machine.transcript IncrementalReducer.stepOnce
          (some (.new : IncrementalReducer (KeyTable hasher))) deltas).2.map
            IncrementalReducer.finalize =
        (Machine.transcript IncrementalReducer.stepOnce
          (some (.new : IncrementalReducer)) deltas).2.map IncrementalReducer.finalize := by
  have fresh : GraphStore.Alike (.new : GraphStore (KeyTable hasher)) (.new : GraphStore) :=
    ⟨rfl, rfl, Keyed.agree_empty⟩
  have idle : Option.Rel IncrementalReducer.Alike
      (some (.new : IncrementalReducer (KeyTable hasher))) (some (.new : IncrementalReducer)) :=
    .some ⟨rfl, rfl, rfl, Keyed.agree_empty⟩
  obtain ⟨answers, alike⟩ := Machine.transcript_lockstep Call.perform Call.perform
    (fun _ _ call alike => alike.perform call) calls fresh
  obtain ⟨steps, last⟩ := Machine.transcript_lockstep IncrementalReducer.stepOnce
    IncrementalReducer.stepOnce
    (fun _ _ delta alike => IncrementalReducer.stepOnce_alike alike delta) deltas idle
  have ran : (Machine.transcript Call.perform (.new : GraphStore) calls).2 = Call.run .new calls :=
    Machine.transcript_state (fun _ _ => rfl) calls
  rw [ran] at alike
  refine ⟨answers, alike.nodes, alike.outputs, steps, ?_⟩
  generalize (Machine.transcript _ _ deltas).2 = hashed at last ⊢
  generalize (Machine.transcript _ _ deltas).2 = searched at last ⊢
  cases last with
  | none => exact ⟨rfl, rfl⟩
  | some alike =>
    refine ⟨?_, ?_⟩
    · rw [Option.map_some, Option.map_some, alike.nodes, alike.map, alike.work]
    · rw [Option.map_some, Option.map_some, Option.some.injEq]
      funext outputs engine mode
      exact alike.finalize outputs engine mode

end GraphedCore
