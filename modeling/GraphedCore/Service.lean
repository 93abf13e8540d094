import GraphedCore.Drawing
import GraphedCore.Identity
import GraphedCore.Refusals
import GraphedCore.Reserving
import GraphedCore.Lib.Machine

/-!
# Answers of a session

Stores and reducers are asked by position. A request changes the session as before, and here it
is answered as well, with an error, with a panic or with its result; a query is answered and
changes nothing. A mutex that was poisoned panics whoever locks it. A blob that announces
more than the machine has room for aborts the process, which answers nothing from then on.

A session in which no op with an identity token was ever without an input never panics, and
it is never aborted while the machine has the room that its blobs announce.
-/

namespace GraphedCore

open Dag Wired StageFusion

namespace Service

/-- What is read of a store or of a reducer. A report reduces, but what it makes
is dropped. -/
inductive Query where
  | nodeCount (store : Nat)
  | outputs (store : Nat)
  | nodes (store : Nat)
  | toDot (store : Nat)
  | serialize (store : Nat) (outputs : Option (List NodeId))
  | reductionReport (store : Nat) (outputs : Option (List NodeId)) (find : EngineGraph → Nat → Nat)
  | watermark (reducer : Nat)
  | totalWork (reducer : Nat)
  | canonicalCount (reducer : Nat)

/-- A request, which may change the session, or a query, which does not. -/
inductive Demand where
  | act (request : Request)
  | ask (query : Query)

/-- A store or a reducer that was made is told by its position. An aborted process
is gone, and what would be answered after that is nobody's to hear. -/
inductive Response where
  | made (position : Nat)
  | answered (answer : Call.Answer)
  | reduced (position : Nat) (report : ReductionReport)
  | number (n : Nat)
  | ids (ids : List NodeId)
  | views (views : List NodeView)
  | text (text : String)
  | bytes (data : List UInt8)
  | report (report : ReductionReport)
  | refused (bad : BadNodeId)
  | raised (e : PyErr)
  | undecodable (e : Serialize.DecodeError)
  | panicked
  | aborted
  | absent

/-- Whether the machine has the room that is reserved, one reservation after
another. -/
abbrev Memory := List Serialize.Reservation → Bool

/-! ## Responses -/

/-- Answer from the store at a position. A position without a store has no object
to ask. -/
def withStore (session : Session) (s : Nat) (answer : GraphStore → Response) : Response :=
  match session.stores[s]? with
  | some store => answer store
  | none => .absent

/-- Answer from the reducer at a position, whose mutex is locked. A poisoned mutex
panics whoever locks it. -/
def withReducer (session : Session) (r : Nat) (answer : IncrementalReducer → Response) : Response :=
  match session.reducers[r]? with
  | some (some reducer) => answer reducer
  | some none => .panicked
  | none => .absent

/-- The first id that the store lacks, which is the one that is named in the
error. -/
def firstBad (store : GraphStore) (outs : List NodeId) : Option NodeId :=
  outs.find? (fun o => decide (store.nodeCount ≤ o))

/-- What a reduction answers: what is made of the result, the refused output, or a
panic. -/
def reduce (store : GraphStore) (outputs : Option (List NodeId)) (mode : FusionMode)
    (engine : RewriteEngine) (answer : GraphStore × ReductionReport → Response) : Response :=
  match outputs with
  | some outs =>
    match store.reduceWithOutputs outs engine mode with
    | some (.ok result) => answer result
    | some (.error bad) => .refused bad
    | none => .panicked
  | none =>
    match store.reduceWith engine mode with
    | some result => answer result
    | none => .panicked

/-- What writing a store answers. Unknown outputs are refused before a byte is
written. -/
def serialize (store : GraphStore) (outputs : Option (List NodeId)) : Response :=
  match outputs with
  | none => .bytes (Serialize.serialize store)
  | some outs =>
    match firstBad store outs with
    | some bad => .refused ⟨bad⟩
    | none => .bytes (Serialize.serializeWith store outs)

/-- What a step answers: how many nodes it consumed, the refused input, or a
panic. -/
def step (reducer : IncrementalReducer) (store : GraphStore) : Response :=
  match Session.step reducer store with
  | some (.ok n, _) => .number n
  | some (.error bad, _) => .refused bad
  | none => .panicked

/-- What finalizing answers. The outputs are checked before the mutex is locked,
and the step comes first after it. -/
def finalize (session : Session) (r : Nat) (store : GraphStore) (outputs : Option (List NodeId))
    (mode : FusionMode) (engine : RewriteEngine) : Response :=
  match outputs.bind (firstBad store) with
  | some bad => .refused ⟨bad⟩
  | none => withReducer session r fun reducer =>
    match Session.step reducer store with
    | none => .panicked
    | some (.error bad, _) => .refused bad
    | some (.ok _, reducer) =>
      match reducer.finalize (outputs.getD store.outputs) engine mode with
      | none => .panicked
      | some (.error bad) => .refused bad
      | some (.ok red) =>
        match GraphStore.fromReduced red with
        | none => .panicked
        | some (_, report) => .reduced session.stores.length report

/-- The answer of a process that gets the room it reserves. Every method of the
bindings has its case. -/
def respond (session : Session) : Request → Response
  | .newStore => .made session.stores.length
  | .newReducer => .made session.reducers.length
  | .call s call _ => withStore session s fun store => .answered (call.perform store).1
  | .reduce s outputs mode find => withStore session s fun store =>
      reduce store outputs mode (EggEngine.canonicalize find)
        fun result => .reduced session.stores.length result.2
  | .step r s => withStore session s fun store => withReducer session r fun reducer =>
      step reducer store
  | .finalize r s outputs mode find => withStore session s fun store =>
      finalize session r store outputs mode (EggEngine.canonicalize find)
  | .deserialize data =>
    match Serialize.deserialize data with
    | .ok _ => .made session.stores.length
    | .error e => .undecodable e

/-- What a query answers. The session is only looked at. -/
def read (formats : Formats) (session : Session) : Query → Response
  | .nodeCount s => withStore session s fun store => .number store.nodeCount
  | .outputs s => withStore session s fun store => .ids store.outputs
  | .nodes s => withStore session s fun store =>
      match PyGraphStore.nodes store with
      | .ok views => .views views
      | .error e => .raised e
  | .toDot s => withStore session s fun store => .text (store.toDot formats)
  | .serialize s outputs => withStore session s fun store => serialize store outputs
  | .reductionReport s outputs find => withStore session s fun store =>
      reduce store outputs .singleUse (EggEngine.canonicalize find) fun result => .report result.2
  | .watermark r => withReducer session r fun reducer => .number reducer.watermark
  | .totalWork r => withReducer session r fun reducer => .number reducer.totalWork
  | .canonicalCount r => withReducer session r fun reducer => .number reducer.canonicalCount

/-- Whether the machine has the room that a request reserves ahead. Only decoding
does that. -/
def affords (memory : Memory) : Request → Bool
  | .deserialize data => memory (Serialize.reservations data)
  | _ => true

/-- Answer a demand. Only a request changes the session, and one for which there
is no room takes the process down. -/
def serve (memory : Memory) (formats : Formats) (session : Session) : Demand → Response × Session
  | .act request =>
    if affords memory request then (respond session request, session.perform request)
    else (.aborted, session)
  | .ask query => (read formats session query, session)

/-! ## Stepping through a store -/

section Stepping

open IncrementalReducer

variable {reducer next : IncrementalReducer} {store : GraphStore} {delta : List NodeKey}

/-- An identity op that waits without an input ends the step, when nothing is
refused before. -/
theorem consume_none_iff (mapped : Mapped reducer.watermark delta) :
    consume delta reducer = none ↔ ¬ FedIdentities delta := by
  constructor
  · intro panics fed
    obtain ⟨answer, done⟩ := consume_total fed reducer
    rw [panics] at done
    cases done
  · intro unfed
    induction delta generalizing reducer with
    | nil => exact absurd (fun key none => absurd none List.not_mem_nil) unfed
    | cons key rest ih =>
      have inside : ∀ x ∈ key.inputs, x < reducer.map.length := mapped 0 key rfl
      rcases translate_cases reducer.map key.inputs with
        ⟨_, found, translated, length⟩ | ⟨bad, _, member, beyond⟩
      · cases canonical : reducer.canonicalize (key.withInputs found) with
        | none => simp only [consume, translated, canonical, Option.bind_eq_bind, Option.bind_none]
        | some answer =>
          obtain ⟨id, middle⟩ := answer
          simp only [consume, translated, canonical, Option.bind_eq_bind, Option.bind_some]
          have grown : IncrementalReducer.watermark { middle with map := middle.map ++ [id] } =
              reducer.watermark + 1 := by
            rw [IncrementalReducer.watermark, List.length_append, canonicalize_map canonical]
            rfl
          refine ih (fun j other lookup x read => ?_) (fun fed => unfed ?_)
          · rw [grown, Nat.add_assoc, Nat.add_comm 1]
            exact mapped (j + 1) other lookup x read
          · refine List.forall_mem_cons.mpr ⟨fun identity unfed => ?_, fed⟩
            have identity' := (key.identityOperator_withInputs found).mpr identity
            rw [unfed, List.length_nil, List.length_eq_zero_iff] at length
            rw [canonicalize_first reducer identity', NodeKey.identity_inputs identity,
              length] at canonical
            cases canonical
      · exact absurd (inside bad.id member) (Nat.not_lt_of_ge beyond)

/-- What a store recorded after the watermark is mapped when its turn comes. -/
theorem mapped_snapshot (interned : store.Interned) (watermark : Nat) :
    Mapped watermark (store.snapshotFrom watermark) := by
  intro k key lookup x read
  rw [GraphStore.snapshotFrom, List.getElem?_drop] at lookup
  have later := interned.earlier _ key lookup x read
  have start := Nat.min_le_left watermark store.nodes.length
  omega

/-- A step panics exactly when an identity op of its delta is without inputs. -/
theorem step_none_iff (interned : store.Interned) : Session.step reducer store = none ↔
    ¬ FedIdentities (store.snapshotFrom reducer.watermark) := by
  rw [← consume_none_iff (mapped_snapshot interned reducer.watermark), Session.step,
    IncrementalReducer.step]
  cases consume (store.snapshotFrom reducer.watermark) reducer with
  | none => exact iff_of_true rfl rfl
  | some answer =>
    obtain ⟨result, final⟩ := answer
    cases result <;> exact iff_of_false (Option.some_ne_none _) (Option.some_ne_none _)

/-- In a session a step is never refused, and consumes the store to its end. -/
theorem step_whole (interned : store.Interned) {result : Except BadNodeId Nat}
    (done : Session.step reducer store = some (result, next)) :
    result = .ok (store.snapshotFrom reducer.watermark).length ∧
      store.nodes.length ≤ next.watermark := by
  obtain ⟨k, _, watermark, _, ⟨rfl, all, _⟩ | ⟨bad, key, _, _, _, lookup, member, beyond⟩⟩ :=
    step_until done
  · refine ⟨rfl, ?_⟩
    rw [watermark, all, GraphStore.snapshotFrom, List.length_drop]
    omega
  · exact absurd (mapped_snapshot interned _ k key lookup bad.id member) (Nat.not_lt_of_ge beyond)

/-- Finalizing what a store was consumed into succeeds: the outputs are mapped,
the reduction runs through, and interning merges nothing that it should not. -/
theorem finalize_complete (settled : next.Settled) (covered : store.nodes.length ≤ next.watermark)
    {outs : List NodeId} (inside : ∀ o ∈ outs, o < store.nodes.length)
    (find : EngineGraph → Nat → Nat) (mode : FusionMode) :
    ∃ red reduced, next.finalize outs (EggEngine.canonicalize find) mode = some (.ok red) ∧
      GraphStore.fromReduced red = some reduced := by
  rcases translate_cases next.map outs with ⟨_, found, translated, _⟩ | ⟨bad, _, member, beyond⟩
  · have requested : ∀ o ∈ found, o < next.canonNodes.length :=
      fun o member => settled.map o (translate_mem translated o member)
    obtain ⟨red, _, reduced, reduces, _, _, _, rebuilt, _⟩ :=
      reduceWithMode_rebuilds find settled.earlier requested mode
    refine ⟨red, _, ?_, rebuilt⟩
    simp only [IncrementalReducer.finalize, translated, reduces, Option.bind_eq_bind,
      Option.bind_some]
  · exact absurd ((inside bad.id member).trans_le covered) (Nat.not_lt_of_ge beyond)

end Stepping

/-! ## What panics -/

/-- The mutex of a reducer is poisoned, or an identity op without inputs waits for
it. -/
def Trapped (session : Session) (r : Nat) (store : GraphStore) : Prop :=
  session.reducers[r]? = some none ∨ ∃ reducer, session.reducers[r]? = some (some reducer) ∧
    ¬ FedIdentities (store.snapshotFrom reducer.watermark)

/-- Only a reducer panics, in a step or in what comes after one. Nothing else in
the bindings does. -/
def Panics (session : Session) : Demand → Prop
  | .act (.step r s) => ∃ store, session.stores[s]? = some store ∧ Trapped session r store
  | .act (.finalize r s outputs _ _) => ∃ store, session.stores[s]? = some store ∧
      (∀ outs ∈ outputs, ∀ o ∈ outs, o < store.nodeCount) ∧ Trapped session r store
  | .ask (.watermark r) | .ask (.totalWork r) | .ask (.canonicalCount r) =>
      session.reducers[r]? = some none
  | _ => False

section Panicking

variable {session : Session} {store : GraphStore} {reducer : IncrementalReducer}

/-- A question about a store panics when its answer does. An absent store is no
panic. -/
theorem withStore_panicked_iff {s : Nat} {answer : GraphStore → Response} :
    withStore session s answer = .panicked ↔
      ∃ store, session.stores[s]? = some store ∧ answer store = .panicked := by
  rw [withStore]
  cases session.stores[s]? with
  | none => simp
  | some store => simp

/-- Nothing aborts a process on the way to a store. A missing one is an answer. -/
theorem withStore_ne_aborted {s : Nat} {answer : GraphStore → Response}
    (lives : ∀ store, answer store ≠ .aborted) : withStore session s answer ≠ .aborted := by
  rw [withStore]
  cases session.stores[s]? with
  | none => simp
  | some store => exact lives store

/-- Nor on the way to a reducer: a poisoned mutex panics. -/
theorem withReducer_ne_aborted {r : Nat} {answer : IncrementalReducer → Response}
    (lives : ∀ reducer, answer reducer ≠ .aborted) : withReducer session r answer ≠ .aborted := by
  rw [withReducer]
  cases session.reducers[r]? with
  | none => simp
  | some held =>
    cases held with
    | none => simp
    | some reducer => exact lives reducer

/-- A question about a reducer panics when the reducer is poisoned or its answer
does. -/
theorem withReducer_panicked_iff {r : Nat} {answer : IncrementalReducer → Response} :
    withReducer session r answer = .panicked ↔ session.reducers[r]? = some none ∨
      ∃ reducer, session.reducers[r]? = some (some reducer) ∧ answer reducer = .panicked := by
  rw [withReducer]
  cases session.reducers[r]? with
  | none => simp
  | some held => cases held <;> simp

/-- No id is found to be out of range exactly when all are within. -/
theorem firstBad_none_iff {outs : List NodeId} :
    firstBad store outs = none ↔ ∀ o ∈ outs, o < store.nodeCount := by
  simp [firstBad]

/-- A reduction never panics, whatever classes the engine reports. The stores of a
session are interned, and that is enough for every lookup. -/
theorem reduce_ne_panicked (interned : store.Interned) (outputs : Option (List NodeId))
    (mode : FusionMode) (find : EngineGraph → Nat → Nat)
    {answer : GraphStore × ReductionReport → Response}
    (calm : ∀ result, answer result ≠ .panicked) :
    reduce store outputs mode (EggEngine.canonicalize find) answer ≠ .panicked := by
  cases outputs with
  | none =>
    obtain ⟨red, _, reduced, reduces, _, _, _, rebuilt, _⟩ :=
      reduceWithMode_rebuilds find interned.earlier interned.inside mode
    simp only [reduce, GraphStore.reduceWith, reduces, rebuilt, Option.bind_eq_bind,
      Option.bind_some]
    exact calm _
  | some outs =>
    cases found : firstBad store outs with
    | some bad =>
      have refused : outs.find? (fun o => decide (store.nodes.length ≤ o)) = some bad := found
      simp [reduce, GraphStore.reduceWithOutputs, refused]
    | none =>
      have inside : ∀ o ∈ outs, o < store.nodes.length := firstBad_none_iff.mp found
      obtain ⟨red, _, reduced, reduces, _, _, _, rebuilt, _⟩ :=
        reduceWithMode_rebuilds find interned.earlier inside mode
      simp only [reduce, GraphStore.reduceWithOutputs_eq inside reduces rebuilt]
      exact calm _

/-- What a step answers is a panic exactly when an identity op without inputs
waits above the watermark. -/
theorem step_panicked_iff (interned : store.Interned) : step reducer store = .panicked ↔
    ¬ FedIdentities (store.snapshotFrom reducer.watermark) := by
  rw [← step_none_iff interned, step]
  cases Session.step reducer store with
  | none => simp
  | some answer =>
    obtain ⟨result, next⟩ := answer
    cases result <;> simp

/-- After the bounds check, finalizing panics when its step does. What comes after
the step never does. -/
theorem finalize_panicked_iff (settled : session.Settled) {s r : Nat}
    (found : session.stores[s]? = some store) {outputs : Option (List NodeId)}
    {mode : FusionMode} {find : EngineGraph → Nat → Nat} :
    finalize session r store outputs mode (EggEngine.canonicalize find) = .panicked ↔
      (∀ outs ∈ outputs, ∀ o ∈ outs, o < store.nodeCount) ∧ Trapped session r store := by
  have kept := settled.stores store (List.mem_of_getElem? found)
  cases refused : outputs.bind (firstBad store) with
  | some bad =>
    obtain ⟨outs, given, beyond⟩ := Option.bind_eq_some_iff.mp refused
    rw [finalize, refused]
    refine iff_of_false (by simp) (fun ⟨inside, _⟩ => ?_)
    rw [firstBad_none_iff.mpr (inside outs given)] at beyond
    cases beyond
  | none =>
    have inside : ∀ outs ∈ outputs, ∀ o ∈ outs, o < store.nodeCount := fun outs given =>
      firstBad_none_iff.mp (Option.bind_eq_none_iff.mp refused outs given)
    have requested : ∀ o ∈ outputs.getD store.outputs, o < store.nodes.length := by
      cases outputs with
      | none => exact kept.interned.inside
      | some outs => exact inside outs rfl
    rw [and_iff_right inside]
    simp only [finalize, refused, withReducer_panicked_iff, Trapped]
    refine or_congr Iff.rfl (exists_congr fun reducer => and_congr_right fun held => ?_)
    rw [← step_none_iff kept.interned]
    cases stepped : Session.step reducer store with
    | none => simp
    | some answer =>
      obtain ⟨result, next⟩ := answer
      obtain ⟨rfl, covered⟩ := step_whole kept.interned stepped
      have usable := Session.step_settled
        (settled.reducers reducer (List.mem_of_getElem? held)) kept stepped
      obtain ⟨red, reduced, finalized, rebuilt⟩ :=
        finalize_complete usable covered requested find mode
      simp [finalized, rebuilt]

/-- A request panics exactly in the cases that are listed, by the kinds of
requests. -/
theorem respond_panicked_iff (settled : session.Settled) (request : Request) :
    respond session request = .panicked ↔ Panics session (.act request) := by
  cases request with
  | newStore => simp [respond, Panics]
  | newReducer => simp [respond, Panics]
  | call s call exposed => simp [respond, Panics, withStore_panicked_iff]
  | reduce s outputs mode find =>
    rw [respond, withStore_panicked_iff]
    refine iff_of_false ?_ id
    rintro ⟨store, found, panics⟩
    exact reduce_ne_panicked (settled.stores store (List.mem_of_getElem? found)).interned outputs
      mode find (fun _ => by simp) panics
  | step r s =>
    rw [respond, withStore_panicked_iff]
    refine exists_congr fun store => and_congr_right fun found => ?_
    have interned := (settled.stores store (List.mem_of_getElem? found)).interned
    simp only [withReducer_panicked_iff, step_panicked_iff interned, Trapped]
  | finalize r s outputs mode find =>
    rw [respond, withStore_panicked_iff]
    exact exists_congr fun store => and_congr_right fun found => finalize_panicked_iff settled found
  | deserialize data =>
    rw [respond]
    cases Serialize.deserialize data <;> simp [Panics]

/-- A query panics exactly when the reducer it asks about is poisoned. -/
theorem read_panicked_iff (settled : session.Settled) (formats : Formats) (query : Query) :
    read formats session query = .panicked ↔ Panics session (.ask query) := by
  cases query with
  | nodeCount s => simp [read, Panics, withStore_panicked_iff]
  | outputs s => simp [read, Panics, withStore_panicked_iff]
  | toDot s => simp [read, Panics, withStore_panicked_iff]
  | nodes s =>
    rw [read, withStore_panicked_iff]
    refine iff_of_false ?_ id
    rintro ⟨store, _, panics⟩
    cases shown : PyGraphStore.nodes store <;> simp [shown] at panics
  | serialize s outputs =>
    rw [read, withStore_panicked_iff]
    refine iff_of_false ?_ id
    rintro ⟨store, _, panics⟩
    cases outputs with
    | none => simp [serialize] at panics
    | some outs => cases bad : firstBad store outs <;> simp [serialize, bad] at panics
  | reductionReport s outputs find =>
    rw [read, withStore_panicked_iff]
    refine iff_of_false ?_ id
    rintro ⟨store, found, panics⟩
    exact reduce_ne_panicked (settled.stores store (List.mem_of_getElem? found)).interned outputs
      .singleUse find (fun _ => by simp) panics
  | watermark r => simp [read, Panics, withReducer_panicked_iff]
  | totalWork r => simp [read, Panics, withReducer_panicked_iff]
  | canonicalCount r => simp [read, Panics, withReducer_panicked_iff]

/-- A reduction reserves nothing ahead. -/
theorem reduce_ne_aborted {outputs : Option (List NodeId)} {mode : FusionMode}
    {engine : RewriteEngine} {answer : GraphStore × ReductionReport → Response}
    (lives : ∀ result, answer result ≠ .aborted) :
    reduce store outputs mode engine answer ≠ .aborted := by
  cases outputs with
  | none =>
    rw [reduce]
    cases store.reduceWith engine mode with
    | none => simp
    | some result => exact lives result
  | some outs =>
    rw [reduce]
    cases store.reduceWithOutputs outs engine mode with
    | none => simp
    | some answer =>
      cases answer with
      | error bad => simp
      | ok result => exact lives result

/-- Nor does a step. -/
theorem step_ne_aborted : step reducer store ≠ .aborted := by
  rw [step]
  split <;> simp

/-- Nor does finalizing. -/
theorem finalize_ne_aborted {r : Nat} {outputs : Option (List NodeId)} {mode : FusionMode}
    {engine : RewriteEngine} : finalize session r store outputs mode engine ≠ .aborted := by
  rw [finalize]
  split
  · simp
  · refine withReducer_ne_aborted fun reducer => ?_
    repeat' split
    all_goals simp

/-- A process that gets its room is not aborted by a request. -/
theorem respond_ne_aborted (session : Session) (request : Request) :
    respond session request ≠ .aborted := by
  cases request with
  | newStore => simp [respond]
  | newReducer => simp [respond]
  | call s call exposed => exact withStore_ne_aborted fun _ => by simp
  | reduce s outputs mode find =>
    exact withStore_ne_aborted fun _ => reduce_ne_aborted fun _ => by simp
  | step r s => exact withStore_ne_aborted fun _ => withReducer_ne_aborted fun _ => step_ne_aborted
  | finalize r s outputs mode find => exact withStore_ne_aborted fun _ => finalize_ne_aborted
  | deserialize data =>
    rw [respond]
    split <;> simp

/-- A query aborts no process. -/
theorem read_ne_aborted (session : Session) (formats : Formats) (query : Query) :
    read formats session query ≠ .aborted := by
  cases query with
  | nodes s =>
    refine withStore_ne_aborted fun store => ?_
    split <;> simp
  | serialize s outputs =>
    refine withStore_ne_aborted fun store => ?_
    cases outputs with
    | none => simp [serialize]
    | some outs => cases bad : firstBad store outs <;> simp [serialize, bad]
  | reductionReport s outputs find =>
    exact withStore_ne_aborted fun _ => reduce_ne_aborted fun _ => by simp
  | nodeCount s => exact withStore_ne_aborted fun _ => by simp
  | outputs s => exact withStore_ne_aborted fun _ => by simp
  | toDot s => exact withStore_ne_aborted fun _ => by simp
  | watermark r => exact withReducer_ne_aborted fun _ => by simp
  | totalWork r => exact withReducer_ne_aborted fun _ => by simp
  | canonicalCount r => exact withReducer_ne_aborted fun _ => by simp

/-- A request that panics reserves no room ahead, so a panic is never an abort
instead. -/
theorem Panics.affords {request : Request} (panics : Panics session (.act request))
    (memory : Memory) : affords memory request = true := by
  cases request <;> first | rfl | exact panics.elim

/-- What is answered by a process whose machine has the room, and otherwise. -/
theorem serve_act (memory : Memory) (formats : Formats) (session : Session) (request : Request) :
    serve memory formats session (.act request) =
      if affords memory request then (respond session request, session.perform request)
      else (.aborted, session) := rfl

/-- The process is aborted over a blob that announces more than the machine has
room for. -/
theorem affords_false_iff {memory : Memory} {request : Request} :
    affords memory request = false ↔
      ∃ data, request = .deserialize data ∧ memory (Serialize.reservations data) = false := by
  cases request <;> simp [affords]

/-- The process ends exactly when it decodes a blob whose announced counts are
more than the machine has room for. -/
theorem serve_aborted_iff {memory : Memory} {formats : Formats} {demand : Demand} :
    (serve memory formats session demand).1 = .aborted ↔ ∃ data,
      demand = .act (.deserialize data) ∧ memory (Serialize.reservations data) = false := by
  cases demand with
  | ask query => exact iff_of_false (read_ne_aborted session formats query) (by simp)
  | act request =>
    rw [serve_act]
    cases room : affords memory request with
    | true =>
      refine iff_of_false (respond_ne_aborted session request) ?_
      rintro ⟨data, same, short⟩
      have refused := affords_false_iff.mpr ⟨data, Demand.act.inj same, short⟩
      rw [room] at refused
      cases refused
    | false =>
      obtain ⟨data, rfl, short⟩ := affords_false_iff.mp room
      exact iff_of_true rfl ⟨data, rfl, short⟩

/-- A request is answered with a panic when it panics, whatever room the machine
has. -/
theorem serve_panicked_iff (settled : session.Settled) (memory : Memory) (formats : Formats)
    (demand : Demand) :
    (serve memory formats session demand).1 = .panicked ↔ Panics session demand := by
  cases demand with
  | ask query => exact read_panicked_iff settled formats query
  | act request =>
    rw [serve_act]
    cases room : affords memory request with
    | true => exact respond_panicked_iff settled request
    | false =>
      refine iff_of_false (by simp) (fun panics => ?_)
      rw [panics.affords memory] at room
      cases room

/-- A poisoned mutex stays poisoned. Nothing of the bindings clears it. -/
theorem poisoned_again {r : Nat} (held : session.reducers[r]? = some none) :
    session = { session with reducers := session.reducers.set r none } := by
  obtain ⟨inside, lookup⟩ := List.getElem?_eq_some_iff.mp held
  conv_rhs => rw [← lookup, List.set_getElem_self]

/-- A panic leaves the stores and the other reducers as they were. Only the
reducer that was locked is lost. -/
theorem perform_panicked (settled : session.Settled) {request : Request}
    (panics : Panics session (.act request)) :
    ∃ r, session.perform request = { session with reducers := session.reducers.set r none } := by
  cases request with
  | step r s =>
    obtain ⟨store, found, held | ⟨reducer, held, unfed⟩⟩ := panics
    · exact ⟨r, by simpa [Session.perform, held] using poisoned_again held⟩
    · have interned := (settled.stores store (List.mem_of_getElem? found)).interned
      exact ⟨r, by simp [Session.perform, held, found, (step_none_iff interned).mpr unfed]⟩
  | finalize r s outputs mode find =>
    obtain ⟨store, found, inside, held | ⟨reducer, held, unfed⟩⟩ := panics
    · exact ⟨r, by simpa [Session.perform, held] using poisoned_again held⟩
    · have interned := (settled.stores store (List.mem_of_getElem? found)).interned
      have granted : (outputs.isSome && (outputs.getD store.outputs).any
          (fun o => decide (store.nodeCount ≤ o))) = false := by
        cases outputs with
        | none => rfl
        | some outs => simpa using inside outs rfl
      refine ⟨r, ?_⟩
      simp only [Session.perform, held, found, Session.finalize, granted,
        (step_none_iff interned).mpr unfed, Session.addStore]
      rfl
  | _ => exact panics.elim

/-- However a session was reached, it panics over identity ops without inputs
alone, and what is lost is the reducer that met them. It is aborted over blobs
alone that announce more than the machine has room for. -/
theorem panics_contained (memory : Memory) (formats : Formats) (requests : List Request)
    (demand : Demand) :
    ((serve memory formats (Session.run requests) demand).1 = .panicked ↔
        Panics (Session.run requests) demand) ∧
      (Panics (Session.run requests) demand →
        ∃ r, (serve memory formats (Session.run requests) demand).2 =
          { Session.run requests with
            reducers := (Session.run requests).reducers.set r none }) ∧
      ((serve memory formats (Session.run requests) demand).1 = .aborted ↔ ∃ data,
        demand = .act (.deserialize data) ∧ memory (Serialize.reservations data) = false) := by
  have settled := Session.settled_run requests
  refine ⟨serve_panicked_iff settled memory formats demand, fun panics => ?_, serve_aborted_iff⟩
  cases demand with
  | act request =>
    rw [serve_act, if_pos (panics.affords memory)]
    exact perform_panicked settled panics
  | ask query =>
    cases query with
    | watermark r => exact ⟨r, poisoned_again panics⟩
    | totalWork r => exact ⟨r, poisoned_again panics⟩
    | canonicalCount r => exact ⟨r, poisoned_again panics⟩
    | _ => exact panics.elim

end Panicking

/-- Room for lists of at most so many items each, however many lists there are. -/
def roomFor (limit : Nat) : Memory :=
  fun reserved => reserved.all (fun reservation => decide (reservation.count ≤ limit))

/-- A machine with room for as many items as a blob has bytes reads the blob, or
finds an error in it. -/
theorem roomFor_accepted {data : List UInt8} {store : GraphStore}
    (accepted : Serialize.deserialize data = .ok store) {limit : Nat} (few : data.length ≤ limit) :
    roomFor limit (Serialize.reservations data) = true := by
  refine List.all_eq_true.mpr (fun reserved member => decide_eq_true ?_)
  exact (Serialize.reservations_accepted accepted reserved member).trans few

/-- A source, an op with an identity token but without inputs, and a reducer. A
step over these panics. -/
def unfedRequests : List Request :=
  [.newStore, .newReducer, .call 0 (.addSource "x" (.new [])) trivial,
    .call 0 (.addOp "add" [] (.new [("scalar", .float 0), ("side", .str "r")])) trivial]

/-- Seventeen bytes that announce a record with 2³² - 1 parameters and end
there. -/
def announcingBlob : List UInt8 :=
  Serialize.magic ++ [1, 0, 0, 0, 0, 0, 0, 0, 0, 255, 255, 255, 255]

/-- The unfed op panics whoever steps over it, and the announced parameters abort
a process that has no room for them. -/
theorem panics_contained_of_unfed :
    (serve (roomFor 1000000) plainFormats (Session.run unfedRequests) (.act (.step 0 0))).1 =
        .panicked ∧
      (serve (roomFor 1000000) plainFormats (Session.run unfedRequests)
        (.act (.deserialize announcingBlob))).1 = .aborted := by
  obtain ⟨panicked, _⟩ :=
    panics_contained (roomFor 1000000) plainFormats unfedRequests (.act (.step 0 0))
  obtain ⟨_, _, aborted⟩ := panics_contained (roomFor 1000000) plainFormats unfedRequests
    (.act (.deserialize announcingBlob))
  refine ⟨panicked.mpr ⟨(Session.run unfedRequests).stores[0], rfl, Or.inr ⟨.new, rfl,
    fun fed => ?_⟩⟩, aborted.mpr ⟨announcingBlob, rfl, by decide +kernel⟩⟩
  exact fed (.op "add" (.new [("scalar", .float 0), ("side", .str "r")]) []) (by decide +kernel)
    ⟨"add", _, [], rfl, by decide +kernel⟩ rfl

/-! ## What never panics -/

/-- Every identity op that a request brings has an input, whether it is recorded
or decoded. -/
def Feeds : Request → Prop
  | .call _ call _ => ∀ key, call.key? = some key → IdentityOperator key → key.inputs ≠ []
  | .deserialize data => ∀ store, Serialize.deserialize data = .ok store →
      FedIdentities store.nodes
  | _ => True

/-- Nothing waits in a store that could end a step, and no mutex is poisoned.
Requests that feed keep it so. -/
structure Usable (session : Session) : Prop where
  settled : session.Settled
  fed : ∀ store ∈ session.stores, FedIdentities store.nodes
  held : none ∉ session.reducers

section Usability

variable {session : Session} {store reduced : GraphStore}

/-- A reduced store has no ops outside its stages, and so no identity op that
could lack an input. -/
theorem fromReduced_fed {find : EngineGraph → Nat → Nat} {nodes : List NodeKey}
    {outs : List NodeId} (topological : Topological nodes) (inside : ∀ o ∈ outs, o < nodes.length)
    {mode : FusionMode} {red : Reduced}
    (reduces : reduceWithMode nodes outs (EggEngine.canonicalize find) mode = some red)
    {report : ReductionReport}
    (rebuilt : GraphStore.fromReduced red = some (reduced, report)) :
    FedIdentities reduced.nodes := by
  obtain ⟨_, comp, _, reduces', fused, _, _, rebuilt', _, stored⟩ :=
    reduceWithMode_rebuilds find topological inside mode
  obtain rfl := Option.some.inj (reduces.symm.trans reduces')
  obtain rfl := (Prod.mk.inj (Option.some.inj (rebuilt.symm.trans rebuilt'))).1
  intro key member identity
  rw [stored] at member
  obtain ⟨source, present, rfl⟩ := quotient_mem member
  obtain ⟨_, _, built⟩ := fused.rebuilt_of_mem present
  have boundary := built.isBoundary (dedupedGraph_wellFormed find topological inside)
    (dedupedGraph_tabled find nodes outs)
  have carried := (NodeKey.token_mem_identityTokens _).mpr identity
  rw [NodeKey.wired_rewire, NodeKey.token_withInputs] at carried
  exact absurd carried (NodeKey.inert_of_boundary boundary).1

/-- A store whose identity ops have inputs may be added. -/
theorem Usable.addStore (usable : Usable session) {added : Option GraphStore}
    (settled : (session.addStore added).Settled)
    (fed : ∀ store ∈ added, FedIdentities store.nodes) : Usable (session.addStore added) := by
  cases added with
  | none => exact usable
  | some store =>
    refine ⟨settled, fun other member => ?_, usable.held⟩
    rcases List.mem_append.mp member with old | fresh
    · exact usable.fed other old
    · exact List.mem_singleton.mp fresh ▸ fed store rfl

/-- Adding a store touches no reducer. -/
theorem addStore_reducers (session : Session) (added : Option GraphStore) :
    (session.addStore added).reducers = session.reducers := by
  cases added <;> rfl

/-- A reducer that is there may take a slot. -/
theorem Usable.setReducer (usable : Usable session) {r : Nat} {next : IncrementalReducer}
    (settled : { session with reducers := session.reducers.set r (some next) }.Settled) :
    Usable { session with reducers := session.reducers.set r (some next) } where
  settled := settled
  fed := usable.fed
  held poisoned := by
    rcases List.mem_or_eq_of_mem_set poisoned with old | fresh
    · exact usable.held old
    · cases fresh

/-- A call whose op has inputs, when it is an identity, keeps that all identity
ops have. -/
theorem fed_asked {call : Call} (feeds : ∀ key, call.key? = some key → IdentityOperator key →
    key.inputs ≠ []) (fed : FedIdentities store.nodes) :
    FedIdentities (call.perform store).2.nodes := by
  intro key member
  rcases Call.mem_perform_nodes member with old | asked
  · exact fed key old
  · exact feeds key asked

/-- A reduced store has no identity op without inputs: its nodes are boundaries
and stages. -/
theorem reduce_fed (interned : store.Interned) {outputs : Option (List NodeId)} {mode : FusionMode}
    {find : EngineGraph → Nat → Nat}
    (done : Session.reduce store outputs mode (EggEngine.canonicalize find) = some reduced) :
    FedIdentities reduced.nodes := by
  cases outputs with
  | none =>
    obtain ⟨red, _, result, reduces, _, _, _, rebuilt, _⟩ :=
      reduceWithMode_rebuilds find interned.earlier interned.inside mode
    simp only [Session.reduce, GraphStore.reduceWith, reduces, rebuilt, Option.bind_eq_bind,
      Option.bind_some, Option.map_some, Option.some.injEq] at done
    exact done ▸ fromReduced_fed interned.earlier interned.inside reduces rebuilt
  | some outs =>
    cases found : firstBad store outs with
    | some bad =>
      have refused : outs.find? (fun o => decide (store.nodes.length ≤ o)) = some bad := found
      simp [Session.reduce, GraphStore.reduceWithOutputs, refused] at done
    | none =>
      have inside : ∀ o ∈ outs, o < store.nodes.length := firstBad_none_iff.mp found
      obtain ⟨red, _, result, reduces, _, _, _, rebuilt, _⟩ :=
        reduceWithMode_rebuilds find interned.earlier inside mode
      simp only [Session.reduce, GraphStore.reduceWithOutputs_eq inside reduces rebuilt,
        Option.some.injEq] at done
      exact done ▸ fromReduced_fed interned.earlier inside reduces rebuilt

/-- A usable session has no trap: neither a poisoned mutex nor an op that panics a
step. -/
theorem Usable.untrapped (usable : Usable session) {s r : Nat}
    (found : session.stores[s]? = some store) : ¬ Trapped session r store := by
  rintro (poisoned | ⟨reducer, _, unfed⟩)
  · exact usable.held (List.mem_of_getElem? poisoned)
  · exact unfed (fun key member =>
      usable.fed store (List.mem_of_getElem? found) key (List.mem_of_mem_drop member))

/-- A usable session panics at nothing, whatever is asked of it next. -/
theorem Usable.calm (usable : Usable session) (demand : Demand) : ¬ Panics session demand := by
  have held {r : Nat} : session.reducers[r]? ≠ some none :=
    fun poisoned => usable.held (List.mem_of_getElem? poisoned)
  cases demand with
  | act request =>
    cases request with
    | step r s => exact fun ⟨_, found, trapped⟩ => usable.untrapped found trapped
    | finalize r s outputs mode find =>
      exact fun ⟨_, found, _, trapped⟩ => usable.untrapped found trapped
    | _ => exact id
  | ask query =>
    cases query with
    | watermark r => exact held
    | totalWork r => exact held
    | canonicalCount r => exact held
    | _ => exact id

/-- What a usable session answers to a finalization: a reduced store, or a
refusal. The reducer goes on. -/
theorem Usable.finalize_cases (usable : Usable session) {s r : Nat} {reducer : IncrementalReducer}
    (held : session.reducers[r]? = some (some reducer)) (found : session.stores[s]? = some store)
    (outputs : Option (List NodeId)) (mode : FusionMode) (find : EngineGraph → Nat → Nat) :
    ∃ next,
      (Session.finalize reducer store outputs mode (EggEngine.canonicalize find)).2 = some next ∧
      ∀ reduced ∈ (Session.finalize reducer store outputs mode (EggEngine.canonicalize find)).1,
        FedIdentities reduced.nodes := by
  have kept := usable.settled.stores store (List.mem_of_getElem? found)
  rw [Session.finalize]
  split
  · exact ⟨reducer, rfl, by simp⟩
  · rename_i granted
    have requested : ∀ o ∈ outputs.getD store.outputs, o < store.nodes.length := by
      cases outputs with
      | none => exact kept.interned.inside
      | some outs =>
        intro o member
        by_contra beyond
        exact granted (List.any_eq_true.mpr ⟨o, member, decide_eq_true (Nat.le_of_not_lt beyond)⟩)
    cases stepped : Session.step reducer store with
    | none =>
      exact absurd (Or.inr ⟨reducer, held, (step_none_iff kept.interned).mp stepped⟩)
        (usable.untrapped found)
    | some answer =>
      obtain ⟨result, next⟩ := answer
      obtain ⟨rfl, covered⟩ := step_whole kept.interned stepped
      have settled := Session.step_settled
        (usable.settled.reducers reducer (List.mem_of_getElem? held)) kept stepped
      obtain ⟨red, ⟨reduced, report⟩, finalized, rebuilt⟩ :=
        finalize_complete settled covered requested find mode
      refine ⟨next, by simp [finalized, rebuilt], ?_⟩
      simp only [finalized, rebuilt, Option.mem_def, Option.some.injEq, forall_eq']
      rw [IncrementalReducer.finalize] at finalized
      cases translated : IncrementalReducer.translate next.map (outputs.getD store.outputs) with
      | error bad => simp [translated] at finalized
      | ok ids =>
        simp only [translated, Option.bind_eq_bind, Option.bind_eq_some_iff, Option.some.injEq,
          Except.ok.injEq] at finalized
        obtain ⟨_, reduces, rfl⟩ := finalized
        exact fromReduced_fed settled.earlier
          (fun o member => settled.map o (IncrementalReducer.translate_mem translated o member))
          reduces rebuilt

/-- Requests that feed their identity ops keep a session usable, by the kinds of
requests. -/
theorem Usable.perform (usable : Usable session) {request : Request} (feeds : Feeds request) :
    Usable (session.perform request) := by
  have settled := usable.settled.perform request
  cases request with
  | newStore =>
    rw [Session.perform] at settled ⊢
    refine usable.addStore settled (fun store fresh => ?_)
    obtain rfl := Option.some.inj fresh
    exact fun key member => absurd member List.not_mem_nil
  | newReducer =>
    refine ⟨settled, usable.fed, fun poisoned => ?_⟩
    rcases List.mem_append.mp poisoned with old | fresh
    · exact usable.held old
    · cases List.mem_singleton.mp fresh
  | call s call exposed =>
    rw [Session.perform] at settled ⊢
    cases found : session.stores[s]? with
    | none => exact usable
    | some store =>
      simp only [found] at settled
      refine ⟨settled, fun other member => ?_, usable.held⟩
      rcases List.mem_or_eq_of_mem_set member with old | rfl
      · exact usable.fed other old
      · exact fed_asked feeds (usable.fed store (List.mem_of_getElem? found))
  | reduce s outputs mode find =>
    rw [Session.perform] at settled ⊢
    cases found : session.stores[s]? with
    | none => exact usable
    | some store =>
      simp only [found] at settled
      have interned := (usable.settled.stores store (List.mem_of_getElem? found)).interned
      exact usable.addStore settled (fun reduced done => reduce_fed interned done)
  | step r s =>
    rw [Session.perform] at settled ⊢
    split
    · rename_i reducer store held found
      have interned := (usable.settled.stores store (List.mem_of_getElem? found)).interned
      cases stepped : Session.step reducer store with
      | none =>
        exact absurd (Or.inr ⟨reducer, held, (step_none_iff interned).mp stepped⟩)
          (usable.untrapped found)
      | some answer =>
        simp only [held, found, stepped, Option.map_some] at settled
        exact usable.setReducer settled
    · exact usable
  | finalize r s outputs mode find =>
    rw [Session.perform] at settled ⊢
    split
    · rename_i reducer store held found
      obtain ⟨next, goes, fed⟩ := usable.finalize_cases held found outputs mode find
      have rebuilt := (Session.finalize_settled find
        (usable.settled.reducers reducer (List.mem_of_getElem? held))
        (usable.settled.stores store (List.mem_of_getElem? found)) outputs mode).1
      have added := usable.addStore (usable.settled.addStore rebuilt) fed
      simp only [held, found, goes] at settled ⊢
      rw [← addStore_reducers session] at settled ⊢
      exact added.setReducer settled
    · exact usable
  | deserialize data =>
    refine usable.addStore settled (fun store done => ?_)
    cases decoded : Serialize.deserialize data with
    | error bad => simp [decoded, Except.toOption] at done
    | ok result =>
      obtain rfl : result = store := by simpa [decoded, Except.toOption] using done
      exact feeds result decoded

end Usability

/-- Without identity ops that lack inputs nothing panics, whatever is asked and in
whatever order, and every reducer stays usable. With room for what the blobs
announce, nothing is aborted either. -/
theorem fed_never_panics (memory : Memory) (formats : Formats) (demands : List Demand)
    (feeds : ∀ request, Demand.act request ∈ demands →
      Feeds request ∧ affords memory request = true) :
    (∀ answer ∈ (Machine.transcript (serve memory formats) .new demands).1,
        answer ≠ .panicked ∧ answer ≠ .aborted) ∧
      none ∉ (Machine.transcript (serve memory formats) .new demands).2.reducers := by
  have kept (session : Session) (demand : Demand) (usable : Usable session)
      (feeds : ∀ request, demand = .act request → Feeds request ∧ affords memory request = true) :
      ((serve memory formats session demand).1 ≠ .panicked ∧
        (serve memory formats session demand).1 ≠ .aborted) ∧
        Usable (serve memory formats session demand).2 := by
    have calm : (serve memory formats session demand).1 ≠ .panicked := fun panics =>
      usable.calm demand ((serve_panicked_iff usable.settled memory formats demand).mp panics)
    cases demand with
    | act request =>
      obtain ⟨fed, room⟩ := feeds request rfl
      rw [serve_act, if_pos room] at calm ⊢
      exact ⟨⟨calm, respond_ne_aborted session request⟩, usable.perform fed⟩
    | ask query => exact ⟨⟨calm, read_ne_aborted session formats query⟩, usable⟩
  have start : Usable .new :=
    ⟨Session.settled_new, by simp [Session.new], by simp [Session.new]⟩
  have admitted : ∀ demand ∈ demands, ∀ request, demand = .act request →
      Feeds request ∧ affords memory request = true := by
    rintro demand member request rfl
    exact feeds request member
  obtain ⟨answers, last⟩ := Machine.transcript_keeps (serve memory formats)
    (fun answer => answer ≠ .panicked ∧ answer ≠ .aborted) kept admitted start
  exact ⟨answers, last.held⟩

/-- A shift by nothing is recorded, stepped over and finalized, and a blob is read
back. -/
def fedDemands : List Demand :=
  [.act .newStore, .act .newReducer, .act (.call 0 (.addSource "x" (.new [])) trivial),
    .act (.call 0 (.addOp "add" [0] (.new [("scalar", .float 0), ("side", .str "r")])) trivial),
    .act (.call 0 (.markOutput 1) trivial), .act (.step 0 0), .ask (.canonicalCount 0),
    .act (.finalize 0 0 none .singleUse (fun _ i => i)), .ask (.nodes 1),
    .act (.deserialize Serialize.sourcesBlob)]

/-- A shift by zero is recorded, stepped over, finalized and read back, and no
reducer is poisoned. -/
theorem fed_never_panics_of_shift :
    none ∉ (Machine.transcript (serve (roomFor 100) plainFormats) .new fedDemands).2.reducers := by
  have read : Serialize.deserialize Serialize.sourcesBlob =
      .ok ⟨[.source "x" (.new []), .source "y" (.new [])],
        [(.source "y" (.new []), 1), (.source "x" (.new []), 0)], [1]⟩ := by decide +kernel
  have room : roomFor 100 (Serialize.reservations Serialize.sourcesBlob) = true :=
    roomFor_accepted read (by decide +kernel)
  refine (fed_never_panics (roomFor 100) plainFormats fedDemands ?_).2
  simp [fedDemands, Feeds, Call.key?, IdentityOperator, NodeKey.inputs, affords, room, read,
    FedIdentities]

end Service

end GraphedCore
