import GraphedCore.HashTables
import GraphedCore.RoundTrip
import GraphedCore.Service

/-!
# Restored sessions

What a session answers depends on the nodes and the marks of its stores. How the intern table
found a key does not show: a store that was read back from its own bytes can stand for the one
that was written, at any moment and for good.
-/

namespace GraphedCore

open Service

/-- What shows of a store: its nodes and its marks. The table is never shown. -/
def GraphStore.contents (store : GraphStore) : List NodeKey × List NodeId :=
  (store.nodes, store.outputs)

namespace GraphStore

variable {store store' : GraphStore}

/-- The tables of interned stores are fixed by the nodes, up to the order of their
entries. -/
theorem alike_of_contents (left : store.Interned) (right : store'.Interned)
    (same : store.contents = store'.contents) : Alike store store' where
  nodes := (Prod.mk.inj same).1
  outputs := (Prod.mk.inj same).2
  agree key := by
    apply Option.ext
    intro id
    change store.lookup key = some id ↔ store'.lookup key = some id
    rw [lookup_eq, lookup_eq, left.found, right.found, (Prod.mk.inj same).1]

/-- Stores with the same contents answer a call the same, and have the same
contents after it. -/
theorem perform_of_contents (left : store.Interned) (right : store'.Interned)
    (same : store.contents = store'.contents) (call : Call) :
    (call.perform store).1 = (call.perform store').1 ∧
      (call.perform store).2.contents = (call.perform store').2.contents := by
  obtain ⟨answer, later⟩ := (alike_of_contents left right same).perform call
  exact ⟨answer, by rw [contents, contents, later.nodes, later.outputs]⟩

/-- What is made of the contents alone is the same for stores of the same
contents. -/
theorem eq_of_contents {α : Type} (made : GraphStore → α) (alike : store.contents = store'.contents)
    (blind : ∀ nodes table table' outputs, made ⟨nodes, table, outputs⟩ =
      made ⟨nodes, table', outputs⟩) : made store = made store' := by
  obtain ⟨nodes, table, outputs⟩ := store
  obtain ⟨nodes', table', outputs'⟩ := store'
  obtain ⟨rfl, rfl⟩ := Prod.mk.inj alike
  exact blind nodes table table' outputs

end GraphStore

namespace Session

variable {session session' : Session}

/-- Sessions that show the same, slot by slot. Their tables may differ. -/
structure Alike (session session' : Session) : Prop where
  left : session.Settled
  right : session'.Settled
  stores : session.stores.map GraphStore.contents = session'.stores.map GraphStore.contents
  reducers : session.reducers = session'.reducers

namespace Alike

/-- Alike sessions have as many stores. -/
theorem length (alike : Alike session session') :
    session.stores.length = session'.stores.length := by
  simpa using congrArg List.length alike.stores

/-- A position is free in both sessions, or holds stores of the same contents. -/
theorem lookup (alike : Alike session session') (s : Nat) :
    (session.stores[s]? = none ∧ session'.stores[s]? = none) ∨
      ∃ store store', session.stores[s]? = some store ∧ session'.stores[s]? = some store' ∧
        store.contents = store'.contents := by
  have same := congrArg (·[s]?) alike.stores
  simp only [List.getElem?_map] at same
  cases found : session.stores[s]? with
  | none =>
    rw [found, Option.map_none, eq_comm, Option.map_eq_none_iff] at same
    exact Or.inl ⟨rfl, same⟩
  | some store =>
    rw [found, Option.map_some, eq_comm, Option.map_eq_some_iff] at same
    obtain ⟨store', found', contents⟩ := same
    exact Or.inr ⟨store, store', rfl, found', contents.symm⟩

/-- An answer that is made of the contents is the same. -/
theorem withStore (alike : Alike session session') (s : Nat)
    {answer answer' : GraphStore → Response}
    (same : ∀ store store', session.stores[s]? = some store → session'.stores[s]? = some store' →
      store.contents = store'.contents → answer store = answer' store') :
    Service.withStore session s answer = Service.withStore session' s answer' := by
  rcases alike.lookup s with ⟨free, free'⟩ | ⟨store, store', found, found', contents⟩
  · rw [Service.withStore, Service.withStore, free, free']
  · rw [Service.withStore, Service.withStore, found, found']
    exact same store store' found found' contents

/-- Alike sessions have the same reducers, so what is asked of one is answered the
same. -/
theorem withReducer (alike : Alike session session') (r : Nat)
    (answer : IncrementalReducer → Response) :
    Service.withReducer session r answer = Service.withReducer session' r answer := by
  rw [Service.withReducer, Service.withReducer, alike.reducers]

/-- Stores of the same contents may be added to both. -/
theorem addStore_stores (alike : Alike session session') {added added' : Option GraphStore}
    (same : added.map GraphStore.contents = added'.map GraphStore.contents) :
    (session.addStore added).stores.map GraphStore.contents =
      (session'.addStore added').stores.map GraphStore.contents := by
  cases added with
  | none =>
    rw [Option.map_none, eq_comm, Option.map_eq_none_iff] at same
    rw [same]
    exact alike.stores
  | some store =>
    rw [Option.map_some, eq_comm, Option.map_eq_some_iff] at same
    obtain ⟨store', rfl, contents⟩ := same
    simp [Session.addStore, alike.stores, contents]

/-- A request is answered the same. -/
theorem respond (alike : Alike session session') (request : Request) :
    Service.respond session request = Service.respond session' request := by
  have made := alike.length
  cases request with
  | newStore => simp only [Service.respond, made]
  | newReducer => simp only [Service.respond, alike.reducers]
  | call s call exposed =>
    refine alike.withStore s (fun store store' found found' contents => ?_)
    rw [(GraphStore.perform_of_contents
      (alike.left.stores store (List.mem_of_getElem? found)).interned
      (alike.right.stores store' (List.mem_of_getElem? found')).interned contents call).1]
  | reduce s outputs mode find =>
    refine alike.withStore s (fun store store' _ _ contents => ?_)
    rw [made]
    exact GraphStore.eq_of_contents (fun store => Service.reduce store outputs mode _ _) contents
      (fun _ _ _ _ => rfl)
  | step r s =>
    refine alike.withStore s (fun store store' _ _ contents => ?_)
    rw [alike.withReducer]
    exact GraphStore.eq_of_contents
      (fun store => Service.withReducer session' r fun reducer => Service.step reducer store)
      contents (fun _ _ _ _ => rfl)
  | finalize r s outputs mode find =>
    refine alike.withStore s (fun store store' _ _ contents => ?_)
    have same : Service.finalize session r store outputs mode (EggEngine.canonicalize find) =
        Service.finalize session' r store outputs mode (EggEngine.canonicalize find) := by
      simp only [Service.finalize, alike.withReducer, made]
    rw [same]
    exact GraphStore.eq_of_contents
      (fun store => Service.finalize session' r store outputs mode (EggEngine.canonicalize find))
      contents (fun _ _ _ _ => rfl)
  | deserialize data => simp only [Service.respond, made]

/-- A query is answered the same. -/
theorem read (alike : Alike session session') (formats : Formats) (query : Query) :
    Service.read formats session query = Service.read formats session' query := by
  have asked {s : Nat} {answer : GraphStore → Response}
      (blind : ∀ nodes table table' outputs, answer ⟨nodes, table, outputs⟩ =
        answer ⟨nodes, table', outputs⟩) :
      Service.withStore session s answer = Service.withStore session' s answer :=
    alike.withStore s (fun _ _ _ _ contents => GraphStore.eq_of_contents answer contents blind)
  cases query with
  | watermark r => exact alike.withReducer r _
  | totalWork r => exact alike.withReducer r _
  | canonicalCount r => exact alike.withReducer r _
  | _ => exact asked (fun _ _ _ _ => rfl)

/-- The sessions stay alike. Tables are asked for keys only, and interned stores
of one arena answer these alike. -/
theorem perform (alike : Alike session session') (request : Request) :
    Alike (session.perform request) (session'.perform request) := by
  have left := alike.left.perform request
  have right := alike.right.perform request
  suffices shown : (session.perform request).stores.map GraphStore.contents =
      (session'.perform request).stores.map GraphStore.contents ∧
        (session.perform request).reducers = (session'.perform request).reducers from
    ⟨left, right, shown.1, shown.2⟩
  cases request with
  | newStore => exact ⟨alike.addStore_stores rfl, alike.reducers⟩
  | newReducer => exact ⟨alike.stores, by simp only [Session.perform, alike.reducers]⟩
  | call s call exposed =>
    rcases alike.lookup s with ⟨free, free'⟩ | ⟨store, store', found, found', contents⟩
    · simp only [Session.perform, free, free']
      exact ⟨alike.stores, alike.reducers⟩
    · have after := (GraphStore.perform_of_contents
        (alike.left.stores store (List.mem_of_getElem? found)).interned
        (alike.right.stores store' (List.mem_of_getElem? found')).interned contents call).2
      simp only [Session.perform, found, found', List.map_set, after]
      exact ⟨by rw [alike.stores], alike.reducers⟩
  | reduce s outputs mode find =>
    rcases alike.lookup s with ⟨free, free'⟩ | ⟨store, store', found, found', contents⟩
    · simp only [Session.perform, free, free']
      exact ⟨alike.stores, alike.reducers⟩
    · have same : Session.reduce store outputs mode (EggEngine.canonicalize find) =
          Session.reduce store' outputs mode (EggEngine.canonicalize find) :=
        GraphStore.eq_of_contents (fun store => Session.reduce store outputs mode _) contents
          (fun _ _ _ _ => rfl)
      simp only [Session.perform, found, found']
      refine ⟨alike.addStore_stores (by rw [same]), ?_⟩
      rw [Service.addStore_reducers, Service.addStore_reducers, alike.reducers]
  | step r s =>
    rcases alike.lookup s with ⟨free, free'⟩ | ⟨store, store', found, found', contents⟩
    · simp only [Session.perform, free, free', ← alike.reducers]
      rcases session.reducers[r]? with _ | _ | reducer <;> exact ⟨alike.stores, alike.reducers⟩
    · have same (reducer : IncrementalReducer) :
          Session.step reducer store = Session.step reducer store' :=
        GraphStore.eq_of_contents (Session.step reducer) contents (fun _ _ _ _ => rfl)
      simp only [Session.perform, found, found', ← alike.reducers]
      rcases session.reducers[r]? with _ | _ | reducer
      · exact ⟨alike.stores, alike.reducers⟩
      · exact ⟨alike.stores, alike.reducers⟩
      · exact ⟨alike.stores, by simp only [same]⟩
  | finalize r s outputs mode find =>
    rcases alike.lookup s with ⟨free, free'⟩ | ⟨store, store', found, found', contents⟩
    · simp only [Session.perform, free, free', ← alike.reducers]
      rcases session.reducers[r]? with _ | _ | reducer <;> exact ⟨alike.stores, alike.reducers⟩
    · have same (reducer : IncrementalReducer) :
          Session.finalize reducer store outputs mode (EggEngine.canonicalize find) =
            Session.finalize reducer store' outputs mode (EggEngine.canonicalize find) :=
        GraphStore.eq_of_contents (fun store => Session.finalize reducer store outputs mode _)
          contents (fun _ _ _ _ => rfl)
      simp only [Session.perform, found, found', ← alike.reducers]
      rcases session.reducers[r]? with _ | _ | reducer
      · exact ⟨alike.stores, alike.reducers⟩
      · exact ⟨alike.stores, alike.reducers⟩
      · exact ⟨alike.addStore_stores (by rw [same]), by simp only [same]⟩
  | deserialize data =>
    refine ⟨alike.addStore_stores rfl, ?_⟩
    rw [Session.perform, Session.perform, Service.addStore_reducers, Service.addStore_reducers,
      alike.reducers]

/-- Alike sessions serve in lockstep: the same answer, and alike again. -/
theorem serve (alike : Alike session session') (memory : Memory) (formats : Formats)
    (demand : Demand) :
    (Service.serve memory formats session demand).1 =
        (Service.serve memory formats session' demand).1 ∧
      Alike (Service.serve memory formats session demand).2
        (Service.serve memory formats session' demand).2 := by
  cases demand with
  | act request =>
    rw [serve_act, serve_act]
    split
    · exact ⟨alike.respond request, alike.perform request⟩
    · exact ⟨rfl, alike⟩
  | ask query => exact ⟨alike.read formats query, alike⟩

end Alike

/-! ## Stores that were read back -/

/-- A store is kept, or what its bytes are decoded to takes its place. -/
def KeptOrRestored (store back : GraphStore) : Prop :=
  back = store ∨ Serialize.deserialize (Serialize.serialize store) = .ok back

/-- A store and what its bytes read back to have the same contents. The table is
rebuilt on the way. -/
theorem keptOrRestored_contents {store back : GraphStore} (settled : store.Settled)
    (fits : store.Fits) (either : KeptOrRestored store back) :
    store.contents = back.contents ∧ back.Settled := by
  rcases either with rfl | decoded
  · exact ⟨rfl, settled⟩
  · obtain ⟨other, again, nodes, outputs⟩ := Serialize.deserialize_serialize settled fits
    obtain rfl := Except.ok.inj (decoded.symm.trans again)
    exact ⟨by rw [GraphStore.contents, GraphStore.contents, nodes, outputs],
      Serialize.deserialize_settled decoded⟩

/-- A session some of whose stores were restored is alike to the one they were
taken from. -/
theorem alike_of_restored (settled : session.Settled) (fits : ∀ store ∈ session.stores, store.Fits)
    (stores : List.Forall₂ KeptOrRestored session.stores session'.stores)
    (reducers : session'.reducers = session.reducers) : Alike session session' := by
  have paired {kept : List GraphStore} {backs : List GraphStore}
      (known : ∀ store ∈ kept, store.Settled ∧ store.Fits)
      (either : List.Forall₂ KeptOrRestored kept backs) :
      kept.map GraphStore.contents = backs.map GraphStore.contents ∧
        ∀ back ∈ backs, back.Settled := by
    induction either with
    | nil => exact ⟨rfl, fun back none => absurd none List.not_mem_nil⟩
    | cons first _ ih =>
      obtain ⟨⟨settled, fits⟩, rest⟩ := List.forall_mem_cons.mp known
      obtain ⟨contents, usable⟩ := keptOrRestored_contents settled fits first
      obtain ⟨others, usables⟩ := ih rest
      exact ⟨by rw [List.map_cons, List.map_cons, contents, others],
        List.forall_mem_cons.mpr ⟨usable, usables⟩⟩
  obtain ⟨contents, usable⟩ :=
    paired (fun store member => ⟨settled.stores store member, fits store member⟩) stores
  exact ⟨settled, ⟨usable, fun reducer member => settled.reducers reducer (reducers ▸ member)⟩,
    contents, reducers.symm⟩

/-- Writing any of the stores out and reading them back, at any moment of a
session, is not seen in any answer from then on, and the sessions end with the
same nodes and marks. The stores that are written have to fit. -/
theorem restored_unseen (memory : Memory) (formats : Formats) (requests : List Request)
    (restored : Session) (fits : ∀ store ∈ (run requests).stores, store.Fits)
    (stores : List.Forall₂ KeptOrRestored (run requests).stores restored.stores)
    (reducers : restored.reducers = (run requests).reducers) (demands : List Demand) :
    (Machine.transcript (serve memory formats) (run requests) demands).1 =
        (Machine.transcript (serve memory formats) restored demands).1 ∧
      (Machine.transcript (serve memory formats) (run requests) demands).2.stores.map
          GraphStore.contents =
        (Machine.transcript (serve memory formats) restored demands).2.stores.map
          GraphStore.contents := by
  obtain ⟨answers, last⟩ := Machine.transcript_lockstep (Service.serve memory formats)
    (Service.serve memory formats)
    (fun _ _ demand (alike : Alike _ _) => alike.serve memory formats demand) demands
    (alike_of_restored (settled_run requests) fits stores reducers)
  exact ⟨answers, last.stores⟩

/-- The second of two stores is read back, and a reduction of it is drawn. -/
theorem restored_unseen_of_reduced :
    (Machine.transcript (serve (roomFor 100) plainFormats) (run Serialize.reduceRequests)
        [.ask (.nodes 1), .act (.reduce 1 none .maximal (fun _ i => i)), .ask (.toDot 2)]).1 =
      (Machine.transcript (serve (roomFor 100) plainFormats)
        { run Serialize.reduceRequests with
          stores := (run Serialize.reduceRequests).stores.take 1 ++
            ((run Serialize.reduceRequests).stores.drop 1).filterMap (fun store =>
              (Serialize.deserialize (Serialize.serialize store)).toOption) }
        [.ask (.nodes 1), .act (.reduce 1 none .maximal (fun _ i => i)), .ask (.toDot 2)]).1 := by
  refine (restored_unseen (roomFor 100) plainFormats Serialize.reduceRequests _
    (by decide +kernel) ?_ rfl _).1
  refine List.Forall₂.cons (Or.inl rfl) (List.Forall₂.cons (Or.inr ?_) List.Forall₂.nil)
  decide +kernel

end Session

end GraphedCore
