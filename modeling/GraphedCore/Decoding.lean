import GraphedCore.Lib.Parsing
import GraphedCore.Lib.Term
import GraphedCore.Rebuild
import GraphedCore.Serialize

/-!
# What decoding does

A blob is a list of node records, whose inputs are record indices, and a list of
output indices. Decoding interns the records in order and marks the outputs, with
the indices taken as they stand for store ids. The two numberings are the same up
to the first record that equals an earlier one, and differ from there on.
-/

namespace GraphedCore

open Dag Wired

namespace GraphStore

/-- Intern keys in order, with the ids they got. A refused key ends it. -/
def addKeys : List NodeKey → GraphStore → Option (GraphStore × List NodeId)
  | [], store => some (store, [])
  | key :: rest, store =>
    match store.addKey key with
    | (.ok id, store) => (addKeys rest store).map (fun result => (result.1, id :: result.2))
    | (.error _, _) => none

/-- Mark outputs in order. A refused one ends it. -/
def markOutputs : List NodeId → GraphStore → Option GraphStore
  | [], store => some store
  | o :: rest, store =>
    match store.markOutput o with
    | (.ok (), store) => markOutputs rest store
    | (.error _, _) => none

/-- Marking ids, when it succeeds, leaves the nodes alone, adds each new id once,
and tells that every id is one of a node. -/
theorem markOutputs_some {outs : List NodeId} {store final : GraphStore}
    (done : store.markOutputs outs = some final) :
    final = { store with outputs := marked store.outputs outs } ∧
      ∀ o ∈ outs, o < store.nodes.length := by
  induction outs generalizing store with
  | nil => exact ⟨(Option.some.inj done).symm, by simp⟩
  | cons o rest ih =>
    rcases store.markOutput_cases o with ⟨_, did⟩ | ⟨inside, ⟨old, did⟩ | ⟨fresh, did⟩⟩
    · simp [markOutputs, did] at done
    · rw [markOutputs, did] at done
      obtain ⟨same, bound⟩ := ih done
      refine ⟨?_, by simpa [inside] using bound⟩
      rw [same, marked, marked, List.foldl_cons, if_pos old]
    · rw [markOutputs, did] at done
      obtain ⟨same, bound⟩ := ih done
      refine ⟨?_, by simpa [inside] using bound⟩
      rw [same, marked, marked, List.foldl_cons, if_neg fresh]

end GraphStore

namespace Serialize

open Parsing

namespace Reader

/-- The node records and the output indices of a blob, before anything is
interned. The decoder reads the same, but interns on the way. -/
def blob : Reader (List NodeKey × List NodeId) := do
  let m ← take 4
  if m ≠ magic then fail .badMagic else do
    let nNodes ← u32
    let records ← repeated node 0 nNodes
    let nOut ← u32
    let outputs ← repeated (fun _ => u64) 0 nOut
    pure (records, outputs)

/-- The parts of a blob that is read: the header, the counted records and the
counted outputs. -/
theorem blob_ok {records : List NodeKey} {outs : List NodeId} {data rest : List UInt8}
    (read : blob data = .ok ((records, outs), rest)) :
    ∃ count front back, repeated node 0 count front = .ok (records, back) := by
  simp only [blob, bind_ok_iff] at read
  obtain ⟨_, _, _, read⟩ := read
  split at read
  · cases read
  · simp only [bind_ok_iff, pure_ok_iff] at read
    obtain ⟨count, front, _, _, back, found, _, _, _, _, _, _, same, _⟩ := read
    exact ⟨count, front, back, (Prod.mk.inj same).1 ▸ found⟩

/-- Interning a record reads no bytes. -/
theorem addKey_ok_iff {store final : GraphStore} {key : NodeKey} {data rest : List UInt8} :
    addKey store key data = .ok (final, rest) ↔
      ∃ id, store.addKey key = (.ok id, final) ∧ data = rest := by
  cases answer : store.addKey key with
  | mk result after =>
    cases result with
    | error bad => simp [addKey, answer, fail]
    | ok id => simp [addKey, answer, pure_ok_iff]

/-- Marking an output reads no bytes. -/
theorem markOutput_ok_iff {store final : GraphStore} {id : NodeId} {data rest : List UInt8} :
    markOutput store id data = .ok (final, rest) ↔
      store.markOutput id = (.ok (), final) ∧ data = rest := by
  cases answer : store.markOutput id with
  | mk result after =>
    cases result with
    | error bad => simp [markOutput, answer, fail]
    | ok done => simp [markOutput, answer, pure_ok_iff]

/-- Reading and interning records is interning the records that are read. -/
theorem nodes_ok_iff (count : Nat) {index : Nat} {store final : GraphStore}
    {data rest : List UInt8} : nodes index count store data = .ok (final, rest) ↔
      ∃ records created, repeated node index count data = .ok (records, rest) ∧
        store.addKeys records = some (final, created) := by
  induction count generalizing index store data with
  | zero =>
    rw [nodes, repeated, pure_ok_iff]
    constructor
    · rintro ⟨rfl, rfl⟩
      exact ⟨[], [], rfl, rfl⟩
    · rintro ⟨records, created, read, interned⟩
      obtain ⟨rfl, rfl⟩ := pure_ok_iff.mp read
      rw [GraphStore.addKeys, Option.some.injEq, Prod.mk.injEq] at interned
      exact ⟨interned.1, rfl⟩
  | succ count ih =>
    rw [nodes, repeated]
    simp only [bind_ok_iff, addKey_ok_iff, pure_ok_iff, ih]
    constructor
    · rintro ⟨key, _, read, next, _, ⟨id, did, rfl⟩, records, created, later, interned⟩
      exact ⟨_, id :: created, ⟨key, _, read, records, _, later, rfl, rfl⟩,
        by simp [GraphStore.addKeys, did, interned]⟩
    · rintro ⟨_, created, ⟨key, middle, read, records, _, later, rfl, rfl⟩, interned⟩
      cases did : store.addKey key with
      | mk result next =>
        cases result with
        | error bad => simp [GraphStore.addKeys, did] at interned
        | ok id =>
          simp only [GraphStore.addKeys, did, Option.map_eq_some_iff] at interned
          obtain ⟨⟨_, created'⟩, interned, same⟩ := interned
          obtain ⟨rfl, rfl⟩ := Prod.mk.inj same
          exact ⟨key, middle, read, next, middle, ⟨id, did, rfl⟩, records, created', later,
            interned⟩

/-- Reading the outputs one by one and marking each is reading them all and
marking them. The induction is on their count. -/
theorem outputs_ok_iff (count index : Nat) {store final : GraphStore}
    {data rest : List UInt8} : outputs count store data = .ok (final, rest) ↔
      ∃ outs, repeated (fun _ => u64) index count data = .ok (outs, rest) ∧
        store.markOutputs outs = some final := by
  induction count generalizing index store data with
  | zero =>
    rw [outputs, repeated, pure_ok_iff]
    constructor
    · rintro ⟨rfl, rfl⟩
      exact ⟨[], rfl, rfl⟩
    · rintro ⟨outs, read, marks⟩
      obtain ⟨rfl, rfl⟩ := pure_ok_iff.mp read
      simpa [GraphStore.markOutputs] using marks
  | succ count ih =>
    rw [outputs, repeated]
    simp only [bind_ok_iff, markOutput_ok_iff, pure_ok_iff, ih (index + 1)]
    constructor
    · rintro ⟨o, _, read, next, _, ⟨did, rfl⟩, outs, later, marks⟩
      exact ⟨_, ⟨o, _, read, outs, _, later, rfl, rfl⟩, by simp [GraphStore.markOutputs, did, marks]⟩
    · rintro ⟨_, ⟨o, middle, read, outs, _, later, rfl, rfl⟩, marks⟩
      cases did : store.markOutput o with
      | mk result next =>
        cases result with
        | error bad => simp [GraphStore.markOutputs, did] at marks
        | ok done =>
          simp only [GraphStore.markOutputs, did] at marks
          exact ⟨o, middle, read, next, middle, ⟨did, rfl⟩, outs, later, marks⟩

/-- Reading a graph is reading a blob, interning its records and marking its
outputs. -/
theorem graph_ok_iff {store : GraphStore} {data rest : List UInt8} :
    graph data = .ok (store, rest) ↔ ∃ records outs interned created,
      blob data = .ok ((records, outs), rest) ∧
      GraphStore.new.addKeys records = some (interned, created) ∧
      interned.markOutputs outs = some store := by
  rw [graph, blob]
  simp only [bind_ok_iff]
  constructor
  · rintro ⟨m, afterMagic, read, done⟩
    by_cases bad : m ≠ magic
    · rw [if_pos bad] at done
      cases done
    · simp only [if_neg bad, bind_ok_iff, nodes_ok_iff, outputs_ok_iff _ 0] at done
      obtain ⟨n, _, readN, interned, _, ⟨records, created, readRecords, keys⟩, k, _, readK, outs,
        readOuts, marks⟩ := done
      refine ⟨records, outs, interned, created, ⟨m, afterMagic, read, ?_⟩, keys, marks⟩
      simp only [if_neg bad, bind_ok_iff, pure_ok_iff]
      exact ⟨n, _, readN, records, _, readRecords, k, _, readK, outs, _, readOuts, rfl, rfl⟩
  · rintro ⟨records, outs, interned, created, ⟨m, afterMagic, read, done⟩, keys, marks⟩
    refine ⟨m, afterMagic, read, ?_⟩
    by_cases bad : m ≠ magic
    · rw [if_pos bad] at done
      cases done
    · simp only [if_neg bad, bind_ok_iff, pure_ok_iff] at done ⊢
      obtain ⟨n, _, readN, _, _, readRecords, k, _, readK, _, _, readOuts, same, rfl⟩ := done
      obtain ⟨rfl, rfl⟩ := Prod.mk.inj same
      simp only [nodes_ok_iff, outputs_ok_iff _ 0]
      exact ⟨n, _, readN, interned, _, ⟨_, created, readRecords, keys⟩, k, _, readK, _, readOuts,
        marks⟩

end Reader

/-- The reader is run on the data, and what it leaves is not looked at. -/
theorem deserialize_ok_iff {data : List UInt8} {store : GraphStore} :
    deserialize data = .ok store ↔ ∃ rest, Reader.graph data = .ok (store, rest) := by
  cases read : Reader.graph data with
  | error bad => simp [deserialize, read, Except.map]
  | ok result => simp [deserialize, read, Except.map, Prod.ext_iff]

end Serialize

/-! ## Record indices and store ids -/

/-- No two of the first `n` records are equal, so that each gets its position as
its id. -/
def Fresh (records : List NodeKey) (n : Nat) : Prop :=
  (records.take n).Pairwise (fun key other => key.eq other = false)

instance (records : List NodeKey) (n : Nat) : Decidable (Fresh records n) :=
  inferInstanceAs (Decidable ((records.take n).Pairwise _))

section Numbering

variable {records : List NodeKey} {n : Nat} {record : NodeKey}

/-- One more record is fresh when it equals none before it. -/
theorem fresh_succ (lookup : records[n]? = some record) :
    Fresh records (n + 1) ↔ Fresh records n ∧ ∀ i < n, ∀ earlier, records[i]? = some earlier →
      earlier.eq record = false := by
  obtain ⟨bound, rfl⟩ := List.getElem?_eq_some_iff.mp lookup
  rw [Fresh, List.take_succ_eq_append_getElem bound, List.pairwise_append, ← Fresh]
  constructor
  · rintro ⟨fresh, _, apart⟩
    refine ⟨fresh, fun i before earlier found => apart earlier ?_ _ (List.mem_singleton_self _)⟩
    exact List.mem_iff_getElem?.mpr ⟨i, by rw [List.getElem?_take_of_lt before, found]⟩
  · rintro ⟨fresh, apart⟩
    refine ⟨fresh, List.pairwise_singleton _ _, ?_⟩
    intro earlier member other last
    obtain rfl := List.mem_singleton.mp last
    obtain ⟨i, found⟩ := List.mem_iff_getElem?.mp member
    rw [List.getElem?_take] at found
    split at found
    · exact apart i (by assumption) earlier found
    · cases found

/-- Where a record went: its inputs are earlier records, and a node equal to it
got the next id. That id is its index as long as no record was equal to an earlier
one, and falls behind from there on. -/
structure Placed (records : List NodeKey) (store : GraphStore) (created : List NodeId) (i : Nat)
    (record : NodeKey) : Prop where
  earlier : ∀ x ∈ record.inputs, x < i
  recorded : ∃ (id : NodeId) (node : NodeKey), created[i]? = some id ∧
    store.nodes[id]? = some node ∧ node.eq record = true
  abreast : Fresh records (i + 1) → created[i]? = some i
  behind : ¬ Fresh records (i + 1) → ∃ id : NodeId, id < i ∧ created[i]? = some id

/-- The store and the ids after the first `n` records: each record is placed, and
nothing else is in the store. -/
structure Numbered (records : List NodeKey) (n : Nat) (store : GraphStore)
    (created : List NodeId) : Prop where
  interned : store.Interned
  unmarked : store.outputs = []
  length : created.length = n
  placed : ∀ i record, i < n → records[i]? = some record → Placed records store created i record
  asked : ∀ (id : NodeId) (node : NodeKey), store.nodes[id]? = some node →
    ∃ i : Nat, i < n ∧ records[i]? = some node
  full : Fresh records n → store.nodes.length = n
  short : ¬ Fresh records n → store.nodes.length < n

/-- Nothing has been read. -/
theorem numbered_new (records : List NodeKey) : Numbered records 0 .new [] where
  interned := GraphStore.interned_new
  unmarked := rfl
  length := rfl
  placed i _ before := absurd before (Nat.not_lt_zero i)
  asked id node lookup := by simp [GraphStore.new] at lookup
  full _ := rfl
  short stale := absurd (by simp [Fresh]) stale

variable {store next : GraphStore} {created : List NodeId} {id : NodeId}

/-- Earlier records stay where they are when the store and the ids are
extended. -/
theorem Placed.extend {i : Nat} {found : NodeKey} (placed : Placed records store created i found)
    (kept : ∀ (j : NodeId) (node : NodeKey), store.nodes[j]? = some node →
      next.nodes[j]? = some node) (last : NodeId) :
    Placed records next (created ++ [last]) i found := by
  obtain ⟨j, node, here, stored, equal⟩ := placed.recorded
  have old : (created ++ [last])[i]? = created[i]? := List.getElem?_append_left (lookup_bound here)
  refine ⟨placed.earlier, ⟨j, node, old.trans here, kept j node stored, equal⟩, ?_, ?_⟩
  · intro fresh
    exact old.trans (placed.abreast fresh)
  · intro repeated
    obtain ⟨other, less, behind⟩ := placed.behind repeated
    exact ⟨other, less, old.trans behind⟩

/-- What was placed before stays placed, and the next record is placed last. -/
theorem Numbered.snoc (numbered : Numbered records n store created)
    (lookup : records[n]? = some record)
    (kept : ∀ (j : NodeId) (node : NodeKey), store.nodes[j]? = some node →
      next.nodes[j]? = some node)
    (placed : Placed records next (created ++ [id]) n record) :
    ∀ i found, i < n + 1 → records[i]? = some found →
      Placed records next (created ++ [id]) i found := by
  intro i found before lookup'
  rcases Nat.lt_succ_iff_lt_or_eq.mp before with less | rfl
  · exact (numbered.placed i found less lookup').extend kept id
  · obtain rfl := Option.some.inj (lookup.symm.trans lookup')
    exact placed

/-- The store has at most as many nodes as records were read. -/
theorem Numbered.length_le (numbered : Numbered records n store created) :
    store.nodes.length ≤ n := by
  by_cases fresh : Fresh records n
  · exact (numbered.full fresh).le
  · exact (numbered.short fresh).le

/-- A record that was interned before leaves the store as it is. -/
theorem Numbered.again (numbered : Numbered records n store created)
    (lookup : records[n]? = some record) (inside : ∀ x ∈ record.inputs, x < store.nodes.length)
    {node : NodeKey} (stored : store.nodes[id]? = some node) (equal : node.eq record = true) :
    Numbered records (n + 1) store (created ++ [id]) := by
  have bound := numbered.length_le
  have last : (created ++ [id])[n]? = some id := by simp [← numbered.length]
  have stale : ¬ Fresh records (n + 1) := by
    intro fresh
    obtain ⟨i, before, found⟩ := numbered.asked id node stored
    rw [((fresh_succ lookup).mp fresh).2 i before node found] at equal
    cases equal
  have placed : Placed records store (created ++ [id]) n record :=
    ⟨fun x member => (inside x member).trans_le bound, ⟨id, node, last, stored, equal⟩,
      fun fresh => absurd fresh stale, fun _ => ⟨id, (lookup_bound stored).trans_le bound, last⟩⟩
  exact {
    interned := numbered.interned
    unmarked := numbered.unmarked
    length := by simp [numbered.length]
    placed := numbered.snoc lookup (fun _ _ same => same) placed
    asked := fun other found lookup' => by
      obtain ⟨i, before, same⟩ := numbered.asked other found lookup'
      exact ⟨i, before.trans (Nat.lt_succ_self n), same⟩
    full := fun fresh => absurd fresh stale
    short := fun _ => Nat.lt_succ_of_le bound }

/-- Nothing that was recorded equals a key that the store does not find. -/
theorem Numbered.apart (numbered : Numbered records n store created)
    (absent : store.lookup record = none) {i : Nat} (before : i < n) {earlier : NodeKey}
    (found : records[i]? = some earlier) : earlier.eq record = false := by
  obtain ⟨j, node, _, stored, same⟩ := (numbered.placed i earlier before found).recorded
  by_contra equal
  rw [Bool.not_eq_false] at equal
  have hit := (numbered.interned.found record j).mpr ⟨node, stored,
    (NodeKey.eq_iff _ _).mpr (((NodeKey.eq_iff _ _).mp same).trans ((NodeKey.eq_iff _ _).mp equal))⟩
  rw [GraphStore.lookup_eq, hit] at absent
  cases absent

/-- A record that is new is appended to the store. -/
theorem Numbered.push (numbered : Numbered records n store created)
    (lookup : records[n]? = some record) (inside : ∀ x ∈ record.inputs, x < store.nodes.length)
    (absent : store.lookup record = none) :
    Numbered records (n + 1) (store.push record) (created ++ [store.nodes.length]) := by
  have bound := numbered.length_le
  have last : (created ++ [store.nodes.length])[n]? = some store.nodes.length := by
    simp [← numbered.length]
  have kept : ∀ j node, store.nodes[j]? = some node → (store.push record).nodes[j]? = some node :=
    fun j node stored => (List.getElem?_append_left (lookup_bound stored)).trans stored
  have more : Fresh records (n + 1) ↔ Fresh records n := by
    rw [fresh_succ lookup]
    exact ⟨fun both => both.1, fun fresh => ⟨fresh, fun i before earlier found =>
      numbered.apart absent before found⟩⟩
  have placed : Placed records (store.push record) (created ++ [store.nodes.length]) n record :=
    ⟨fun x member => (inside x member).trans_le bound,
      ⟨_, record, last, by simp [GraphStore.push], NodeKey.compares.reflexive record⟩,
      fun fresh => by rw [last, numbered.full (more.mp fresh)],
      fun repeated => ⟨_, numbered.short (fun fresh => repeated (more.mpr fresh)), last⟩⟩
  have longer : (store.push record).nodes.length = store.nodes.length + 1 := by
    simp [GraphStore.push]
  exact {
    interned := numbered.interned.push inside absent
    unmarked := numbered.unmarked
    length := by simp [numbered.length]
    placed := numbered.snoc lookup kept placed
    asked := fun j node lookup' => by
      rcases (getElem?_snoc _ _ _ _).mp lookup' with stored | ⟨_, rfl⟩
      · obtain ⟨i, before, same⟩ := numbered.asked j node stored
        exact ⟨i, before.trans (Nat.lt_succ_self n), same⟩
      · exact ⟨n, Nat.lt_succ_self n, lookup⟩
    full := fun fresh => by rw [longer, numbered.full (more.mp fresh)]
    short := fun repeated => by
      rw [longer]
      exact Nat.succ_lt_succ (numbered.short (fun fresh => repeated (more.mpr fresh))) }

/-- The loop over the records, by induction on those that are left. -/
theorem Numbered.addKeys (numbered : Numbered records n store created) {rest : List NodeKey}
    (split : records.drop n = rest) {ids : List NodeId}
    (done : store.addKeys rest = some (next, ids)) :
    Numbered records (n + rest.length) next (created ++ ids) := by
  induction rest generalizing n store created ids with
  | nil =>
    obtain ⟨rfl, rfl⟩ := Prod.mk.inj (Option.some.inj done)
    simpa using numbered
  | cons record rest ih =>
    have lookup : records[n]? = some record := by
      have first := congrArg List.head? split
      simpa [List.head?_drop] using first
    have later : records.drop (n + 1) = rest := by
      rw [← List.drop_drop, split]
      rfl
    have step {id : NodeId} {middle : GraphStore} (did : store.intern record = (.ok id, middle))
        (numbered' : Numbered records (n + 1) middle (created ++ [id])) :
        Numbered records (n + (record :: rest).length) next (created ++ ids) := by
      simp only [GraphStore.addKeys, GraphStore.addKey, did, Option.map_eq_some_iff] at done
      obtain ⟨⟨_, ids'⟩, ran, same⟩ := done
      obtain ⟨rfl, rfl⟩ := Prod.mk.inj same
      have finished := ih numbered' later ran
      rwa [List.append_assoc, List.singleton_append, Nat.add_assoc, Nat.add_comm 1] at finished
    rcases store.intern_cases record with ⟨x, _, _, did⟩ | ⟨inside, ⟨id, hit, did⟩ | ⟨absent, did⟩⟩
    · simp [GraphStore.addKeys, GraphStore.addKey, did] at done
    · obtain ⟨node, stored, equal⟩ := (numbered.interned.found _ id).mp hit
      exact step did (numbered.again lookup inside stored equal)
    · exact step did (numbered.push lookup inside absent)

/-- A record has its own number as its id exactly when all records up to it are
fresh. -/
theorem Placed.created_iff {j : NodeId} (placed : Placed records store created j record) :
    created[j]? = some j ↔ Fresh records (j + 1) := by
  constructor
  · intro same
    by_contra repeated
    obtain ⟨id, less, other⟩ := placed.behind repeated
    rw [same, Option.some.injEq] at other
    exact absurd less (other ▸ lt_irrefl j)
  · exact placed.abreast

/-- The same for a store that has read all records. -/
theorem Numbered.created_iff (numbered : Numbered records records.length store created)
    {j : NodeId} (before : j < records.length) :
    created[j]? = some j ↔ Fresh records (j + 1) := by
  obtain ⟨record, lookup⟩ := lookup_exists before
  exact (numbered.placed j record before lookup).created_iff

/-- Records that were all accepted refer to earlier ones. -/
theorem Numbered.topological (numbered : Numbered records records.length store created) :
    Topological records :=
  fun i record lookup => (numbered.placed i record (lookup_bound lookup) lookup).earlier

end Numbering

/-! ## The described graph -/

/-- The node created for a record carries its operator, and reads the nodes
created for the records that it names. -/
def Denoted (records : List NodeKey) (created : List NodeId) (store : GraphStore) : Prop :=
  ∀ (i : Nat) (record : NodeKey), records[i]? = some record → ∃ (id : NodeId) (node : NodeKey),
    created[i]? = some id ∧ store.nodes[id]? = some node ∧ node.operator = record.operator ∧
      node.inputs.map some = record.inputs.map (fun j => created[j]?)

/-- Output by output the store unfolds as the records do, and a reference to a
record denotes the node that was created for it. -/
structure Preserved (records : List NodeKey) (outs created : List NodeId) (store : GraphStore) :
    Prop where
  terms : outs.map (termAt NodeKey.operator records) =
    store.outputs.map (termAt NodeKey.operator store.nodes)
  references : Denoted records created store
  outputs : store.outputs.map some = outs.map (fun o => created[o]?)

/-- Every referenced record comes before the first one that equals an earlier one,
and no output is listed twice. -/
structure Unshifted (records : List NodeKey) (outs : List NodeId) : Prop where
  references : ∀ record ∈ records, ∀ j ∈ record.inputs, Fresh records (j + 1)
  outputs : ∀ o ∈ outs, Fresh records (o + 1)
  once : outs.Nodup

instance (records : List NodeKey) (outs : List NodeId) : Decidable (Unshifted records outs) :=
  decidable_of_iff ((∀ record ∈ records, ∀ j ∈ record.inputs, Fresh records (j + 1)) ∧
      (∀ o ∈ outs, Fresh records (o + 1)) ∧ outs.Nodup)
    ⟨fun ⟨references, outputs, once⟩ => ⟨references, outputs, once⟩,
      fun unshifted => ⟨unshifted.references, unshifted.outputs, unshifted.once⟩⟩

section Preservation

variable {records : List NodeKey} {outs created : List NodeId} {middle store : GraphStore}

/-- The records unfold as the nodes created for them, when their references denote
these nodes. -/
theorem Denoted.termAt_created (denoted : Denoted records created store)
    (topological : Topological records) (interned : store.Interned) {i id : NodeId}
    (inside : i < records.length) (here : created[i]? = some id) :
    termAt NodeKey.operator records i = termAt NodeKey.operator store.nodes id := by
  refine termAt_agree topological interned.earlier
    (R := fun i id => i < records.length ∧ created[i]? = some id) ?_ id ⟨inside, here⟩
  rintro i id ⟨inside, here⟩
  obtain ⟨record, lookup⟩ := lookup_exists inside
  obtain ⟨_, node, here', stored, operators, reads⟩ := denoted i record lookup
  obtain rfl := Option.some.inj (here.symm.trans here')
  have lengths : node.inputs.length = record.inputs.length := by
    simpa using congrArg List.length reads
  refine ⟨record, node, lookup, stored, operators.symm,
    List.forall₂_iff_get.mpr ⟨lengths.symm, fun k left right => ?_⟩⟩
  have pointwise := congrArg (fun found => found[k]?) reads
  simp only [List.getElem?_map, List.getElem?_eq_getElem (show k < node.inputs.length from right),
    List.getElem?_eq_getElem (show k < record.inputs.length from left), Option.map_some,
    Option.some.injEq] at pointwise
  exact ⟨(topological i record lookup _ (List.get_mem _ ⟨k, left⟩)).trans inside, pointwise.symm⟩

/-- The store denotes the records' terms exactly when every record that is
referred to sits at its own number, and so do those before it. -/
theorem Numbered.denoted_iff (numbered : Numbered records records.length store created) :
    Denoted records created store ↔
      ∀ record ∈ records, ∀ j ∈ record.inputs, Fresh records (j + 1) := by
  have shape {i : Nat} {record : NodeKey} (lookup : records[i]? = some record) :
      ∃ id node, created[i]? = some id ∧ store.nodes[id]? = some node ∧
        node.operator = record.operator ∧ node.inputs = record.inputs := by
    obtain ⟨id, node, here, stored, equal⟩ :=
      (numbered.placed i record (lookup_bound lookup) lookup).recorded
    exact ⟨id, node, here, stored, (NodeKey.canon_eq_iff _ _).mp ((NodeKey.eq_iff _ _).mp equal)⟩
  constructor
  · intro denoted record member j read
    obtain ⟨i, lookup⟩ := List.mem_iff_getElem?.mp member
    obtain ⟨_, node, here, stored, _, reads⟩ := denoted i record lookup
    obtain ⟨_, _, here', stored', _, same⟩ := shape lookup
    obtain rfl := Option.some.inj (here.symm.trans here')
    obtain rfl := Option.some.inj (stored.symm.trans stored')
    rw [same, List.map_inj_left] at reads
    have bound := lookup_bound lookup
    exact (numbered.created_iff ((numbered.topological i record lookup j read).trans bound)).mp
      (reads j read).symm
  · intro fresh i record lookup
    obtain ⟨id, node, here, stored, operators, same⟩ := shape lookup
    refine ⟨id, node, here, stored, operators, ?_⟩
    rw [same, List.map_inj_left]
    intro j read
    have bound := lookup_bound lookup
    exact ((numbered.created_iff ((numbered.topological i record lookup j read).trans bound)).mpr
      (fresh record (List.mem_of_getElem? lookup) j read)).symm

/-- The marks are the nodes created for the listed records exactly when no index
comes after a repeated record and none is listed twice. -/
theorem Numbered.outputs_iff (numbered : Numbered records records.length middle created)
    (inside : ∀ o ∈ outs, o < records.length) :
    (GraphStore.marked middle.outputs outs).map some = outs.map (fun o => created[o]?) ↔
      (∀ o ∈ outs, Fresh records (o + 1)) ∧ outs.Nodup := by
  rw [numbered.unmarked]
  constructor
  · intro same
    have once : outs.Nodup := GraphStore.marked_length (by simpa using congrArg List.length same)
    rw [GraphStore.marked_fresh (by simpa using once), List.nil_append, List.map_inj_left] at same
    exact ⟨fun o member => (numbered.created_iff (inside o member)).mp (same o member).symm, once⟩
  · rintro ⟨fresh, once⟩
    rw [GraphStore.marked_fresh (by simpa using once), List.nil_append, List.map_inj_left]
    exact fun o member => ((numbered.created_iff (inside o member)).mpr (fresh o member)).symm

/-- With the outputs marked: they too must refer to records at their own
numbers. -/
theorem Numbered.preserved_iff (numbered : Numbered records records.length middle created)
    (marks : middle.markOutputs outs = some store) :
    Preserved records outs created store ↔ Unshifted records outs := by
  obtain ⟨rfl, inside⟩ := GraphStore.markOutputs_some marks
  have before : ∀ o ∈ outs, o < records.length :=
    fun o member => (inside o member).trans_le numbered.length_le
  constructor
  · intro preserved
    obtain ⟨fresh, once⟩ := (numbered.outputs_iff before).mp preserved.outputs
    exact ⟨numbered.denoted_iff.mp preserved.references, fresh, once⟩
  · rintro ⟨references, fresh, once⟩
    have denoted := numbered.denoted_iff.mpr references
    refine ⟨?_, denoted, (numbered.outputs_iff before).mpr ⟨fresh, once⟩⟩
    rw [numbered.unmarked, GraphStore.marked_fresh (by simpa using once), List.nil_append,
      List.map_inj_left]
    intro o member
    exact denoted.termAt_created numbered.topological numbered.interned (before o member)
      ((numbered.created_iff (before o member)).mpr (fresh o member))

end Preservation

namespace Serialize

/-- Every node of the decoded store is a record, and every record equals a
node. -/
theorem deserialize_records {data : List UInt8} {store : GraphStore}
    (decoded : deserialize data = .ok store) : ∃ records outs rest,
      Reader.blob data = .ok ((records, outs), rest) ∧ (∀ key ∈ store.nodes, key ∈ records) ∧
        ∀ record ∈ records, ∃ node ∈ store.nodes, node.eq record = true := by
  obtain ⟨rest, read⟩ := deserialize_ok_iff.mp decoded
  obtain ⟨records, outs, interned, created, blob, keys, marks⟩ := Reader.graph_ok_iff.mp read
  have numbered : Numbered records records.length interned created := by
    simpa using (numbered_new records).addKeys rfl keys
  obtain ⟨rfl, _⟩ := GraphStore.markOutputs_some marks
  refine ⟨records, outs, rest, blob, fun key member => ?_, fun record member => ?_⟩
  · obtain ⟨id, stored⟩ := List.mem_iff_getElem?.mp member
    obtain ⟨i, _, recorded⟩ := numbered.asked id key stored
    exact List.mem_of_getElem? recorded
  · obtain ⟨i, lookup⟩ := List.mem_iff_getElem?.mp member
    obtain ⟨_, node, _, stored, equal⟩ :=
      (numbered.placed i record (lookup_bound lookup) lookup).recorded
    exact ⟨node, List.mem_of_getElem? stored, equal⟩

/-- The decoded store is the graph that the records of the blob describe, with
inputs and outputs meant as positions of records. -/
def Describes (data : List UInt8) (store : GraphStore) : Prop :=
  ∃ records outs rest interned created, Reader.blob data = .ok ((records, outs), rest) ∧
    GraphStore.new.addKeys records = some (interned, created) ∧
    interned.markOutputs outs = some store ∧ Preserved records outs created store

/-- The references of a blob are not shifted by repeated records: what they name
has the same id as position. -/
def UnshiftedBlob (data : List UInt8) : Prop :=
  ∃ records outs rest, Reader.blob data = .ok ((records, outs), rest) ∧ Unshifted records outs

/-- A store describes the blob it was read from exactly when the blob shifts
nothing. -/
theorem describes_iff {data rest : List UInt8} {records : List NodeKey} {outs created : List NodeId}
    {interned store : GraphStore} (blob : Reader.blob data = .ok ((records, outs), rest))
    (keys : GraphStore.new.addKeys records = some (interned, created))
    (marks : interned.markOutputs outs = some store) :
    Describes data store ↔ Unshifted records outs := by
  have numbered : Numbered records records.length interned created := by
    simpa using (numbered_new records).addKeys rfl keys
  constructor
  · rintro ⟨records', outs', rest', interned', created', blob', keys', _, preserved⟩
    obtain ⟨⟨rfl, rfl⟩, rfl⟩ : (records = records' ∧ outs = outs') ∧ rest = rest' := by
      simpa using blob.symm.trans blob'
    obtain ⟨rfl, rfl⟩ : interned = interned' ∧ created = created' := by
      simpa using keys.symm.trans keys'
    exact (numbered.preserved_iff marks).mp preserved
  · intro unshifted
    exact ⟨records, outs, rest, interned, created, blob, keys, marks,
      (numbered.preserved_iff marks).mpr unshifted⟩

/-- The store decoded from an accepted blob is the graph that its records describe
exactly when no repeated record shifts a reference and no output is repeated.
References are positions of records, and are used as ids of the store. -/
theorem decoding_preserves_iff (data : List UInt8) (store : GraphStore)
    (decoded : deserialize data = .ok store) : Describes data store ↔ UnshiftedBlob data := by
  obtain ⟨rest, read⟩ := deserialize_ok_iff.mp decoded
  obtain ⟨records, outs, interned, created, blob, keys, marks⟩ := Reader.graph_ok_iff.mp read
  rw [describes_iff blob keys marks]
  constructor
  · intro unshifted
    exact ⟨records, outs, rest, blob, unshifted⟩
  · rintro ⟨records', outs', rest', blob', unshifted⟩
    obtain ⟨⟨rfl, rfl⟩, rfl⟩ : (records = records' ∧ outs = outs') ∧ rest = rest' := by
      simpa using blob.symm.trans blob'
    exact unshifted

/-- The records of two sources, and the second as output. -/
def sourcesBlob : List UInt8 :=
  serializeWith ⟨[.source "x" (.new []), .source "y" (.new [])], [], []⟩ [1]

/-- A blob of two sources and the second as its output. -/
theorem decoding_preserves_iff_of_sources :
    Describes sourcesBlob ⟨[.source "x" (.new []), .source "y" (.new [])],
      [(.source "y" (.new []), 1), (.source "x" (.new []), 0)], [1]⟩ ↔ UnshiftedBlob sourcesBlob :=
  decoding_preserves_iff _ _ (deserialize_ok_iff.mpr ⟨[], by rfl⟩)

/-- The records of two equal sources and a third one. The output is the second
record, and what is marked is the third. -/
def repeatedBlob : List UInt8 :=
  serializeWith ⟨[.source "x" (.new []), .source "x" (.new []), .source "y" (.new [])], [], []⟩ [1]

/-- The output of the decoded store is the third record, though the blob names the
second, which is the first once more. -/
theorem repeated_record_shifts : ∃ store, deserialize repeatedBlob = .ok store ∧
    ¬ Describes repeatedBlob store := by
  have blob : Reader.blob repeatedBlob = .ok (([.source "x" (.new []), .source "x" (.new []),
      .source "y" (.new [])], [1]), []) := by rfl
  have keys : GraphStore.new.addKeys [.source "x" (.new []), .source "x" (.new []),
      .source "y" (.new [])] = some (⟨[.source "x" (.new []), .source "y" (.new [])],
        [(.source "y" (.new []), 1), (.source "x" (.new []), 0)], []⟩, [0, 0, 1]) := by
    decide +kernel
  have marks : GraphStore.markOutputs [1] ⟨[.source "x" (.new []), .source "y" (.new [])],
      [(.source "y" (.new []), 1), (.source "x" (.new []), 0)], []⟩ =
        some ⟨[.source "x" (.new []), .source "y" (.new [])],
          [(.source "y" (.new []), 1), (.source "x" (.new []), 0)], [1]⟩ := by decide
  refine ⟨_, deserialize_ok_iff.mpr ⟨[], Reader.graph_ok_iff.mpr ⟨_, _, _, _, blob, keys, marks⟩⟩, ?_⟩
  intro describes
  exact absurd ((describes_iff blob keys marks).mp describes) (by decide)

end Serialize

end GraphedCore
