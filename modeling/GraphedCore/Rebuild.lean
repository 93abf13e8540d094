import GraphedCore.Optimizer
import GraphedCore.Interning
import GraphedCore.Lib.HashCons

/-!
# Re-interning a reduced list

Interning a topological list of keys into an empty store computes its quotient by
congruence of operators, and the remap sends a key to the place of its class.
When no two keys agree in operator and inputs the store holds the list itself.

Marking outputs keeps the first mark of every id. The marks are the request
exactly when the request has no repetition.
-/

namespace GraphedCore

open Dag Wired

/-- Congruence of operators, without rewriting. Interning merges by it and by
nothing else. -/
def operatorRules : Rules NodeKey NodeKey := plainRules NodeKey.operator NodeKey.operator_rewire

/-! ## Tables over a quotient -/

section Hits

variable {r : Nat → Nat → Prop} {arena : List NodeKey} {i : Nat} {table : List (NodeKey × NodeId)}

/-- A key that is looked up successfully agrees with the node found in operator
and in the classes of its inputs. -/
theorem source_of_hit (indexes : Table.Indexes NodeKey.eq table (quotient r (arena.take i)))
    (key : NodeKey) (ids : List NodeId) {id : NodeId} (arity : ids.length = key.inputs.length)
    (hit : Table.get? NodeKey.eq table (key.withInputs ids) = some id) :
    ∃ l source, l < i ∧ arena[l]? = some source ∧ id = place r l ∧
      source.operator = key.operator ∧ source.inputs.map (place r) = ids := by
  obtain ⟨item, stored, equal⟩ := (indexes _ id).mp hit
  obtain ⟨l, source, before, _, found, position, rfl⟩ := quotient_take_lookup stored
  obtain ⟨operators, inputs⟩ := (NodeKey.canon_eq_iff _ _).mp ((NodeKey.eq_iff _ _).mp equal)
  refine ⟨l, source, before, found, position, by simpa using operators, ?_⟩
  rw [NodeKey.inputs_withInputs key ids arity, ← NodeKey.wired_inputs, inputs_rewire] at inputs
  exact inputs

/-- A leader that agrees with a key in operator and classes of inputs is found. -/
theorem hit_of_source (indexes : Table.Indexes NodeKey.eq table (quotient r (arena.take i)))
    (key : NodeKey) (ids : List NodeId) (arity : ids.length = key.inputs.length) {l : Nat}
    {source : NodeKey} (before : l < i) (leads : IsLeader r l) (lookup : arena[l]? = some source)
    (operators : source.operator = key.operator) (reads : source.inputs.map (place r) = ids) :
    Table.get? NodeKey.eq table (key.withInputs ids) = some (place r l) := by
  refine (indexes _ _).mpr ⟨rewire (place r) source, quotient_take_stored before leads lookup, ?_⟩
  rw [NodeKey.eq_iff, NodeKey.canon_eq_iff, NodeKey.inputs_withInputs key ids arity, ← reads]
  exact ⟨by simpa using operators, inputs_rewire _ source⟩

end Hits

namespace GraphStore

/-- The store after `i` keys of the list: the quotient of these, with the map to
the places of their classes. -/
structure Rebuilding (keys : List NodeKey) (i : Nat) (store : GraphStore) (map : List NodeId) :
    Prop where
  interned : store.Interned
  nodes : store.nodes = quotient (Least operatorRules keys) (keys.take i)
  map : map = (List.range i).map (place (Least operatorRules keys))
  unmarked : store.outputs = []

variable {keys : List NodeKey} {i : Nat} {store : GraphStore} {map : List NodeId} {key : NodeKey}

/-- The ids of earlier nodes are known. -/
theorem Rebuilding.reads (rebuilding : Rebuilding keys i store map) (ids : List NodeId)
    (earlier : ∀ x ∈ ids, x < i) :
    ids.mapM (fun x => map[x]?) = some (ids.map (place (Least operatorRules keys))) := by
  apply Enumerate.mapM_complete
  intro x member
  simp [rebuilding.map, earlier x member]

/-- Interning the next key, over the places of what it reads. It is found when its
class was met, and appended otherwise. -/
theorem Rebuilding.step (rebuilding : Rebuilding keys i store map) (topological : Topological keys)
    (lookup : keys[i]? = some key) :
    ∃ id store', store.addKey (key.withInputs (key.inputs.map (place (Least operatorRules keys)))) =
        (.ok id, store') ∧ Rebuilding keys (i + 1) store' (map ++ [id]) := by
  have bound := lookup_bound lookup
  have arity : (key.inputs.map (place (Least operatorRules keys))).length = key.inputs.length :=
    List.length_map _
  have extended {id : NodeId} (places : place (Least operatorRules keys) i = id) :
      map ++ [id] = (List.range (i + 1)).map (place (Least operatorRules keys)) := by
    rw [List.range_succ, List.map_append, ← rebuilding.map, ← places]
    rfl
  rcases store.intern_cases (key.withInputs (key.inputs.map (place (Least operatorRules keys)))) with
    ⟨x, member, outside, _⟩ | ⟨inside, ⟨id, hit, did⟩ | ⟨absent, did⟩⟩
  · -- every input has a place among the classes begun so far
    obtain ⟨y, reads, rfl⟩ := List.mem_map.mp (NodeKey.mem_inputs_withInputs member)
    rw [rebuilding.nodes, quotient_length, List.length_take, Nat.min_eq_left bound.le] at outside
    have earlier := topological i key lookup y reads
    exact absurd (number_lt (leader_isLeader least_equivalence y)
      ((leader_le least_equivalence y).trans_lt earlier)) (Nat.not_lt_of_ge outside)
  · obtain ⟨l, source, before, found, rfl, operators, reads⟩ :=
      source_of_hit (rebuilding.nodes ▸ rebuilding.interned.found) key _ arity hit
    have related : Least operatorRules keys l i :=
      .of_inputs found lookup operators ((map_place_eq_iff least_equivalence _ _).mp reads)
    obtain ⟨follows, places⟩ := follower_of_related least_equivalence before related
    refine ⟨_, store, did, rebuilding.interned, ?_, extended places, rebuilding.unmarked⟩
    rw [quotient_take_follower lookup follows, rebuilding.nodes]
  · have leads : IsLeader (Least operatorRules keys) i := by
      by_contra follows
      obtain ⟨before, leads, related⟩ := leader_of_follower least_equivalence follows
      obtain ⟨source, found, operators, straight⟩ := plain_alike topological lookup related.symm
      have reads := (map_place_eq_iff least_equivalence _ _).mpr straight
      have hit := hit_of_source (rebuilding.nodes ▸ rebuilding.interned.found) key _ arity before
        leads found operators.symm reads.symm
      rw [GraphStore.lookup_eq, hit] at absent
      cases absent
    have position := place_fresh bound leads
    rw [← rebuilding.nodes] at position
    refine ⟨_, _, did, rebuilding.interned.push inside absent, ?_, extended position,
      rebuilding.unmarked⟩
    rw [quotient_take_leader lookup leads, ← rebuilding.nodes]
    rfl

/-- The loop over the nodes of a reduction, by induction on those that are
left. -/
theorem Rebuilding.run (rebuilding : Rebuilding keys i store map) (topological : Topological keys)
    (rest : List NodeKey) (split : keys.drop i = rest) :
    ∃ store' map', fromReducedNodes rest store map = some (store', map') ∧
      Rebuilding keys (i + rest.length) store' map' := by
  induction rest generalizing i store map with
  | nil => exact ⟨store, map, rfl, rebuilding⟩
  | cons key rest ih =>
    have lookup : keys[i]? = some key := by
      have first := congrArg List.head? split
      simpa [List.head?_drop] using first
    obtain ⟨id, next, did, rebuilding'⟩ := rebuilding.step topological lookup
    obtain ⟨final, map', ran, done⟩ := ih rebuilding' (by
      rw [← List.drop_drop, split]
      rfl)
    refine ⟨final, map', ?_, ?_⟩
    · simp only [fromReducedNodes, rebuilding.reads key.inputs (topological i key lookup),
        Option.bind_eq_bind, Option.bind_some, did, ran]
    · rwa [List.length_cons, Nat.add_comm rest.length, ← Nat.add_assoc]

/-! ## Marks -/

/-- The marks after marking the given ids in order, each once. -/
def marked (outputs ids : List NodeId) : List NodeId :=
  ids.foldl (fun outputs id => if id ∈ outputs then outputs else outputs ++ [id]) outputs

/-- What is marked in the end was marked before or is new, whatever the order. -/
theorem mem_marked (outputs ids : List NodeId) (o : NodeId) :
    o ∈ marked outputs ids ↔ o ∈ outputs ∨ o ∈ ids := by
  induction ids generalizing outputs with
  | nil => simp [marked]
  | cons id rest ih =>
    rw [marked, List.foldl_cons, ← marked, ih]
    split
    · rw [List.mem_cons]
      constructor
      · rintro (old | later)
        · exact Or.inl old
        · exact Or.inr (Or.inr later)
      · rintro (old | rfl | later)
        · exact Or.inl old
        · exact Or.inl (by assumption)
        · exact Or.inr later
    · simp [or_assoc]

/-- No output is marked twice. -/
theorem marked_nodup {outputs : List NodeId} (once : outputs.Nodup) (ids : List NodeId) :
    (marked outputs ids).Nodup := by
  induction ids generalizing outputs with
  | nil => exact once
  | cons id rest ih =>
    rw [marked, List.foldl_cons, ← marked]
    split
    · exact ih once
    · rename_i fresh
      refine ih (List.nodup_append.mpr ⟨once, List.nodup_singleton id, ?_⟩)
      rintro o old _ last rfl
      exact fresh (List.mem_singleton.mp last ▸ old)

/-- Distinct fresh ids are all marked, in order. -/
theorem marked_fresh {outputs ids : List NodeId} (once : (outputs ++ ids).Nodup) :
    marked outputs ids = outputs ++ ids := by
  induction ids generalizing outputs with
  | nil => simp [marked]
  | cons id rest ih =>
    have fresh : id ∉ outputs := fun old =>
      (List.nodup_append.mp once).2.2 id old id List.mem_cons_self rfl
    rw [marked, List.foldl_cons, if_neg fresh, ← marked, ih (by simpa using once)]
    simp

/-- As many marks as requests only when no request repeats. Repeated requests
share a mark. -/
theorem marked_length {ids : List NodeId} (all : (marked [] ids).length = ids.length) :
    ids.Nodup := by
  have same : (marked [] ids).Perm ids.dedup := by
    rw [List.perm_ext_iff_of_nodup (marked_nodup List.nodup_nil ids) (List.nodup_dedup ids)]
    intro o
    rw [mem_marked, List.mem_dedup]
    simp
  rw [same.length_eq] at all
  exact List.dedup_eq_self.mp ((List.dedup_sublist ids).eq_of_length all)

/-- Marking ids of the arena keeps the store interned. -/
theorem Interned.marked {store : GraphStore} (interned : store.Interned) {ids : List NodeId}
    (inside : ∀ o ∈ ids, o < store.nodes.length) :
    { store with outputs := marked store.outputs ids }.Interned where
  stored := interned.stored
  found := interned.found
  earlier := interned.earlier
  inside := by
    intro o member
    rcases (mem_marked _ _ o).mp member with old | fresh
    · exact interned.inside o old
    · exact inside o fresh
  once := marked_nodup interned.once ids

/-- The outputs of a reduction are marked at their ids, one after another, and
each once. -/
theorem fromReducedOutputs_complete (map ids found : List NodeId) (store : GraphStore)
    (reads : ids.map (map[·]?) = found.map some) (inside : ∀ id ∈ found, id < store.nodes.length) :
    fromReducedOutputs map ids store =
      some { store with outputs := marked store.outputs found } := by
  induction ids generalizing found store with
  | nil =>
    obtain rfl : found = [] := by simpa using reads.symm
    rfl
  | cons o rest ih =>
    cases found with
    | nil => simp at reads
    | cons id found =>
      obtain ⟨first, later⟩ : map[o]? = some id ∧ rest.map (map[·]?) = found.map some :=
        List.cons.inj reads
      have bound := inside id List.mem_cons_self
      have rest_inside : ∀ x ∈ found, x < store.nodes.length :=
        fun x member => inside x (List.mem_cons_of_mem id member)
      rcases store.markOutput_cases id with ⟨outside, _⟩ | ⟨_, ⟨old, did⟩ | ⟨fresh, did⟩⟩
      · exact absurd bound (Nat.not_lt_of_ge outside)
      · rw [fromReducedOutputs, first]
        simp only [Option.bind_eq_bind, Option.bind_some, did, ih found store later rest_inside,
          marked, List.foldl_cons, if_pos old]
      · have rest_marked := ih found { store with outputs := store.outputs ++ [id] } later rest_inside
        rw [fromReducedOutputs, first]
        simp only [Option.bind_eq_bind, Option.bind_some, did]
        rw [rest_marked]
        simp only [marked, List.foldl_cons, if_neg fresh]

/-- Rebuilding a topological list never panics. The store is the quotient of the
list by congruence of operators. -/
theorem fromReduced_complete {red : Reduced} (topological : Topological red.nodes)
    (inside : ∀ o ∈ red.outputs, o < red.nodes.length) :
    ∃ store, fromReduced red = some (store, red.report) ∧ store.Interned ∧
      store.nodes = quotient (Least operatorRules red.nodes) red.nodes ∧
      store.outputs = marked [] (red.outputs.map (place (Least operatorRules red.nodes))) := by
  have start : Rebuilding red.nodes 0 new [] :=
    ⟨interned_new, by simp [new, quotient, compact, pick_nil], rfl, rfl⟩
  obtain ⟨store, map, ran, done⟩ := start.run topological red.nodes rfl
  rw [Nat.zero_add] at done
  have nodes : store.nodes = quotient (Least operatorRules red.nodes) red.nodes := by
    rw [done.nodes, List.take_length]
  have reads : red.outputs.map (map[·]?) =
      (red.outputs.map (place (Least operatorRules red.nodes))).map some :=
    (Enumerate.mapM_eq_some_iff _ _ _).mp (done.reads red.outputs inside)
  have places : ∀ id ∈ red.outputs.map (place (Least operatorRules red.nodes)),
      id < store.nodes.length := by
    intro id member
    obtain ⟨o, present, rfl⟩ := List.mem_map.mp member
    rw [nodes, quotient_length]
    exact number_lt (leader_isLeader least_equivalence o)
      ((leader_le least_equivalence o).trans_lt (inside o present))
  have outs := fromReducedOutputs_complete map red.outputs _ store reads places
  refine ⟨⟨store.nodes, store.internTable,
    marked store.outputs (red.outputs.map (place (Least operatorRules red.nodes)))⟩,
    ?_, ?_, nodes, ?_⟩
  · simp only [fromReduced, ran, outs, Option.bind_eq_bind, Option.bind_some]
  · exact done.interned.marked places
  · rw [done.unmarked]

/-- A list of distinct keys is rebuilt as it stands: interning finds nothing to
merge. -/
theorem fromReduced_distinct {red : Reduced} (topological : Topological red.nodes)
    (inside : ∀ o ∈ red.outputs, o < red.nodes.length)
    (distinct : Distinct NodeKey.operator red.nodes) :
    ∃ store, fromReduced red = some (store, red.report) ∧ store.Interned ∧
      store.nodes = red.nodes ∧ store.outputs = marked [] red.outputs := by
  have discrete : Discrete (Least operatorRules red.nodes) red.nodes.length :=
    fun _ _ _ _ related => plain_discrete distinct related
  obtain ⟨store, rebuilt, interned, nodes, outs⟩ := fromReduced_complete topological inside
  refine ⟨store, rebuilt, interned, ?_, ?_⟩
  · rw [nodes, discrete.quotient least_equivalence topological]
  · rw [outs]
    congr 1
    conv_rhs => rw [← List.map_id red.outputs]
    exact List.map_congr_left (fun o member => discrete.place least_equivalence (inside o member))

/-- The rebuilt store is a matter of the nodes and the outputs. The report does
not enter it. -/
theorem fromReduced_store_eq {red red' : Reduced} {store store' : GraphStore}
    {report report' : ReductionReport} (nodes : red'.nodes = red.nodes)
    (outputs : red'.outputs = red.outputs) (rebuilt : fromReduced red = some (store, report))
    (rebuilt' : fromReduced red' = some (store', report')) : store' = store := by
  rw [fromReduced] at rebuilt rebuilt'
  rw [nodes, outputs] at rebuilt'
  cases first : fromReducedNodes red.nodes new [] with
  | none => simp [first] at rebuilt
  | some result =>
    cases second : fromReducedOutputs result.2 red.outputs result.1 with
    | none => simp [first, second] at rebuilt
    | some final =>
      simp only [first, second, Option.bind_eq_bind, Option.bind_some, Option.some.injEq,
        Prod.mk.injEq] at rebuilt rebuilt'
      rw [← rebuilt.1, ← rebuilt'.1]

end GraphStore

end GraphedCore
