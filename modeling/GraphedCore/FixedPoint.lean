import GraphedCore.Incremental
import GraphedCore.Rebuild

/-!
# One pass per node reaches the rewrite fixpoint

The rules speak of keys: two keys of one operator with related inputs are
related, a parameterless symmetric op also when its two inputs are related after
swapping, and an op carrying an identity token is related to its single input.

The reducer looks at every key once. Its map sends a node to the place of its
class in the least congruence closed under these rules, and its canonical arena
is the quotient by that congruence.
-/

namespace GraphedCore

open Dag Wired

/-- A parameterless op of the symmetric vocabulary. Its arity is not part of the
operator. -/
def SymmetricOperator (operator : NodeKey) : Prop :=
  ∃ name params inputs, operator = .op name params inputs ∧ params.isEmpty = true ∧
    name ∈ symmetricOps

/-- An op that carries an identity token. The reducer looks at the token alone and
takes the first input. -/
def IdentityOperator (operator : NodeKey) : Prop :=
  ∃ name params inputs, operator = .op name params inputs ∧ operator.token ∈ identityTokens

/-- The rewrite rules over recorded keys: operators are compared with their
parameters, symmetric ones commute and identities are dropped. -/
def nodeRules : Rules NodeKey NodeKey where
  label := NodeKey.operator
  commutes := SymmetricOperator
  drops := IdentityOperator
  label_rewire f key := NodeKey.operator_rewire f key

/-- Being symmetric is a matter of the operator, not of the inputs. -/
theorem symmetricOperator_iff (key : NodeKey) :
    SymmetricOperator key.operator ↔ SymmetricOperator key := by
  cases key with
  | op name params inputs =>
    simp [SymmetricOperator, NodeKey.operator, NodeKey.canon, NodeKey.withInputs,
      ParamMap.isEmpty_canon]
  | _ => simp [SymmetricOperator, NodeKey.operator, NodeKey.canon, NodeKey.withInputs]

/-- Being an identity is a matter of the operator, not of the inputs. -/
theorem identityOperator_iff (key : NodeKey) :
    IdentityOperator key.operator ↔ IdentityOperator key := by
  rw [IdentityOperator, IdentityOperator, NodeKey.token_operator]
  cases key <;> simp [NodeKey.operator, NodeKey.canon, NodeKey.withInputs]

/-- Every op that carries an identity token has exactly one input. The frontend
records them so, but the core does not check it. -/
def UnaryIdentities (nodes : List NodeKey) : Prop :=
  ∀ key ∈ nodes, IdentityOperator key → key.inputs.length = 1

instance (operator : NodeKey) : Decidable (IdentityOperator operator) :=
  match operator with
  | .op name params inputs =>
    decidable_of_iff ((NodeKey.op name params inputs).token ∈ identityTokens)
      ⟨fun carried => ⟨name, params, inputs, rfl, carried⟩, fun ⟨_, _, _, _, carried⟩ => carried⟩
  | .source _ _ | .reduction _ _ _ | .external _ _ _ | .stage _ _ =>
    isFalse (by simp [IdentityOperator])

instance (nodes : List NodeKey) : Decidable (UnaryIdentities nodes) :=
  inferInstanceAs (Decidable (∀ key ∈ nodes, IdentityOperator key → key.inputs.length = 1))

namespace IncrementalReducer

/-- The reducer after it has consumed `i` keys of an arena: the map sends a key to
the place of its class, and the canonical arena is the quotient so far. -/
structure Canonical (arena : List NodeKey) (i : Nat) (reducer : IncrementalReducer) : Prop where
  map : reducer.map = (List.range i).map (place (Least nodeRules arena))
  nodes : reducer.canonNodes = quotient (Least nodeRules arena) (arena.take i)
  table : Table.Indexes NodeKey.eq reducer.canonTable reducer.canonNodes

/-- Nothing has been consumed, and the quotient of nothing is empty. -/
theorem canonical_new (arena : List NodeKey) : Canonical arena 0 new where
  map := rfl
  nodes := by simp [new, quotient, compact, pick_nil]
  table := Table.indexes_nil

/-! ## What one call does -/

section Steps

variable {τ : Type} [Table.Keyed NodeKey NodeId τ] {reducer : IncrementalReducer τ} {key : NodeKey}

/-- The id under which the canonical arena holds a key, as the table answers
it. -/
def lookup (reducer : IncrementalReducer τ) (key : NodeKey) : Option NodeId :=
  Table.Keyed.get? reducer.canonTable key

/-- The reducer after appending an absent key. The map grows only when the node is
consumed. -/
def push (reducer : IncrementalReducer τ) (key : NodeKey) : IncrementalReducer τ :=
  { reducer with
    canonNodes := reducer.canonNodes ++ [key]
    canonTable := Table.Keyed.insert reducer.canonTable key reducer.canonNodes.length }

/-- A stored key answers its id and leaves the reducer as it was. -/
theorem hashCons_hit {id : NodeId} (stored : reducer.lookup key = some id) :
    reducer.hashCons key = (id, reducer) := by
  rw [lookup] at stored
  simp [hashCons, stored]

/-- A missing key is appended and answers its place at the end of the canonical
arena. -/
theorem hashCons_miss (absent : reducer.lookup key = none) :
    reducer.hashCons key = (reducer.canonNodes.length, reducer.push key) := by
  rw [lookup] at absent
  simp [hashCons, absent, push]

/-- The orientation that was asked for comes before the swapped one. -/
theorem findSymmetric_eq (reducer : IncrementalReducer τ) (key : NodeKey) (a b : NodeId) :
    reducer.findSymmetric key a b =
      (reducer.lookup key).or (reducer.lookup (key.withInputs [b, a])) := by
  rw [findSymmetric, lookup, lookup]
  cases Table.Keyed.get? reducer.canonTable key <;> rfl

/-- An identity op of one input answers that input. -/
theorem canonicalize_identity (reducer : IncrementalReducer τ) {name : String} {params : ParamMap}
    {a : NodeId} (carried : (NodeKey.op name params [a]).token ∈ identityTokens) :
    reducer.canonicalize (.op name params [a]) = some (a, reducer) := by
  simp [canonicalize, carried]

/-- A symmetric op answers the stored orientation, or is hash-consed. -/
theorem canonicalize_symmetric (reducer : IncrementalReducer τ) {name : String} {params : ParamMap}
    {a b : NodeId} (plain : (NodeKey.op name params [a, b]).token ∉ identityTokens)
    (empty : params.isEmpty = true) (known : name ∈ symmetricOps) :
    reducer.canonicalize (.op name params [a, b]) =
      some ((reducer.findSymmetric (.op name params [a, b]) a b).elim
        (reducer.hashCons (.op name params [a, b])) (fun id => (id, reducer))) := by
  cases found : reducer.findSymmetric (.op name params [a, b]) a b <;>
    simp [canonicalize, plain, empty, known, found]

/-- Any other key is hash-consed as it stands: no rule of the reducer applies to
it. -/
theorem canonicalize_plain (reducer : IncrementalReducer τ) {key : NodeKey}
    (plain : ¬ IdentityOperator key)
    (asymmetric : ¬ (SymmetricOperator key ∧ ∃ a b, key.inputs = [a, b])) :
    reducer.canonicalize key = some (reducer.hashCons key) := by
  cases key with
  | op name params inputs =>
    have token : (NodeKey.op name params inputs).token ∉ identityTokens :=
      fun carried => plain ⟨name, params, inputs, rfl, carried⟩
    match inputs with
    | [a, b] =>
      have unknown : ¬ (params.isEmpty = true ∧ name ∈ symmetricOps) := fun both =>
        asymmetric ⟨⟨name, params, [a, b], rfl, both⟩, a, b, rfl⟩
      simp only [canonicalize, List.contains_iff_mem, token, if_false, Bool.and_eq_true, unknown]
    | [] | [_] | _ :: _ :: _ :: _ => simp [canonicalize, token]
  | _ => rfl

end Steps

/-- A list is searched from its head. -/
theorem lookup_eq (reducer : IncrementalReducer) (key : NodeKey) :
    reducer.lookup key = Table.get? NodeKey.eq reducer.canonTable key := rfl

variable {arena : List NodeKey} {i : Nat} {reducer : IncrementalReducer} {key : NodeKey}

/-- Ids that the map all knows are translated one by one. -/
theorem translate_eq {map ids found : List NodeId} (reads : ids.map (map[·]?) = found.map some) :
    translate map ids = .ok found := by
  induction ids generalizing found with
  | nil =>
    obtain rfl : found = [] := by simpa using reads.symm
    rfl
  | cons x xs ih =>
    cases found with
    | nil => simp at reads
    | cons y ys =>
      obtain ⟨first, rest⟩ : map[x]? = some y ∧ xs.map (map[·]?) = ys.map some :=
        List.cons.inj reads
      have later : translate map xs = .ok ys := ih rest
      rw [translate] at later ⊢
      rw [List.mapM_cons, first, later]
      rfl

/-- Earlier ids are translated to the places of their classes, since all of them
were consumed. -/
theorem Canonical.translate (canonical : Canonical arena i reducer) (ids : List NodeId)
    (earlier : ∀ x ∈ ids, x < i) :
    IncrementalReducer.translate reducer.map ids =
      .ok (ids.map (place (Least nodeRules arena))) := by
  apply translate_eq
  rw [canonical.map, List.map_map]
  apply List.map_congr_left
  intro x member
  simp [earlier x member]

/-- The table knows the quotient of what was consumed, so a lookup finds a class
exactly when it was met. -/
theorem Canonical.indexes (canonical : Canonical arena i reducer) : Table.Indexes NodeKey.eq
    reducer.canonTable (quotient (Least nodeRules arena) (arena.take i)) :=
  canonical.nodes ▸ canonical.table

/-- A hit under the translated key of the node at hand: the node has the place of
an earlier related one, and the arena stays. -/
theorem Canonical.keep (canonical : Canonical arena i reducer) (lookup : arena[i]? = some key)
    {j : Nat} (before : j < i) (related : Least nodeRules arena j i) :
    Canonical arena (i + 1)
      { reducer with map := reducer.map ++ [place (Least nodeRules arena) j] } := by
  obtain ⟨follows, same⟩ := follower_of_related least_equivalence before related
  refine ⟨?_, ?_, canonical.table⟩
  · rw [List.range_succ, List.map_append, ← canonical.map, ← same]
    rfl
  · rw [quotient_take_follower lookup follows]
    exact canonical.nodes

/-- Two nodes of one operator over inputs of the same classes are related. Places
stand for classes here. -/
theorem related_of_inputs {l : Nat} {source : NodeKey} (found : arena[l]? = some source)
    (lookup : arena[i]? = some key) (operators : source.operator = key.operator)
    (reads : source.inputs.map (place (Least nodeRules arena)) =
      key.inputs.map (place (Least nodeRules arena))) :
    Least nodeRules arena l i :=
  .of_inputs found lookup operators ((map_place_eq_iff least_equivalence _ _).mp reads)

/-- Hash-consing the translated key of a node that no identity rule applies to,
once no swapped twin is stored. -/
theorem Canonical.hashCons (canonical : Canonical arena i reducer) (topological : Topological arena)
    (lookup : arena[i]? = some key) (plain : ¬ IdentityOperator key)
    (untwisted : SymmetricOperator key → ∀ a b, key.inputs = [a, b] →
      Table.get? NodeKey.eq reducer.canonTable
        (key.withInputs [place (Least nodeRules arena) b, place (Least nodeRules arena) a]) =
        none) :
    ∃ id reducer', reducer.hashCons (rewire (place (Least nodeRules arena)) key) = (id, reducer') ∧
      Canonical arena (i + 1) { reducer' with map := reducer'.map ++ [id] } := by
  have arity : (key.inputs.map (place (Least nodeRules arena))).length = key.inputs.length :=
    List.length_map _
  cases stored : Table.get? NodeKey.eq reducer.canonTable
      (rewire (place (Least nodeRules arena)) key) with
  | some id =>
    refine ⟨id, reducer, hashCons_hit stored, ?_⟩
    obtain ⟨l, source, before, found, rfl, operators, reads⟩ :=
      source_of_hit canonical.indexes key _ arity stored
    exact canonical.keep lookup before (related_of_inputs found lookup operators reads)
  | none =>
    -- a missing key leads its class: an earlier leader would be a twin and stored
    have leads : IsLeader (Least nodeRules arena) i := by
      by_contra follows
      obtain ⟨before, leads, related⟩ := leader_of_follower least_equivalence follows
      have free : ¬ Collapsed nodeRules (fun _ _ => True) arena i := by
        rintro ⟨node, a, found, drops, _⟩
        obtain rfl := Option.some.inj (lookup.symm.trans found)
        exact plain ((identityOperator_iff key).mp drops)
      obtain ⟨other, source, first, found, operators, shape⟩ :=
        (related.symm.twin topological free (leader_not_collapsed topological i)).alike lookup
      obtain rfl := Option.some.inj (lookup.symm.trans first)
      rcases shape with straight | ⟨commutes, a, b, c, d, left, right, ad, bc⟩
      · have reads := (map_place_eq_iff least_equivalence _ _).mpr straight
        have hit := hit_of_source canonical.indexes key _ arity before leads found operators.symm
          reads.symm
        rw [← NodeKey.wired_rewire, stored] at hit
        cases hit
      · have twisted := untwisted ((symmetricOperator_iff key).mp commutes) a b left
        have both : key.inputs = [a, b] := left
        have hit := hit_of_source canonical.indexes key [place (Least nodeRules arena) b,
          place (Least nodeRules arena) a] (by simp [both]) before leads found operators.symm (by
            have reads : source.inputs = [c, d] := right
            rw [reads, List.map_cons, List.map_cons, List.map_nil,
              (place_eq_iff least_equivalence).mpr ad, (place_eq_iff least_equivalence).mpr bc])
        rw [twisted] at hit
        cases hit
    refine ⟨reducer.canonNodes.length, _, hashCons_miss stored, ?_⟩
    have position := place_fresh (lookup_bound lookup) leads
    rw [← canonical.nodes] at position
    refine ⟨?_, ?_, ?_⟩
    · rw [List.range_succ, List.map_append, ← canonical.map, ← position]
      rfl
    · rw [quotient_take_leader lookup leads, ← canonical.nodes]
      rfl
    · exact canonical.table.snoc NodeKey.compares stored

/-- An identity op is mapped to what its input is mapped to, and nothing is stored
for it. -/
theorem Canonical.identity (canonical : Canonical arena i reducer) (topological : Topological arena)
    (lookup : arena[i]? = some key) (identity : IdentityOperator key)
    (single : key.inputs.length = 1) :
    ∃ id reducer', reducer.canonicalize (rewire (place (Least nodeRules arena)) key) =
      some (id, reducer') ∧
      Canonical arena (i + 1) { reducer' with map := reducer'.map ++ [id] } := by
  obtain ⟨name, params, inputs, rfl, carried⟩ := identity
  obtain ⟨a, rfl⟩ : ∃ a, inputs = [a] := List.length_eq_one_iff.mp single
  refine ⟨place (Least nodeRules arena) a, reducer, reducer.canonicalize_identity carried, ?_⟩
  have earlier : a < i := topological i _ lookup a (by simp [NodeKey.inputs])
  have drops : Least nodeRules arena i a :=
    .drop lookup ((identityOperator_iff _).mpr ⟨name, params, [a], rfl, carried⟩) rfl True.intro
  exact canonical.keep lookup earlier drops.symm

/-- A symmetric op of two inputs is looked up in both orientations before it is
stored. -/
theorem Canonical.symmetric {a b : NodeId} (canonical : Canonical arena i reducer)
    (topological : Topological arena) (lookup : arena[i]? = some key)
    (other : ¬ IdentityOperator key) (symmetric : SymmetricOperator key)
    (shape : key.inputs = [a, b]) :
    ∃ id reducer', reducer.canonicalize (rewire (place (Least nodeRules arena)) key) =
      some (id, reducer') ∧
      Canonical arena (i + 1) { reducer' with map := reducer'.map ++ [id] } := by
  obtain ⟨name, params, inputs, rfl, empty, known⟩ := symmetric
  obtain rfl : inputs = [a, b] := shape
  have token : (NodeKey.op name params [place (Least nodeRules arena) a,
      place (Least nodeRules arena) b]).token ∉ identityTokens :=
    fun carried => other ⟨name, params, [a, b], rfl, carried⟩
  have answer := reducer.canonicalize_symmetric token empty known
  cases straight : Table.get? NodeKey.eq reducer.canonTable (.op name params
      [place (Least nodeRules arena) a, place (Least nodeRules arena) b]) with
  | some id =>
    refine ⟨id, reducer, answer.trans (by simp [findSymmetric_eq, lookup_eq, straight]), ?_⟩
    obtain ⟨l, source, before, stored, rfl, operators, reads⟩ :=
      source_of_hit canonical.indexes (.op name params [a, b])
        [place (Least nodeRules arena) a, place (Least nodeRules arena) b] rfl straight
    exact canonical.keep lookup before (related_of_inputs stored lookup operators reads)
  | none =>
    cases swapped : Table.get? NodeKey.eq reducer.canonTable (.op name params
        [place (Least nodeRules arena) b, place (Least nodeRules arena) a]) with
    | some id =>
      refine ⟨id, reducer, answer.trans (by
        simp [findSymmetric_eq, lookup_eq, straight, NodeKey.withInputs, swapped]), ?_⟩
      obtain ⟨l, source, before, stored, rfl, operators, reads⟩ :=
        source_of_hit canonical.indexes (.op name params [a, b])
          [place (Least nodeRules arena) b, place (Least nodeRules arena) a] rfl swapped
      obtain ⟨c, d, sourceInputs, cb, da⟩ := forall₂_pair
        ((map_place_eq_iff least_equivalence source.inputs [b, a]).mp reads)
      have commutes : SymmetricOperator source.operator := by
        rw [operators]
        exact (symmetricOperator_iff _).mpr ⟨name, params, [a, b], rfl, empty, known⟩
      exact canonical.keep lookup before
        (.swap stored lookup operators commutes sourceInputs rfl cb da True.intro)
    | none =>
      obtain ⟨id, reducer', hashes, next⟩ :=
        canonical.hashCons topological lookup other (by
          intro _ a' b' shape'
          obtain ⟨rfl, rfl⟩ : a = a' ∧ b = b' := by simpa [NodeKey.inputs] using shape'
          exact swapped)
      refine ⟨id, reducer', answer.trans ?_, next⟩
      rw [findSymmetric_eq, lookup_eq, straight, lookup_eq, NodeKey.withInputs, swapped]
      exact congrArg some hashes

/-- Canonicalizing the translated key of the next node of an arena. The cases are
those of the program: an identity op, a symmetric op that is stored in one of its
orientations, and a key that is hash-consed as it stands. -/
theorem Canonical.canonicalize (canonical : Canonical arena i reducer)
    (topological : Topological arena) (unary : UnaryIdentities arena)
    (lookup : arena[i]? = some key) :
    ∃ id reducer', reducer.canonicalize (rewire (place (Least nodeRules arena)) key) =
      some (id, reducer') ∧
      Canonical arena (i + 1) { reducer' with map := reducer'.map ++ [id] } := by
  by_cases identity : IdentityOperator key
  · exact canonical.identity topological lookup identity
      (unary key (List.mem_of_getElem? lookup) identity)
  · have plain : ¬ IdentityOperator (rewire (place (Least nodeRules arena)) key) := by
      rwa [← identityOperator_iff, NodeKey.operator_rewire, identityOperator_iff]
    by_cases symmetric : SymmetricOperator key ∧ ∃ a b, key.inputs = [a, b]
    · obtain ⟨commutes, a, b, shape⟩ := symmetric
      exact canonical.symmetric topological lookup identity commutes shape
    · obtain ⟨id, reducer', hashes, next⟩ := canonical.hashCons topological lookup identity
        (fun commutes a b shape => absurd ⟨commutes, a, b, shape⟩ symmetric)
      refine ⟨id, reducer', ?_, next⟩
      rw [reducer.canonicalize_plain plain, hashes]
      rintro ⟨commutes, a, b, shape⟩
      rw [← symmetricOperator_iff, NodeKey.operator_rewire, symmetricOperator_iff] at commutes
      have arity := congrArg List.length shape
      rw [← NodeKey.wired_inputs, inputs_rewire, List.length_map] at arity
      obtain ⟨c, d, pair⟩ := List.length_eq_two.mp arity
      exact symmetric ⟨commutes, c, d, pair⟩

/-! ## Runs -/

/-- Consuming the rest of an arena, by induction on it. Each node meets the
reducer that those before have left. -/
theorem Canonical.consume (canonical : Canonical arena i reducer)
    (topological : Topological arena) (unary : UnaryIdentities arena) (delta rest : List NodeKey)
    (split : arena.drop i = delta ++ rest) :
    ∃ reducer', IncrementalReducer.consume delta reducer = some (.ok (), reducer') ∧
      Canonical arena (i + delta.length) reducer' := by
  induction delta generalizing i reducer with
  | nil => exact ⟨reducer, rfl, canonical⟩
  | cons key delta ih =>
    have lookup : arena[i]? = some key := by
      have first := congrArg List.head? split
      simpa [List.head?_drop] using first
    have reads := canonical.translate key.inputs (topological i key lookup)
    obtain ⟨id, next, did, canonical'⟩ := canonical.canonicalize topological unary lookup
    have shorter : arena.drop (i + 1) = delta ++ rest := by
      rw [← List.drop_drop, split]
      rfl
    obtain ⟨final, consumed, done⟩ := ih canonical' shorter
    refine ⟨final, ?_, ?_⟩
    · rw [NodeKey.wired_rewire] at did
      simp [IncrementalReducer.consume, reads, did, consumed]
    · rwa [List.length_cons, Nat.add_comm delta.length, ← Nat.add_assoc]

/-- Step over the deltas one after another. An error or a panic ends the run. -/
def steps (reducer : IncrementalReducer) (deltas : List (List NodeKey)) :
    Option (Except BadNodeId IncrementalReducer) :=
  match deltas with
  | [] => some (.ok reducer)
  | delta :: rest =>
    match reducer.step delta with
    | none => none
    | some (.error bad, _) => some (.error bad)
    | some (.ok _, reducer) => reducer.steps rest

/-- Any deltas that make up the rest of the arena are consumed, by induction on
them. -/
theorem Canonical.steps (canonical : Canonical arena i reducer) (topological : Topological arena)
    (unary : UnaryIdentities arena) (deltas : List (List NodeKey))
    (split : arena.drop i = deltas.flatten) :
    ∃ reducer', reducer.steps deltas = some (.ok reducer') ∧
      Canonical arena (i + deltas.flatten.length) reducer' := by
  induction deltas generalizing i reducer with
  | nil => exact ⟨reducer, rfl, canonical⟩
  | cons delta deltas ih =>
    obtain ⟨next, consumed, canonical'⟩ :=
      canonical.consume topological unary delta deltas.flatten split
    have counted : Canonical arena (i + delta.length)
        { next with totalWork := next.totalWork + delta.length } :=
      ⟨canonical'.map, canonical'.nodes, canonical'.table⟩
    have shorter : arena.drop (i + delta.length) = deltas.flatten := by
      rw [← List.drop_drop, split, List.flatten_cons, List.drop_left]
    obtain ⟨final, ran, done⟩ := ih counted shorter
    refine ⟨final, ?_, ?_⟩
    · simp [IncrementalReducer.steps, IncrementalReducer.step, consumed, ran]
    · rwa [List.flatten_cons, List.length_append, ← Nat.add_assoc]

/-- A reducer stepped over any split of an arena holds the quotient of it. How the
arena is cut does not show. -/
theorem canonical_steps {arena : List NodeKey} (topological : Topological arena)
    (unary : UnaryIdentities arena) {deltas : List (List NodeKey)} (split : deltas.flatten = arena) :
    ∃ reducer, new.steps deltas = some (.ok reducer) ∧ Canonical arena arena.length reducer := by
  obtain ⟨reducer, ran, canonical⟩ := (canonical_new arena).steps topological unary deltas
    (by rw [List.drop_zero, split])
  exact ⟨reducer, ran, by rwa [Nat.zero_add, split] at canonical⟩

/-- An id that was consumed is mapped to the place of its class, however long
ago. -/
theorem Canonical.map_getElem? (canonical : Canonical arena i reducer) {j : Nat} (inside : j < i) :
    reducer.map[j]? = some (place (Least nodeRules arena) j) := by
  simp [canonical.map, inside]

/-- After any deltas that make up the arena, the map relates exactly the nodes
that the least congruence closed under the rules relates. There are as many
canonical nodes as classes, and the canonical node of a class is the operator of
its earliest member over that member's mapped inputs. -/
theorem map_eq_iff_least (arena : List NodeKey) (topological : Topological arena)
    (unary : UnaryIdentities arena) (deltas : List (List NodeKey))
    (split : deltas.flatten = arena) :
    ∃ reducer, new.steps deltas = some (.ok reducer) ∧
      (∀ i j, i < arena.length → j < arena.length →
        (reducer.map[i]? = reducer.map[j]? ↔ Least nodeRules arena i j)) ∧
      reducer.canonicalCount =
        Nat.card (Quot (fun i j : Fin arena.length => Least nodeRules arena i j)) ∧
      (∀ i earliest key, i < arena.length → Least nodeRules arena earliest i →
        (∀ j, Least nodeRules arena j i → earliest ≤ j) → arena[earliest]? = some key →
        ∃ id ids, reducer.map[i]? = some id ∧
          key.inputs.mapM (fun x => reducer.map[x]?) = some ids ∧
          reducer.canonNodes[id]? = some (key.withInputs ids)) := by
  obtain ⟨reducer, ran, canonical⟩ := canonical_steps topological unary split
  refine ⟨reducer, ran, ?_, ?_, ?_⟩
  · intro i j inside inside'
    rw [canonical.map_getElem? inside, canonical.map_getElem? inside', Option.some.injEq]
    exact place_eq_iff least_equivalence
  · rw [canonicalCount, canonical.nodes, List.take_length, quotient_length]
    exact number_leaders least_equivalence _
  · intro i earliest key inside related least lookup
    have leads : leader (Least nodeRules arena) i = earliest :=
      Nat.le_antisymm (leader_le_of_related related)
        (least _ (leader_related least_equivalence i))
    have same : place (Least nodeRules arena) i = place (Least nodeRules arena) earliest :=
      (place_eq_iff least_equivalence).mpr related.symm
    have stored := quotient_take_stored (lookup_bound lookup)
      (leads ▸ leader_isLeader least_equivalence i) lookup
    refine ⟨_, _, canonical.map_getElem? inside, Enumerate.mapM_complete _
      (place (Least nodeRules arena)) _ (fun x member => ?_), ?_⟩
    · exact canonical.map_getElem? ((topological earliest key lookup x member).trans
        (lookup_bound lookup))
    · rw [canonical.nodes, same]
      exact stored

/-- Twins recorded in one delta, and an identity op over the second in another. -/
theorem map_eq_iff_least_of_twins :
    ∃ reducer, new.steps
        [[.source "x" (.new []), .source "y" (.new []), .op "add" (.new []) [0, 1]], [],
          [.op "add" (.new []) [1, 0],
            .op "mul" (.new [("scalar", .float 0x3ff0000000000000), ("side", .str "r")]) [3]]] =
        some (.ok reducer) ∧
      (reducer.map[4]? = reducer.map[2]? ↔ Least nodeRules
        [.source "x" (.new []), .source "y" (.new []), .op "add" (.new []) [0, 1],
          .op "add" (.new []) [1, 0],
          .op "mul" (.new [("scalar", .float 0x3ff0000000000000), ("side", .str "r")]) [3]] 4 2) := by
  obtain ⟨reducer, ran, related, _⟩ := map_eq_iff_least
    [.source "x" (.new []), .source "y" (.new []), .op "add" (.new []) [0, 1],
      .op "add" (.new []) [1, 0],
      .op "mul" (.new [("scalar", .float 0x3ff0000000000000), ("side", .str "r")]) [3]]
    (by decide) (by decide +kernel)
    [[.source "x" (.new []), .source "y" (.new []), .op "add" (.new []) [0, 1]], [],
      [.op "add" (.new []) [1, 0],
        .op "mul" (.new [("scalar", .float 0x3ff0000000000000), ("side", .str "r")]) [3]]] rfl
  exact ⟨reducer, ran, related 4 2 (by decide) (by decide)⟩

end IncrementalReducer

end GraphedCore
