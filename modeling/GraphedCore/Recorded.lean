import GraphedCore.FixedPoint
import GraphedCore.Meaning

/-!
# Recorded arenas and the rules of the engine

A store that is only recorded into holds the keys that were asked for, so a
property of every requested key is a property of every node.

The engine applies its rules to tokens and the reducer to keys. A token tells
whether its key is a symmetric or an identity op, and between sources, ops and
reductions it is the operator. There the live graph is a copy of the part of the
arena that the outputs reach, and both rule sets relate the same nodes.
-/

namespace GraphedCore

open Dag Wired

namespace Call

/-- A call that records sources, ops and reductions, or marks an output. It brings
neither payloads nor stages. -/
def IsPlain (call : Call) : Prop := ∀ key, call.key? = some key → key.IsPlain

instance (call : Call) : Decidable call.IsPlain :=
  match asked : call.key? with
  | none => isTrue (by simp [IsPlain, asked])
  | some key => decidable_of_iff key.IsPlain (by simp [IsPlain, asked])

/-- A node of the store after a call was there before, or the call asked for it
and was granted an id. -/
theorem mem_perform_granted {store : GraphStore} {call : Call} {key : NodeKey}
    (member : key ∈ (call.perform store).2.nodes) :
    key ∈ store.nodes ∨ call.key? = some key ∧ ∃ id, (call.perform store).1 = .node id := by
  rcases perform_cases store call with ⟨asked, asks, performed⟩ | ⟨id, _, performed⟩
  · rw [performed, answerNode_store] at member
    rcases store.intern_cases asked with ⟨_, _, _, did⟩ | ⟨_, ⟨_, _, did⟩ | ⟨_, did⟩⟩
    · exact Or.inl (by rwa [did] at member)
    · exact Or.inl (by rwa [did] at member)
    · rw [did, GraphStore.push] at member
      rcases List.mem_append.mp member with old | fresh
      · exact Or.inl old
      · exact Or.inr ⟨List.mem_singleton.mp fresh ▸ asks, _, by rw [performed, did, answerNode]⟩
  · rw [performed, answerMark_store] at member
    rcases store.markOutput_cases id with ⟨_, did⟩ | ⟨_, ⟨_, did⟩ | ⟨_, did⟩⟩ <;>
      exact Or.inl (by rwa [did] at member)

/-- A call adds at most the key that it asks for. -/
theorem mem_perform_nodes {store : GraphStore} {call : Call} {key : NodeKey}
    (member : key ∈ (call.perform store).2.nodes) :
    key ∈ store.nodes ∨ call.key? = some key :=
  (mem_perform_granted member).imp_right And.left

/-- Every node was asked for. -/
theorem mem_run_nodes {store : GraphStore} {calls : List Call} {key : NodeKey}
    (member : key ∈ (run store calls).nodes) :
    key ∈ store.nodes ∨ ∃ call ∈ calls, call.key? = some key := by
  induction calls generalizing store with
  | nil => exact Or.inl member
  | cons call rest ih =>
    rcases ih member with before | ⟨later, listed, asks⟩
    · rcases mem_perform_nodes before with old | asks
      · exact Or.inl old
      · exact Or.inr ⟨call, List.mem_cons_self, asks⟩
    · exact Or.inr ⟨later, List.mem_cons_of_mem call listed, asks⟩

/-- A run of plain calls records plain keys. -/
theorem plain_run {calls : List Call} (plain : ∀ call ∈ calls, call.IsPlain) :
    ∀ key ∈ (run .new calls).nodes, key.IsPlain := by
  intro key member
  rcases mem_run_nodes member with none | ⟨call, listed, asks⟩
  · simp [GraphStore.new] at none
  · exact plain call listed key asks

end Call

namespace NodeKey

/-- A plain key is no stage. -/
theorem IsPlain.free {key : NodeKey} (plain : key.IsPlain) : ¬ key.IsStage := by
  cases key <;> simp_all [IsPlain, IsStage]

/-- Being plain is a matter of the operator. -/
theorem IsPlain.of_operator {key other : NodeKey} (plain : key.IsPlain)
    (operators : key.operator = other.operator) : other.IsPlain := by
  cases key <;> cases other <;> simp_all [IsPlain, operator, canon, withInputs]

/-! ## What a token tells -/

/-- What is no boundary is an op. -/
theorem isBoundary_false {key : NodeKey} (inner : key.isBoundary = false) :
    ∃ name params inputs, key = .op name params inputs := by
  cases key with
  | op name params inputs => exact ⟨name, params, inputs, rfl⟩
  | _ => cases inner

/-- No identity token is the token of a boundary. -/
theorem identity_token_inner : ∀ token ∈ identityTokens, boundaryFromToken token = false := by
  decide +kernel

/-- The token of a symmetric op without parameters is its name after the kind. -/
theorem symmetric_token (name : String) (known : name ∈ symmetricOps) :
    (NodeKey.op name (.new []) []).token = "op|" ++ name := by
  revert name
  decide +kernel

/-- A key carries an identity token exactly when it is an identity op. -/
theorem token_mem_identityTokens (key : NodeKey) :
    key.token ∈ identityTokens ↔ IdentityOperator key := by
  constructor
  · intro carried
    have inner := identity_token_inner key.token carried
    rw [boundaryFromToken_token] at inner
    obtain ⟨name, params, inputs, rfl⟩ := isBoundary_false inner
    exact ⟨name, params, inputs, rfl, carried⟩
  · rintro ⟨_, _, _, _, carried⟩
    exact carried

/-- A key carries the token of a symmetric op exactly when it is a symmetric
op. -/
theorem token_mem_symmetricOps (key : NodeKey) :
    key.token ∈ symmetricOps.map (fun name => "op|" ++ name) ↔ SymmetricOperator key := by
  rw [List.mem_map]
  constructor
  · rintro ⟨name, known, same⟩
    rw [← symmetric_token name known] at same
    have inner := isBoundary_eq same
    obtain ⟨name', params, inputs, rfl⟩ := isBoundary_false inner.symm
    obtain ⟨rfl, empty⟩ := withParams_inj "op|" same
    refine ⟨name, params, inputs, rfl, ?_, known⟩
    rw [← ParamMap.isEmpty_canon, ← empty, ParamMap.isEmpty_canon]
    rfl
  · rintro ⟨name, params, inputs, rfl, empty, known⟩
    refine ⟨name, known, ?_⟩
    have bare : (ParamMap.new []).isEmpty = true := rfl
    rw [← symmetric_token name known]
    simp [token, withParams, empty, bare]

/-- No rule applies to a boundary. -/
theorem inert_of_boundary {key : NodeKey} (boundary : key.isBoundary = true) :
    ¬ engineRules.drops key.token ∧ ¬ engineRules.commutes key.token := by
  constructor
  · intro drops
    obtain ⟨_, _, _, rfl, _⟩ := (token_mem_identityTokens key).mp drops
    cases boundary
  · intro commutes
    obtain ⟨_, _, _, rfl, _⟩ := (token_mem_symmetricOps key).mp commutes
    cases boundary

end NodeKey

/-! ## The live graph as a copy -/

section Live

variable {nodes : List NodeKey} {outputs : List NodeId}

/-- Every live node is a source, an op or a reduction. What is dead may be
anything. -/
def LivePlain (nodes : List NodeKey) (outputs : List NodeId) : Prop :=
  ∀ i key, Reaches nodes outputs i → nodes[i]? = some key → key.IsPlain

/-- In an arena of plain keys the live ones are plain. -/
theorem livePlain_of_plain (plain : ∀ key ∈ nodes, key.IsPlain) (outputs : List NodeId) :
    LivePlain nodes outputs :=
  fun _ key _ lookup => plain key (List.mem_of_getElem? lookup)

/-- A live node of the arena and its number in the live graph. -/
def Loaded (nodes : List NodeKey) (outputs : List NodeId) (i k : Nat) : Prop :=
  Reaches nodes outputs i ∧ k = number (Reaches nodes outputs) i

/-- A live node is loaded at its number. -/
theorem loaded_getElem? {i k : Nat} {key : NodeKey} (loaded : Loaded nodes outputs i k)
    (lookup : nodes[i]? = some key) : (liveGraph nodes outputs).nodes[k]? =
      some (rewire (number (Reaches nodes outputs)) (toEngineNode key)) := by
  obtain ⟨reached, rfl⟩ := loaded
  rw [liveGraph, toEngineGraph, List.getElem?_map, live_getElem? reached lookup, Option.map_some,
    toEngineNode_rewire]

/-- The arena and what is loaded of it are bisimilar over the live nodes, for the
reducer's rules on one side and the engine's on the other. -/
theorem live_bisimulation (topological : Topological nodes)
    (inside : ∀ o ∈ outputs, o < nodes.length) (plain : LivePlain nodes outputs) :
    Bisimulation nodeRules engineRules nodes (liveGraph nodes outputs).nodes
      (Loaded nodes outputs) := by
  have copied {i k : Nat} {key : NodeKey} {node : EngineNode} (loaded : Loaded nodes outputs i k)
      (lookup : nodes[i]? = some key) (found : (liveGraph nodes outputs).nodes[k]? = some node) :
      node = rewire (number (Reaches nodes outputs)) (toEngineNode key) :=
    Option.some.inj (found.symm.trans (loaded_getElem? loaded lookup))
  constructor
  · intro i k loaded
    obtain ⟨key, lookup⟩ := lookup_exists (loaded.1.bound topological inside)
    refine ⟨key, _, lookup, loaded_getElem? loaded lookup, ?_⟩
    rw [inputs_rewire, List.forall₂_map_right_iff, EngineNode.wired_inputs, toEngineNode_inputs]
    exact List.forall₂_same.mpr (fun x member => ⟨loaded.1.input lookup member, rfl⟩)
  · intro i k j l key node other node' first second lookup found lookup' found'
    obtain rfl := copied first lookup found
    obtain rfl := copied second lookup' found'
    exact (NodeKey.token_eq_iff (plain i key first.1 lookup) (plain j other second.1 lookup')).symm
  · intro i k key node loaded lookup found
    obtain rfl := copied loaded lookup found
    exact (symmetricOperator_iff key).trans (NodeKey.token_mem_symmetricOps key).symm
  · intro i k key node loaded lookup found
    obtain rfl := copied loaded lookup found
    exact (identityOperator_iff key).trans (NodeKey.token_mem_identityTokens key).symm

/-- The rules relate two live nodes in the arena exactly when they relate their
copies. -/
theorem live_least_iff (topological : Topological nodes)
    (inside : ∀ o ∈ outputs, o < nodes.length) (plain : LivePlain nodes outputs) {i j : Nat}
    (first : Reaches nodes outputs i) (second : Reaches nodes outputs j) :
    Least engineRules (liveGraph nodes outputs).nodes (number (Reaches nodes outputs) i)
        (number (Reaches nodes outputs) j) ↔ Least nodeRules nodes i j :=
  ((live_bisimulation topological inside plain).least_iff topological
    (liveGraph_wellFormed topological inside).earlier ⟨first, rfl⟩ ⟨second, rfl⟩).symm

end Live

/-- Two sources and their sum, in an empty store. -/
def sumCalls : List Call :=
  [.addSource "x" (.new []), .addSource "y" (.new []), .addOp "add" [0, 1] (.new [])]

end GraphedCore
