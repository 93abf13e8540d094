import GraphedCore.Recorded
import GraphedCore.Session

/-!
# Identity ops of any arity

The engine's identity rules match ops with one input. The reducer looks at the token alone
and answers with the first input, so it works as if every identity op had been recorded with
its first input only: an op without inputs ends the run, and the other operands of a longer
one are lost. A graph keeps its meaning exactly when no identity op is without inputs and
those that the outputs reach have one.
-/

namespace GraphedCore

open Dag Wired

universe u

/-- What is left of a key: an identity op keeps its first input, which is the one
that the reducer takes. -/
def NodeKey.trim (key : NodeKey) : NodeKey :=
  if IdentityOperator key then key.withInputs (key.inputs.take 1) else key

/-- An identity op over other inputs reads these. -/
theorem NodeKey.identity_inputs {key : NodeKey} (identity : IdentityOperator key)
    (ids : List NodeId) : (key.withInputs ids).inputs = ids := by
  obtain ⟨name, params, inputs, rfl, _⟩ := identity
  rfl

/-- Nothing is trimmed of an op with one input. -/
theorem NodeKey.trim_of_unary {key : NodeKey}
    (unary : IdentityOperator key → key.inputs.length = 1) : key.trim = key := by
  rw [trim]
  split
  · rename_i identity
    rw [List.take_of_length_le (Nat.le_of_eq (unary identity)), withInputs_inputs]
  · rfl

/-- Trimming only drops inputs. -/
theorem NodeKey.trim_inputs (key : NodeKey) : ∀ x ∈ key.trim.inputs, x ∈ key.inputs := by
  intro x member
  rw [trim] at member
  split at member
  · rename_i identity
    rw [identity_inputs identity] at member
    exact List.mem_of_mem_take member
  · exact member

/-- Being an identity is no matter of the inputs. -/
theorem NodeKey.identityOperator_withInputs (key : NodeKey) (ids : List NodeId) :
    IdentityOperator (key.withInputs ids) ↔ IdentityOperator key := by
  rw [← token_mem_identityTokens, ← token_mem_identityTokens, token_withInputs]

/-- What is left of an identity op is one. -/
theorem NodeKey.identityOperator_trim (key : NodeKey) :
    IdentityOperator key.trim ↔ IdentityOperator key := by
  rw [trim]
  split
  · exact key.identityOperator_withInputs _
  · exact Iff.rfl

/-- What is left of a stage is the stage, and nothing else becomes one. -/
theorem NodeKey.isStage_trim (key : NodeKey) : key.trim.IsStage ↔ key.IsStage := by
  rw [trim]
  split
  · exact key.isStage_withInputs _
  · exact Iff.rfl

/-- Trimmed nodes still read earlier ones. -/
theorem trim_topological {nodes : List NodeKey} (topological : Topological nodes) :
    Topological (nodes.map NodeKey.trim) := by
  intro i node lookup x member
  rw [List.getElem?_map, Option.map_eq_some_iff] at lookup
  obtain ⟨key, found, rfl⟩ := lookup
  exact topological i key found x (key.trim_inputs x member)

/-- Trimming adds no stage. -/
theorem trim_free {nodes : List NodeKey} (free : ∀ key ∈ nodes, ¬ key.IsStage) :
    ∀ key ∈ nodes.map NodeKey.trim, ¬ key.IsStage := by
  intro node member
  obtain ⟨key, present, rfl⟩ := List.mem_map.mp member
  rw [key.isStage_trim]
  exact free key present

/-- No identity op is without inputs. Without it the reducer panics on the missing
one. -/
def FedIdentities (nodes : List NodeKey) : Prop :=
  ∀ key ∈ nodes, IdentityOperator key → key.inputs ≠ []

/-- Every identity op that the outputs reach has one input, so that no live
operand is dropped. -/
def LiveUnary (nodes : List NodeKey) (outs : List NodeId) : Prop :=
  ∀ i key, Reaches nodes outs i → nodes[i]? = some key → IdentityOperator key →
    key.inputs.length = 1

/-- Live nodes are left as they are. -/
theorem LiveUnary.trim_lookup {nodes : List NodeKey} {outs : List NodeId}
    (unary : LiveUnary nodes outs) {i : NodeId} (reached : Reaches nodes outs i) :
    nodes[i]? = (nodes.map NodeKey.trim)[i]? := by
  rw [List.getElem?_map]
  cases lookup : nodes[i]? with
  | none => rfl
  | some key => rw [Option.map_some, key.trim_of_unary (unary i key reached lookup)]

/-- Trimmed identity ops have one input, if they had any. -/
theorem trim_unary {nodes : List NodeKey} (fed : FedIdentities nodes) :
    UnaryIdentities (nodes.map NodeKey.trim) := by
  intro node member identity
  obtain ⟨key, present, rfl⟩ := List.mem_map.mp member
  have carried := key.identityOperator_trim.mp identity
  have positive := List.length_pos_iff.mpr (fed key present carried)
  rw [NodeKey.trim, if_pos carried, NodeKey.identity_inputs carried, List.length_take]
  omega

/-! ## The reducer reads first inputs -/

namespace IncrementalReducer

variable {reducer next : IncrementalReducer}

/-- An identity op is answered by its first input. If there is none, the index
panics. -/
theorem canonicalize_first (reducer : IncrementalReducer) {key : NodeKey}
    (identity : IdentityOperator key) :
    reducer.canonicalize key = (key.inputs[0]?).map (fun first => (first, reducer)) := by
  obtain ⟨name, params, inputs, rfl, carried⟩ := identity
  cases inputs <;> simp [canonicalize, carried, NodeKey.inputs]

/-- Canonicalizing a key leaves the map to the loop. -/
theorem canonicalize_map {key : NodeKey} {id : NodeId}
    (done : reducer.canonicalize key = some (id, next)) : next.map = reducer.map := by
  rcases canonicalize_cases done with ⟨rfl, _⟩ | ⟨_, rfl⟩ <;> rfl

/-- Ids that the map knows are translated. -/
theorem translate_total {map ids : List NodeId} (inside : ∀ x ∈ ids, x < map.length) :
    ∃ found, ids.map (map[·]?) = found.map some ∧ translate map ids = .ok found := by
  obtain ⟨found, reads⟩ := gather_exists inside
  have lookups := (Enumerate.mapM_eq_some_iff _ _ _).mp reads
  exact ⟨found, lookups, translate_eq lookups⟩

/-- A key whose inputs are mapped is consumed as what is left of it. So the
reducer never sees the other operands. -/
theorem consume_trim (delta : List NodeKey) (reducer : IncrementalReducer)
    (mapped : ∀ k key, delta[k]? = some key → ∀ x ∈ key.inputs, x < reducer.map.length + k) :
    consume (delta.map NodeKey.trim) reducer = consume delta reducer := by
  induction delta generalizing reducer with
  | nil => rfl
  | cons key rest ih =>
    obtain ⟨found, reads, whole⟩ := translate_total (mapped 0 key rfl)
    have later (id : NodeId) {next : IncrementalReducer} (kept : next.map = reducer.map) :
        consume (rest.map NodeKey.trim) { next with map := next.map ++ [id] } =
          consume rest { next with map := next.map ++ [id] } := by
      apply ih
      intro k other lookup x member
      have bound := mapped (k + 1) other lookup x member
      rw [List.length_append, List.length_singleton, kept]
      omega
    have answers : ∃ found', translate reducer.map key.trim.inputs = .ok found' ∧
        reducer.canonicalize (key.trim.withInputs found') =
          reducer.canonicalize (key.withInputs found) := by
      rw [NodeKey.trim]
      split
      · rename_i identity
        have first : (key.inputs.take 1).map (reducer.map[·]?) = (found.take 1).map some := by
          rw [List.map_take, reads, List.map_take]
        refine ⟨found.take 1, ?_, ?_⟩
        · rw [NodeKey.identity_inputs identity, translate_eq first]
        · rw [NodeKey.withInputs_withInputs,
            reducer.canonicalize_first ((key.identityOperator_withInputs _).mpr identity),
            reducer.canonicalize_first ((key.identityOperator_withInputs _).mpr identity),
            NodeKey.identity_inputs identity, NodeKey.identity_inputs identity]
          cases found <;> rfl
      · exact ⟨found, whole, rfl⟩
    obtain ⟨found', part, same⟩ := answers
    rw [List.map_cons, consume, consume, part, whole]
    simp only [same]
    cases did : reducer.canonicalize (key.withInputs found) with
    | none => rfl
    | some answer =>
      obtain ⟨id, next⟩ := answer
      exact later id (canonicalize_map did)

/-- A delta that is consumed whole lengthens the map by its nodes, and no identity
op of it was without inputs. -/
theorem consume_ok {delta : List NodeKey} (done : consume delta reducer = some (.ok (), next)) :
    next.map.length = reducer.map.length + delta.length ∧ FedIdentities delta := by
  induction delta generalizing reducer with
  | nil =>
    obtain ⟨_, rfl⟩ := Prod.mk.inj (Option.some.inj done)
    exact ⟨rfl, nofun⟩
  | cons key rest ih =>
    rw [consume] at done
    cases translated : translate reducer.map key.inputs with
    | error bad =>
      rw [translated] at done
      cases done
    | ok found =>
      simp only [translated, Option.bind_eq_bind, Option.bind_eq_some_iff] at done
      obtain ⟨⟨id, middle⟩, canonical, done⟩ := done
      obtain ⟨length, fed⟩ := ih done
      refine ⟨?_, ?_⟩
      · rw [length, List.length_append, canonicalize_map canonical, List.length_singleton,
          List.length_cons]
        omega
      · intro other member identity
        rcases List.mem_cons.mp member with rfl | later
        · rintro none
          rw [reducer.canonicalize_first ((other.identityOperator_withInputs _).mpr identity),
            NodeKey.identity_inputs identity] at canonical
          rw [none] at translated
          cases translated
          cases canonical
        · exact fed other later identity

/-- So does a step that succeeds. -/
theorem step_ok {delta : List NodeKey} {n : Nat} (done : reducer.step delta = some (.ok n, next)) :
    next.map.length = reducer.map.length + delta.length ∧ FedIdentities delta := by
  simp only [step, Option.bind_eq_bind, Option.bind_eq_some_iff] at done
  obtain ⟨⟨outcome, middle⟩, consumed, done⟩ := done
  cases outcome with
  | error bad => cases done
  | ok done' =>
    cases done'
    obtain ⟨_, rfl⟩ := Prod.mk.inj (Option.some.inj done)
    exact @consume_ok reducer middle delta consumed

/-- Deltas that are all consumed hold no identity op without inputs, for such an
op would have ended the run. -/
theorem steps_fed {deltas : List (List NodeKey)} (done : reducer.steps deltas = some (.ok next)) :
    FedIdentities deltas.flatten := by
  induction deltas generalizing reducer with
  | nil => exact nofun
  | cons delta rest ih =>
    rw [steps] at done
    cases stepped : reducer.step delta with
    | none => simp [stepped] at done
    | some answer =>
      obtain ⟨outcome, middle⟩ := answer
      cases outcome with
      | error bad => simp [stepped] at done
      | ok n =>
        rw [stepped] at done
        intro key member
        rw [List.flatten_cons] at member
        rcases List.mem_append.mp member with here | later
        · exact (step_ok stepped).2 key here
        · exact ih done key later

/-- The reducer cannot tell an identity op from one with its first input alone.
The induction is on the deltas. -/
theorem steps_trim (deltas : List (List NodeKey)) (reducer : IncrementalReducer)
    (mapped : ∀ k key, deltas.flatten[k]? = some key → ∀ x ∈ key.inputs,
      x < reducer.map.length + k) :
    reducer.steps (deltas.map (List.map NodeKey.trim)) = reducer.steps deltas := by
  induction deltas generalizing reducer with
  | nil => rfl
  | cons delta rest ih =>
    have consumed := consume_trim delta reducer (fun k key lookup => by
      refine mapped k key ?_
      rw [List.flatten_cons, List.getElem?_append_left (lookup_bound lookup), lookup])
    have same : reducer.step (delta.map NodeKey.trim) = reducer.step delta := by
      rw [step, step, consumed, List.length_map]
    rw [List.map_cons, steps, steps, same]
    cases stepped : reducer.step delta with
    | none => rfl
    | some answer =>
      obtain ⟨outcome, next⟩ := answer
      cases outcome with
      | error bad => rfl
      | ok n =>
        refine ih next (fun k key lookup x member => ?_)
        have further : (delta :: rest).flatten[delta.length + k]? = some key := by
          rw [List.flatten_cons, List.getElem?_append_right (Nat.le_add_right _ _),
            Nat.add_sub_cancel_left, lookup]
        have bound := mapped _ key further x member
        rw [(step_ok stepped).1]
        omega

/-- Deltas of an arena are consumed as the deltas of what is left of it. -/
theorem steps_trim_split {nodes : List NodeKey} (topological : Topological nodes)
    {deltas : List (List NodeKey)} (split : deltas.flatten = nodes) :
    new.steps (deltas.map (List.map NodeKey.trim)) = new.steps deltas := by
  refine steps_trim deltas .new (fun k key lookup x member => ?_)
  have earlier := topological k key (split ▸ lookup) x member
  exact earlier.trans_le (Nat.le_add_left _ _)

end IncrementalReducer

/-! ## Values -/

section Values

variable {V : Type u} {interp : String → List V → V} {nodes : List NodeKey} {outs : List NodeId}

/-- An interpretation that respects the rules validates them as the reducer states
them. -/
theorem nodeRules_validates (respects : RespectsRules interp) :
    Validates nodeRules (NodeKey.apply interp) where
  label node other same := by
    rw [← NodeKey.apply_operator, ← NodeKey.apply_operator interp other]
    exact congrArg (NodeKey.apply interp) same
  commutes node a b known := by
    have symmetric := (symmetricOperator_iff node).mp known
    obtain ⟨name, listed, token⟩ :=
      List.mem_map.mp ((NodeKey.token_mem_symmetricOps node).mpr symmetric)
    obtain ⟨_, _, _, rfl, _⟩ := symmetric
    exact congrArg some (token ▸ respects.commutes name listed a b)
  drops node a known := by
    have identity := (identityOperator_iff node).mp known
    have token := (NodeKey.token_mem_identityTokens node).mpr identity
    obtain ⟨_, _, _, rfl, _⟩ := identity
    exact congrArg some (respects.identity _ token a)

/-- The canonical arena has the values of the arena it stands for, under any
interpretation that respects the rules. -/
theorem canonical_evaluate (respects : RespectsRules interp) (topological : Topological nodes)
    (free : ∀ key ∈ nodes, ¬ key.IsStage) (inside : ∀ o ∈ outs, o < nodes.length) :
    evaluate interp (quotient (Least nodeRules nodes) nodes)
        (outs.map (place (Least nodeRules nodes))) = evaluate interp nodes outs := by
  obtain ⟨vals, valuation⟩ := stageFree_valuation interp topological free
  obtain ⟨merged, placed⟩ := valuation_quotient least_equivalence (NodeKey.apply_rewire interp)
    topological valuation
    (fun i j _ _ related => Cong.value (nodeRules_validates respects) valuation related)
  have ordered : Topological (quotient (Least nodeRules nodes) nodes) :=
    compact_topological (quotient_closed least_equivalence topological)
  rw [evaluate, evaluate, evalAt, evalAt, (eval_eq_some_iff _ _ topological _).mpr valuation,
    (eval_eq_some_iff _ _ ordered _).mpr merged, Option.bind_some, Option.bind_some, gather, gather,
    List.mapM_map]
  exact Enumerate.mapM_congr _ _ _ (fun o member => placed o (inside o member))

/-- What is left of the keys has the values of the keys where the outputs look. -/
theorem trim_evaluate (topological : Topological nodes) (free : ∀ key ∈ nodes, ¬ key.IsStage)
    (inside : ∀ o ∈ outs, o < nodes.length) (unary : LiveUnary nodes outs) :
    evaluate interp (nodes.map NodeKey.trim) outs = evaluate interp nodes outs := by
  obtain ⟨vals, valuation⟩ := stageFree_valuation interp topological free
  obtain ⟨vals', valuation'⟩ :=
    stageFree_valuation interp (trim_topological topological) (trim_free free)
  rw [evaluate, evaluate, evalAt, evalAt, (eval_eq_some_iff _ _ topological _).mpr valuation,
    (eval_eq_some_iff _ _ (trim_topological topological) _).mpr valuation', Option.bind_some,
    Option.bind_some]
  refine Enumerate.mapM_congr _ _ _ (fun o member => ?_)
  have reached : Reaches nodes outs o := .root member
  exact (reached.value_eq topological valuation valuation' (fun _ => unary.trim_lookup)
    (inside o member)).symm

end Values

/-! ## What the reducer returns -/

section Returned

variable {nodes : List NodeKey} {outs : List NodeId} {deltas : List (List NodeKey)}
  {find : EngineGraph → Nat → Nat}

/-- The finalized graph has the values of what is left of the recorded keys. -/
theorem finalize_values (sound : EggSound find) (topological : Topological nodes)
    (free : ∀ key ∈ nodes, ¬ key.IsStage) (fed : FedIdentities nodes)
    (split : deltas.flatten = nodes) (inside : ∀ o ∈ outs, o < nodes.length) (mode : FusionMode) :
    ∃ reducer red, IncrementalReducer.new.steps deltas = some (.ok reducer) ∧
      reducer.finalize outs (EggEngine.canonicalize find) mode = some (.ok red) ∧
      ∀ (V : Type u) (interp : String → List V → V), RespectsRules interp →
        ∃ values, evaluate interp red.nodes red.outputs = some values ∧
          evaluate interp (nodes.map NodeKey.trim) outs = some values := by
  have ordered := trim_topological topological
  have trimmed : (deltas.map (List.map NodeKey.trim)).flatten = nodes.map NodeKey.trim := by
    rw [← List.map_flatten, split]
  obtain ⟨reducer, ran, canonical⟩ :=
    IncrementalReducer.canonical_steps ordered (trim_unary fed) trimmed
  rw [IncrementalReducer.steps_trim_split topological split] at ran
  have length : (nodes.map NodeKey.trim).length = nodes.length := List.length_map _
  have translated := canonical.translate outs (fun o member => length ▸ inside o member)
  have arena : reducer.canonNodes =
      quotient (Least nodeRules (nodes.map NodeKey.trim)) (nodes.map NodeKey.trim) := by
    rw [canonical.nodes, List.take_length]
  have canonicalTopological : Topological reducer.canonNodes :=
    arena ▸ compact_topological (quotient_closed least_equivalence ordered)
  have canonicalFree : ∀ key ∈ reducer.canonNodes, ¬ key.IsStage := by
    intro key member
    obtain ⟨source, present, rfl⟩ := quotient_mem (arena ▸ member)
    rw [NodeKey.wired_rewire, NodeKey.isStage_withInputs]
    exact trim_free free source present
  have canonicalInside : ∀ o ∈ outs.map (place (Least nodeRules (nodes.map NodeKey.trim))),
      o < reducer.canonNodes.length := by
    intro o member
    obtain ⟨old, requested, rfl⟩ := List.mem_map.mp member
    rw [arena, quotient_length, length]
    exact place_lt least_equivalence (inside old requested)
  obtain ⟨red, comp, reduces, fused⟩ :=
    reduceWithMode_complete find canonicalTopological canonicalInside mode
  refine ⟨reducer, red, ran, by simp [IncrementalReducer.finalize, translated, reduces], ?_⟩
  intro V interp respects
  obtain ⟨values, after, before⟩ := reduced_outputs_valuation respects sound canonicalTopological
    canonicalInside canonicalFree fused
  refine ⟨values, after, ?_⟩
  rw [← before, arena, canonical_evaluate respects ordered (trim_free free)
    (fun o member => length ▸ inside o member)]

/-! ## Losing an operand -/

/-- Whether an identity op with other than one argument lies below: an
interpretation that respects the rules. -/
def tainted (token : String) (args : List (ULift.{u} Bool)) : ULift.{u} Bool :=
  ⟨args.any ULift.down || (decide (token ∈ identityTokens) && decide (args.length ≠ 1))⟩

/-- Tainting respects the rules: it looks at all arguments alike, and an identity
op with one argument passes it on. -/
theorem tainted_respects : RespectsRules tainted.{u} where
  commutes name _ a b := by simp [tainted, Bool.or_comm a.down]
  identity token _ a := by simp [tainted]

/-- What a key computes under tainting: whether an argument is tainted, or the key
is an identity op with other than one argument. -/
theorem tainted_apply {key : NodeKey} (free : ¬ key.IsStage) (args : List (ULift.{u} Bool)) :
    key.apply tainted args = some ⟨args.any ULift.down ||
      (decide (key.token ∈ identityTokens) && decide (args.length ≠ 1))⟩ := by
  rw [NodeKey.apply_token free]
  rfl

/-- An identity op of several inputs taints an output that reads it, through any
number of nodes. -/
theorem tainted_output {vals : List (ULift.{u} Bool)}
    (free : ∀ key ∈ nodes, ¬ key.IsStage) (valuation : Valuation (NodeKey.apply tainted) nodes vals)
    {i : NodeId} (reached : Reaches nodes outs i) (taint : vals[i]? = some ⟨true⟩) :
    ∃ o ∈ outs, vals[o]? = some ⟨true⟩ := by
  induction reached with
  | root member => exact ⟨_, member, taint⟩
  | @input i x key _ lookup member ih =>
    apply ih
    obtain ⟨args, read, value⟩ := valuation.reads lookup
    have found := (Enumerate.mapM_eq_some_iff _ _ _).mp read
    have present : some ⟨true⟩ ∈ args.map some := by
      rw [← found, ← taint]
      exact List.mem_map_of_mem member
    have carried := (List.mem_map_of_injective (Option.some_injective _)).mp present
    have any : args.any ULift.down = true := List.any_eq_true.mpr ⟨_, carried, rfl⟩
    rw [value, tainted_apply (free key (List.mem_of_getElem? lookup)), any, Bool.true_or]

/-- Nothing is tainted where every identity op has one input. So the two
interpretations differ only over lost operands. -/
theorem untainted {vals : List (ULift.{u} Bool)} (topological : Topological nodes)
    (free : ∀ key ∈ nodes, ¬ key.IsStage) (unary : UnaryIdentities nodes)
    (valuation : Valuation (NodeKey.apply tainted) nodes vals) (i : NodeId) :
    vals[i]? ≠ some ⟨true⟩ := by
  induction i using Nat.strong_induction_on with
  | h i ih =>
    intro taint
    obtain ⟨key, lookup⟩ := lookup_exists (valuation.length ▸ lookup_bound taint)
    obtain ⟨args, read, value⟩ := valuation.reads lookup
    have found := (Enumerate.mapM_eq_some_iff _ _ _).mp read
    have clean : args.any ULift.down = false := by
      rw [List.any_eq_false]
      intro arg member down
      have listed : some arg ∈ key.inputs.map (vals[·]?) := by
        rw [NodeKey.wired_inputs] at found
        rw [found]
        exact List.mem_map_of_mem member
      obtain ⟨x, reads, here⟩ := List.mem_map.mp listed
      refine ih x (topological i key lookup x reads) ?_
      rw [here]
      exact congrArg some (ULift.ext _ _ down)
    rw [value, tainted_apply (free key (List.mem_of_getElem? lookup)), clean, Bool.false_or] at taint
    have both := congrArg ULift.down (Option.some.inj taint)
    simp only [Bool.and_eq_true, decide_eq_true_eq] at both
    have identity := (key.token_mem_identityTokens).mp both.1
    refine both.2 ?_
    rw [gather_length read]
    exact unary key (List.mem_of_getElem? lookup) identity

/-- Stepping over the deltas and finalizing completes, and the finalized graph has
the values of the recorded graph, position by position. -/
def Preserves (find : EngineGraph → Nat → Nat) (nodes : List NodeKey)
    (deltas : List (List NodeKey)) (outs : List NodeId) (mode : FusionMode) : Prop :=
  ∃ reducer red, IncrementalReducer.new.steps deltas = some (.ok reducer) ∧
    reducer.finalize outs (EggEngine.canonicalize find) mode = some (.ok red) ∧
    ∀ (V : Type u) (interp : String → List V → V), RespectsRules interp →
      ∃ values, evaluate interp red.nodes red.outputs = some values ∧
        evaluate interp nodes outs = some values

/-- Nothing but the values of the outputs tells an op from its first operand. -/
theorem liveUnary_of_values (topological : Topological nodes)
    (free : ∀ key ∈ nodes, ¬ key.IsStage) (fed : FedIdentities nodes)
    (inside : ∀ o ∈ outs, o < nodes.length)
    (same : evaluate tainted.{u} (nodes.map NodeKey.trim) outs = evaluate tainted.{u} nodes outs) :
    LiveUnary nodes outs := by
  have ordered := trim_topological topological
  obtain ⟨vals, valuation⟩ := stageFree_valuation tainted.{u} topological free
  obtain ⟨vals', valuation'⟩ := stageFree_valuation tainted.{u} ordered (trim_free free)
  rw [evaluate, evaluate, evalAt, evalAt, (eval_eq_some_iff _ _ topological _).mpr valuation,
    (eval_eq_some_iff _ _ ordered _).mpr valuation', Option.bind_some, Option.bind_some] at same
  obtain ⟨values, gathered⟩ := gather_exists (fun o member => valuation.length ▸ inside o member)
  have whole := (Enumerate.mapM_eq_some_iff _ _ _).mp gathered
  have part := (Enumerate.mapM_eq_some_iff _ _ _).mp (same.trans gathered)
  intro i key reached lookup identity
  by_contra several
  obtain ⟨args, read, value⟩ := valuation.reads lookup
  have token := (key.token_mem_identityTokens).mpr identity
  have arity : args.length ≠ 1 := by rwa [gather_length read]
  have taint : vals[i]? = some ⟨true⟩ := by
    rw [value, tainted_apply (free key (List.mem_of_getElem? lookup))]
    simp [token, arity]
  obtain ⟨o, requested, marked⟩ := tainted_output free valuation reached taint
  refine untainted ordered (trim_free free) (trim_unary fed) valuation' o ?_
  rw [← marked]
  exact List.map_inj_left.mp (part.trans whole.symm) o requested

end Returned

/-- A recorded graph keeps its meaning exactly when no identity op is without
inputs and those that the outputs reach have one. Meaning is kept when every
lawful interpretation gives the outputs the values they had. -/
theorem incremental_preserves_iff (find : EngineGraph → Nat → Nat) (sound : EggSound find)
    (calls : List Call) (plain : ∀ call ∈ calls, call.IsPlain) (deltas : List (List NodeKey))
    (split : deltas.flatten = (Call.run .new calls).nodes) (outs : List NodeId)
    (inside : ∀ o ∈ outs, o < (Call.run .new calls).nodeCount) (mode : FusionMode) :
    Preserves.{u} find (Call.run .new calls).nodes deltas outs mode ↔
      FedIdentities (Call.run .new calls).nodes ∧ LiveUnary (Call.run .new calls).nodes outs := by
  have topological := (Call.interned_run GraphStore.interned_new calls).earlier
  have free : ∀ key ∈ (Call.run .new calls).nodes, ¬ key.IsStage :=
    fun key member => (Call.plain_run plain key member).free
  constructor
  · rintro ⟨reducer, red, ran, finalized, preserved⟩
    have fed := split ▸ IncrementalReducer.steps_fed ran
    obtain ⟨reducer', red', ran', finalized', returned⟩ :=
      finalize_values.{u} sound topological free fed split inside mode
    obtain rfl : reducer' = reducer := by simpa using ran'.symm.trans ran
    obtain rfl : red' = red := by simpa using finalized'.symm.trans finalized
    obtain ⟨values, after, before⟩ := preserved _ tainted tainted_respects
    obtain ⟨values', after', trimmed⟩ := returned _ tainted tainted_respects
    obtain rfl : values' = values := Option.some.inj (after'.symm.trans after)
    exact ⟨fed, liveUnary_of_values topological free fed inside (trimmed.trans before.symm)⟩
  · rintro ⟨fed, unary⟩
    obtain ⟨reducer, red, ran, finalized, returned⟩ :=
      finalize_values.{u} sound topological free fed split inside mode
    refine ⟨reducer, red, ran, finalized, fun V interp respects => ?_⟩
    obtain ⟨values, after, trimmed⟩ := returned V interp respects
    exact ⟨values, after, (trim_evaluate topological free inside unary).symm.trans trimmed⟩

/-- Two sources and their sum, to which zero is added and which is recorded again
the other way around. A third source, and a product with one that reads it beside
a first operand, are dead when the last two ops are asked for. -/
def historyCalls : List Call :=
  [.addSource "x" (.new []), .addSource "unused" (.new []), .addSource "y" (.new []),
    .addOp "add" [0, 2] (.new []),
    .addOp "mul" [0, 1] (.new [("scalar", .float 0x3ff0000000000000), ("side", .str "r")]),
    .addOp "add" [3] (.new [("scalar", .float 0), ("side", .str "r")]),
    .addOp "add" [2, 0] (.new []), .addOp "neg" [5] (.new [])]

/-- The arena of the history: what its calls leave in a new store. -/
def historyNodes : List NodeKey := (Call.run .new historyCalls).nodes

/-- The history in three deltas, cut between the nodes of one class. -/
def historyDeltas : List (List NodeKey) :=
  [historyNodes.take 3, (historyNodes.drop 3).take 2, historyNodes.drop 5]

/-- The deltas make up the arena. -/
theorem historyDeltas_flatten : historyDeltas.flatten = historyNodes := by decide +kernel

/-- All but the third source and the product are reached. -/
theorem historyNodes_reached {i : NodeId} :
    Reaches historyNodes [7, 6] i ↔ i ∈ [0, 2, 3, 5, 6, 7] := by
  constructor
  · intro reached
    induction reached with
    | root member =>
      have requested : ∀ o ∈ [7, 6], o ∈ [0, 2, 3, 5, 6, 7] := by decide
      exact requested _ member
    | @input k x key _ lookup member ih =>
      have closed : ∀ k ∈ [0, 2, 3, 5, 6, 7], ∀ key ∈ historyNodes[k]?, ∀ x ∈ key.inputs,
          x ∈ [0, 2, 3, 5, 6, 7] := by decide +kernel
      exact closed k ih key lookup x member
  · have read {k x : NodeId} (reached : Reaches historyNodes [7, 6] k)
        (reads : historyNodes[k]?.any (fun key => decide (x ∈ key.inputs)) = true) :
        Reaches historyNodes [7, 6] x := by
      obtain ⟨key, lookup, listed⟩ := (Option.any_eq_true _ _).mp reads
      exact reached.input lookup (of_decide_eq_true listed)
    have last : Reaches historyNodes [7, 6] 7 := .root (by decide)
    have twin : Reaches historyNodes [7, 6] 6 := .root (by decide)
    have shifted : Reaches historyNodes [7, 6] 5 := read last (by decide +kernel)
    have sum : Reaches historyNodes [7, 6] 3 := read shifted (by decide +kernel)
    have right : Reaches historyNodes [7, 6] 2 := read sum (by decide +kernel)
    have left : Reaches historyNodes [7, 6] 0 := read sum (by decide +kernel)
    simp only [List.mem_cons, List.not_mem_nil, or_false]
    rintro (rfl | rfl | rfl | rfl | rfl | rfl) <;> assumption

/-- No identity op of the history is without inputs. The dead product has two. -/
theorem historyNodes_fed : FedIdentities historyNodes := by
  unfold FedIdentities
  decide +kernel

/-- The op that adds zero is live and has one input. -/
theorem historyNodes_unary : LiveUnary historyNodes [7, 6] := by
  intro i key reached lookup identity
  have single : ∀ i ∈ [0, 2, 3, 5, 6, 7], ∀ key ∈ historyNodes[i]?, IdentityOperator key →
      key.inputs.length = 1 := by decide +kernel
  exact single i (historyNodes_reached.mp reached) key lookup identity

/-- The history is consumed in three deltas, and its meaning is kept although the
dead product loses an operand. -/
theorem incremental_preserves_iff_of_history :
    Preserves.{0} saturatedFind historyNodes historyDeltas [7, 6] .singleUse :=
  (incremental_preserves_iff saturatedFind saturatedFind_saturates.sound historyCalls (by decide)
    historyDeltas historyDeltas_flatten [7, 6] (by decide +kernel) .singleUse).mpr
      ⟨historyNodes_fed, historyNodes_unary⟩

/-- A product with one from the right, recorded without inputs. The core does not
check the arity. -/
def bareProductCalls : List Call :=
  [.addOp "mul" [] (.new [("scalar", .float 0x3ff0000000000000), ("side", .str "r")])]

/-- The same product, recorded over two sources. The second one is dropped. -/
def pairProductCalls : List Call :=
  [.addSource "x" (.new []), .addSource "y" (.new []),
    .addOp "mul" [0, 1] (.new [("scalar", .float 0x3ff0000000000000), ("side", .str "r")])]

/-- Without inputs the op ends the run, and with two inputs the second one is lost
to the outputs. -/
theorem identity_operands_are_lost :
    IncrementalReducer.new.steps [(Call.run .new bareProductCalls).nodes] = none ∧
      ¬ Preserves.{0} saturatedFind (Call.run .new pairProductCalls).nodes
        [(Call.run .new pairProductCalls).nodes] [2] .singleUse := by
  refine ⟨by decide +kernel, ?_⟩
  rintro ⟨reducer, red, ran, finalized, preserved⟩
  have free : ∀ key ∈ (Call.run .new pairProductCalls).nodes, ¬ key.IsStage := by decide +kernel
  have fed : FedIdentities (Call.run .new pairProductCalls).nodes := by
    unfold FedIdentities
    decide +kernel
  have inside : ∀ o ∈ [2], o < (Call.run .new pairProductCalls).nodes.length := by decide +kernel
  obtain ⟨reducer', red', ran', finalized', returned⟩ :=
    finalize_values.{0} saturatedFind_saturates.sound (by decide +kernel) free fed
      List.flatten_singleton inside .singleUse
  obtain rfl : reducer' = reducer := by simpa using ran'.symm.trans ran
  obtain rfl : red' = red := by simpa using finalized'.symm.trans finalized
  obtain ⟨values, after, before⟩ := preserved _ tainted tainted_respects
  obtain ⟨values', after', trimmed⟩ := returned _ tainted tainted_respects
  have lost : evaluate tainted.{0} ((Call.run .new pairProductCalls).nodes.map NodeKey.trim) [2] =
      some [⟨false⟩] := by decide +kernel
  have whole : evaluate tainted.{0} (Call.run .new pairProductCalls).nodes [2] = some [⟨true⟩] := by
    decide +kernel
  rw [whole] at before
  rw [lost] at trimmed
  rw [after, ← before, ← trimmed] at after'
  exact absurd after' (by decide)

end GraphedCore
