import GraphedCore.Pipeline

/-!
# Reduction preserves meaning

An interpretation gives every operator token a function of its argument values. A
stage runs its members in order, each over inputs of the stage and members before
it, and yields its last member.

Every pass keeps the value of what it keeps: dead-code elimination and
deduplication because they only drop or merge, the engine because it merges only
what the rules equate, and fusion because a component is entered through its
slots and left through its exit.
-/

namespace GraphedCore

open Dag Wired StageFusion

universe u
variable {V : Type u}

/-! ## Evaluation of recorded and reduced nodes -/

/-- The value a reference of a member stands for: an argument of the stage, or
what an earlier member computed. -/
def StageRef.resolve (args done : List V) : StageRef → Option V
  | .input slot => args[slot]?
  | .member index => done[index]?

/-- A member applies its token to what its references stand for. -/
def StageOp.run (interp : String → List V → V) (args done : List V) (op : StageOp) : Option V :=
  (op.inputs.mapM (StageRef.resolve args done)).map (interp op.token)

/-- The values of the members, those in `done` first. Members run in their order,
each over the values before. -/
def runMembers (interp : String → List V → V) (args : List V) : List V → List StageOp →
    Option (List V)
  | done, [] => some done
  | done, op :: rest =>
    (op.run interp args done).bind (fun value => runMembers interp args (done ++ [value]) rest)

/-- The function a node computes of its argument values. A stage gives the value
of its last member. -/
def NodeKey.apply (interp : String → List V → V) : NodeKey → List V → Option V
  | .stage _ members, args => (runMembers interp args [] members).bind List.getLast?
  | key, args => some (interp key.token args)

/-- The values of an arena at the requested outputs, position by position. There
is nothing when an id is outside the arena. -/
def evaluate (interp : String → List V → V) (nodes : List NodeKey) (outputs : List NodeId) :
    Option (List V) :=
  evalAt (NodeKey.apply interp) nodes outputs

/-- Parameterless symmetric ops commute, and an identity op returns its input.
Nothing else is asked of an interpretation. -/
structure RespectsRules (interp : String → List V → V) : Prop where
  commutes : ∀ name ∈ symmetricOps, ∀ a b, interp ("op|" ++ name) [a, b] =
    interp ("op|" ++ name) [b, a]
  identity : ∀ token ∈ identityTokens, ∀ a, interp token [a] = a

/-- A stage, whether fusion made it or it was decoded. -/
def NodeKey.IsStage : NodeKey → Prop
  | .stage _ _ => True
  | _ => False

instance (key : NodeKey) : Decidable key.IsStage :=
  match key with
  | .stage _ _ => isTrue trivial
  | .source _ _ | .op _ _ _ | .reduction _ _ _ | .external _ _ _ => isFalse not_false

/-- A key that is no stage applies its token. -/
theorem NodeKey.apply_token {interp : String → List V → V} {key : NodeKey} (free : ¬ key.IsStage) :
    key.apply interp = fun args => some (interp key.token args) := by
  cases key <;> first | rfl | exact absurd trivial free

/-- Being a stage is no matter of the inputs. -/
theorem NodeKey.isStage_withInputs (key : NodeKey) (ids : List NodeId) :
    (key.withInputs ids).IsStage ↔ key.IsStage := by
  cases key <;> rfl

/-! ## Engine graphs -/

/-- The value of an engine node: its token's function of the arguments. -/
def EngineNode.apply (interp : String → List V → V) (node : EngineNode) (args : List V) :
    Option V :=
  some (interp node.token args)

/-- An interpretation that respects the rules validates them as the engine states
them: commuted arguments, and an identity's only argument. -/
theorem engineRules_validates {interp : String → List V → V} (respects : RespectsRules interp) :
    Validates engineRules (EngineNode.apply interp) where
  label node other same := by
    funext args
    rw [EngineNode.apply, EngineNode.apply, show node.token = other.token from same]
  commutes node a b known := by
    obtain ⟨name, symmetric, token⟩ := List.mem_map.mp known
    rw [EngineNode.apply, EngineNode.apply, ← show "op|" ++ name = node.token from token,
      respects.commutes name symmetric a b]
  drops node a known := congrArg some (respects.identity node.token known a)

/-- Without rules there is nothing to validate: equal tokens over equal inputs are
all that is merged. -/
theorem tokenRules_validates (interp : String → List V → V) :
    Validates tokenRules (EngineNode.apply interp) where
  label node other same := by
    funext args
    rw [EngineNode.apply, EngineNode.apply, show node.token = other.token from same]
  commutes _ _ _ impossible := impossible.elim
  drops _ _ impossible := impossible.elim

/-- Merging nodes of equal values keeps every value at its place. It serves for
the engine and for hash-consing. -/
theorem quotient_valuation {interp : String → List V → V} {graph : EngineGraph}
    {r : Nat → Nat → Prop} {vals : List V} (equivalence : Equivalence r)
    (wellFormed : graph.WellFormed) (valuation : Valuation (EngineNode.apply interp) graph.nodes vals)
    (faithful : ∀ i j, i < graph.nodes.length → j < graph.nodes.length → r i j →
      vals[i]? = vals[j]?) :
    Valuation (EngineNode.apply interp) (graph.quotient r).nodes (pick (IsLeader r) vals) ∧
      ∀ i < graph.nodes.length, (pick (IsLeader r) vals)[place r i]? = vals[i]? :=
  valuation_quotient equivalence (fun _ _ => rfl) wellFormed.earlier valuation faithful

/-! ## Stages -/

/-- The first member of a list of members, and the rest of the list. -/
theorem StageFusion.Staged.head {graph : EngineGraph} {comp : Nat → Nat} {ops slots rest : List Nat}
    {k op : Nat} {members : List StageOp} {node : EngineNode}
    (staged : Staged graph comp ops slots k (op :: rest) members)
    (lookup : graph.nodes[op]? = some node) :
    ∃ m members', members = m :: members' ∧ m.token = node.token ∧
      List.Forall₂ (Resolves comp ops slots k) node.inputs m.inputs ∧
      Staged graph comp ops slots (k + 1) rest members' := by
  obtain ⟨m, found, token, resolves⟩ := staged.member 0 op node rfl lookup
  cases members with
  | nil => simp at found
  | cons first members' =>
    obtain rfl : first = m := by simpa using found
    refine ⟨first, members', rfl, token, resolves, by simpa using staged.length, ?_⟩
    intro j op' node' found' lookup'
    obtain ⟨m', present, facts⟩ := staged.member (j + 1) op' node' (by simpa using found') lookup'
    refine ⟨m', by simpa using present, ?_⟩
    rwa [Nat.add_assoc, Nat.add_comm 1 j]

/-- Running the members from position `k` on adds the values of their ops, by
induction on the ops that are left. -/
theorem runMembers_complete {interp : String → List V → V} {graph : EngineGraph}
    {comp : Nat → Nat} {vals args : List V} {slots : List Nat}
    (valuation : Valuation (EngineNode.apply interp) graph.nodes vals)
    (front rest : List Nat) (members : List StageOp) (done : List V)
    (inside : ∀ op ∈ rest, op < graph.nodes.length)
    (staged : Staged graph comp (front ++ rest) slots front.length rest members)
    (entered : ∀ op ∈ rest, ∀ node, graph.nodes[op]? = some node → ∀ x ∈ node.inputs,
      x ∉ front ++ rest → ∀ s : Nat, slots[s]? = some (comp x) → args[s]? = vals[x]?)
    (ran : front.map (vals[·]?) = done.map some) :
    ∃ final, runMembers interp args done members = some final ∧
      (front ++ rest).map (vals[·]?) = final.map some := by
  induction rest generalizing front members done with
  | nil =>
    obtain rfl := List.length_eq_zero_iff.mp staged.length
    exact ⟨done, rfl, by simpa using ran⟩
  | cons op rest ih =>
    obtain ⟨node, lookup⟩ := lookup_exists (inside op List.mem_cons_self)
    obtain ⟨m, members', rfl, token, resolves, tail⟩ := staged.head lookup
    obtain ⟨read, gathered, value⟩ := valuation.reads lookup
    have agree : m.inputs.mapM (StageRef.resolve args done) = some read := by
      rw [← gathered, gather]
      have listed := (List.forall₂_and_left _ _).mpr
        ⟨fun x (member : x ∈ node.inputs) => member, resolves⟩
      refine Enumerate.mapM_forall₂ (List.Forall₂.flip (listed.imp ?_))
      rintro x ref ⟨member, resolves⟩
      cases ref with
      | member j =>
        obtain ⟨before, found⟩ := resolves
        rw [List.getElem?_append_left before] at found
        have pointwise := congrArg (fun l => l[j]?) ran
        have same : done[j]?.map some = some (vals[x]?) := by
          simpa [found] using pointwise.symm
        obtain ⟨v, present, lifted⟩ := Option.map_eq_some_iff.mp same
        exact present.trans lifted
      | input s => exact entered op List.mem_cons_self node lookup x member resolves.1 s resolves.2
    have split : front ++ op :: rest = (front ++ [op]) ++ rest := by simp
    obtain ⟨final, finished, all⟩ := ih (front ++ [op]) members' (done ++ [interp node.token read])
      (fun op' member => inside op' (List.mem_cons_of_mem op member))
      (by rwa [List.length_append, List.length_singleton, ← split])
      (by
        intro op' member node' lookup' x reads outside
        exact entered op' (List.mem_cons_of_mem op member) node' lookup' x reads (split ▸ outside))
      (by simp [ran, value, EngineNode.apply])
    refine ⟨final, ?_, split ▸ all⟩
    rw [runMembers, StageOp.run, agree, token]
    exact finished

/-- The exit is the last member of its component. -/
theorem compMembers_getLast? {graph : EngineGraph} {comp : Nat → Nat} {e : Nat}
    (exit : Exit graph comp e) :
    (compMembers (ids graph comp) (comp e)).getLast? = some e := by
  have member : e ∈ compMembers (ids graph comp) (comp e) := (mem_compMembers _ _).mpr ⟨exit.1, rfl⟩
  rcases List.eq_nil_or_concat (compMembers (ids graph comp) (comp e)) with empty | ⟨front, last, split⟩
  · rw [empty] at member
    simp at member
  · rw [List.concat_eq_append] at split
    have sorted := compMembers_sorted (ids graph comp) (comp e)
    rw [split] at member sorted ⊢
    rw [List.getLast?_append, List.getLast?_singleton, Option.some_or]
    have listed : last ∈ compMembers (ids graph comp) (comp e) := by simp [split]
    obtain ⟨inside, same⟩ := (mem_compMembers _ _).mp listed
    rcases List.mem_append.mp member with before | here
    · have less := (List.pairwise_append.mp sorted).2.2 e before last (List.mem_singleton_self last)
      exact absurd same (exit.2 last less inside)
    · rw [List.mem_singleton.mp here]

/-- Every template found for a node is a key of its token that takes its inputs,
and not a stage. -/
def Faithful (graph : EngineGraph) (table : List (String × NodeKey)) : Prop :=
  Tabled graph table ∧ ∀ node ∈ graph.nodes, ∀ template,
    Table.get? (· == ·) table node.token = some template → ¬ template.IsStage

section Exits

variable {interp : String → List V → V} {graph : EngineGraph}
  {table : List (String × NodeKey)} {comp : Nat → Nat} {reduced : Reduced} {vals : List V}

/-- The node emitted for a boundary has the value of the boundary, since its
template means what the token says. -/
theorem Fused.boundary_value (fused : Fused graph table comp reduced) (wellFormed : graph.WellFormed)
    (valuation : Valuation (EngineNode.apply interp) graph.nodes vals)
    (faithful : Faithful graph table) {e : Nat} {node : EngineNode} {template : NodeKey}
    (found : graph.nodes[e]? = some node) (boundary : node.boundary = true)
    (stored : Table.get? (· == ·) table node.token = some template) :
    vals[e]? = evalNode (NodeKey.apply interp) (pick (Exit graph comp) vals)
      (template.withInputs (node.inputs.map (number (Exit graph comp)))) := by
  obtain ⟨token, takes⟩ := faithful.1 node (List.mem_of_getElem? found) template stored
  have free := faithful.2 node (List.mem_of_getElem? found) template stored
  obtain ⟨read, gathered, value⟩ := valuation.reads found
  have inputs := takes (node.inputs.map (number (Exit graph comp))) (List.length_map _)
  have same : gather (pick (Exit graph comp) vals)
      (node.inputs.map (number (Exit graph comp))) = some read := by
    rw [← gathered, gather, gather, List.mapM_map]
    apply Enumerate.mapM_congr
    intro x member
    exact pick_getElem? vals
      (fused.components.boundary_read_exit wellFormed.ordered found boundary member)
  rw [evalNode, NodeKey.wired_inputs, inputs, same, Option.bind_some, value,
    NodeKey.apply_token (by rwa [NodeKey.isStage_withInputs]), NodeKey.token_withInputs, token]
  rfl

/-- The stage emitted for a component has the value of its exit, which is its last
member. -/
theorem Fused.stage_value (fused : Fused graph table comp reduced) (wellFormed : graph.WellFormed)
    (valuation : Valuation (EngineNode.apply interp) graph.nodes vals) {e : Nat}
    (exit : Exit graph comp e) {slots : List Nat} {members : List StageOp}
    (staged : Staged graph comp (compMembers (ids graph comp) (comp e)) slots 0
      (compMembers (ids graph comp) (comp e)) members)
    (slot_exit : ∀ c ∈ slots, ∃ x, Exit graph comp x ∧ comp x = c) :
    vals[e]? = evalNode (NodeKey.apply interp) (pick (Exit graph comp) vals)
      (.stage (slots.map (spot graph comp)) members) := by
  obtain ⟨args, gathered⟩ : ∃ args, gather (pick (Exit graph comp) vals)
      (slots.map (spot graph comp)) = some args := by
    refine gather_exists (fun i member => ?_)
    obtain ⟨c, slot, rfl⟩ := List.mem_map.mp member
    obtain ⟨x, exitX, rfl⟩ := slot_exit c slot
    rw [spot_exit exitX, pick_length, valuation.length]
    exact number_lt exitX exitX.1
  have entered : ∀ (s c : Nat), slots[s]? = some c → ∀ x : Nat, Exit graph comp x → comp x = c →
      args[s]? = vals[x]? := by
    intro s c slot x exitX same
    rw [gather, Enumerate.mapM_eq_some_iff] at gathered
    have pointwise := congrArg (fun l => l[s]?) gathered
    rw [← pick_getElem? vals exitX, ← spot_exit exitX, same]
    simp only [List.getElem?_map, slot, Option.map_some] at pointwise
    obtain ⟨v, present, lifted⟩ := Option.map_eq_some_iff.mp pointwise.symm
    exact present.trans lifted
  obtain ⟨final, ran, all⟩ := runMembers_complete valuation [] _ members []
    (fun op member => ((mem_compMembers _ _).mp member).1) staged
    (by
      intro op member node lookup x reads outside s slot
      refine entered s (comp x) slot x ?_ rfl
      refine fused.components.read_exit wellFormed.ordered lookup reads (fun same => outside ?_)
      refine (mem_compMembers _ _).mpr ⟨?_, same.trans ((mem_compMembers _ _).mp member).2⟩
      exact (wellFormed.earlier op node lookup x reads).trans (lookup_bound lookup)) rfl
  have last : final.getLast? = vals[e]? := by
    have ends := congrArg List.getLast? all
    rw [List.nil_append, List.getLast?_map, List.getLast?_map, compMembers_getLast? exit,
      Option.map_some] at ends
    obtain ⟨v, present, lifted⟩ := Option.map_eq_some_iff.mp ends.symm
    exact present.trans lifted
  have inputs : (NodeKey.stage (slots.map (spot graph comp)) members).inputs =
    slots.map (spot graph comp) := rfl
  rw [evalNode, NodeKey.wired_inputs, inputs, gathered, Option.bind_some, NodeKey.apply, ran,
    Option.bind_some, last]

/-- A fused graph has the values of its exits. So the values at outputs are found
where the outputs were sent. -/
theorem Fused.valuation (fused : Fused graph table comp reduced) (wellFormed : graph.WellFormed)
    (valuation : Valuation (EngineNode.apply interp) graph.nodes vals)
    (faithful : Faithful graph table) :
    Valuation (NodeKey.apply interp) reduced.nodes (pick (Exit graph comp) vals) := by
  refine ⟨by rw [pick_length, fused.length, valuation.length], fun k key lookup => ?_⟩
  obtain ⟨e, exit, rfl⟩ := fused.exit_of_lookup lookup
  obtain ⟨built, present, rebuilt⟩ := fused.rebuilt e exit
  obtain rfl := Option.some.inj (lookup.symm.trans present)
  rw [pick_getElem? vals exit]
  cases rebuilt with
  | boundary found boundary stored =>
    exact fused.boundary_value wellFormed valuation faithful found boundary stored
  | stage _ _ staged sources =>
    refine fused.stage_value wellFormed valuation exit staged (fun c member => ?_)
    obtain ⟨_, _, x, _, _, _, exitX, same⟩ := sources c member
    exact ⟨x, exitX, same⟩

end Exits

/-! ## The whole pipeline -/

/-- What a key computes does not depend on where its inputs are. -/
theorem NodeKey.apply_rewire (interp : String → List V → V) (f : Nat → Nat) (key : NodeKey) :
    (rewire f key).apply interp = key.apply interp := by
  cases key <;> rfl

/-- A stage-free arena has a value for every node. With stages it would take that
they can be run. -/
theorem stageFree_valuation (interp : String → List V → V) {nodes : List NodeKey}
    (topological : Topological nodes) (free : ∀ key ∈ nodes, ¬ key.IsStage) :
    ∃ vals, Valuation (NodeKey.apply interp) nodes vals :=
  valuation_exists _ nodes topological (fun key args member _ =>
    ⟨interp key.token args, by rw [NodeKey.apply_token (free key member)]⟩)

/-- Dropping nodes adds no stage. -/
theorem live_free {nodes : List NodeKey} {outputs : List NodeId}
    (free : ∀ key ∈ nodes, ¬ key.IsStage) : ∀ key ∈ live nodes outputs, ¬ key.IsStage := by
  intro key member
  obtain ⟨source, present, rfl⟩ := live_mem member
  rw [NodeKey.wired_rewire, NodeKey.isStage_withInputs]
  exact free source present

/-- What the pipeline hands to fusion is faithful to its tokens: every template
computes what its token says. -/
theorem dedupedGraph_faithful (find : EngineGraph → Nat → Nat) {nodes : List NodeKey}
    (free : ∀ key ∈ nodes, ¬ key.IsStage) (outputs : List NodeId) :
    Faithful (dedupedGraph find nodes outputs) (templates (live nodes outputs)) :=
  ⟨dedupedGraph_tabled find nodes outputs, fun _ member template stored =>
    live_free free template (dedupedGraph_template member stored).1⟩

variable {interp : String → List V → V} {nodes : List NodeKey} {outputs : List NodeId}
  {vals : List V}

/-- The values of the live nodes are values of the engine's graph. -/
theorem liveGraph_valuation (topological : Topological nodes) (free : ∀ key ∈ nodes, ¬ key.IsStage)
    (valuation : Valuation (NodeKey.apply interp) nodes vals) :
    Valuation (EngineNode.apply interp) (liveGraph nodes outputs).nodes
      (pick (Reaches nodes outputs) vals) := by
  have kept : Valuation (NodeKey.apply interp) (live nodes outputs)
      (pick (Reaches nodes outputs) vals) :=
    compact_valuation (NodeKey.apply_rewire interp) valuation
      (reaches_closed topological outputs) (fun _ _ _ _ _ _ => rfl)
  refine ⟨by rw [kept.length, liveGraph, toEngineGraph, List.length_map], ?_⟩
  intro i node lookup
  rw [liveGraph, toEngineGraph, List.getElem?_map, Option.map_eq_some_iff] at lookup
  obtain ⟨key, found, rfl⟩ := lookup
  rw [kept.value i key found, evalNode, evalNode,
    NodeKey.apply_token (live_free free key (List.mem_of_getElem? found))]
  rfl

/-- A sound partition merges only nodes of equal values, so every live node finds
its value at its position. -/
theorem dedupedGraph_valuation {find : EngineGraph → Nat → Nat} (respects : RespectsRules interp)
    (sound : EggSound find) (topological : Topological nodes)
    (inside : ∀ o ∈ outputs, o < nodes.length) (free : ∀ key ∈ nodes, ¬ key.IsStage)
    (valuation : Valuation (NodeKey.apply interp) nodes vals) :
    ∃ final, Valuation (EngineNode.apply interp) (dedupedGraph find nodes outputs).nodes final ∧
      ∀ i, Reaches nodes outputs i → final[position find nodes outputs i]? = vals[i]? := by
  have wellFormed := liveGraph_wellFormed topological inside
  have canonicalFormed := canonicalGraph_wellFormed find topological inside
  have equivalence := kernel_equivalence find (liveGraph nodes outputs)
  have loaded : Valuation (EngineNode.apply interp) (liveGraph nodes outputs).nodes _ :=
    liveGraph_valuation topological free valuation
  obtain ⟨canonical, atClass⟩ := quotient_valuation equivalence wellFormed loaded
    (fun i j insideI insideJ same =>
      (sound _ wellFormed i j insideI insideJ same).value (engineRules_validates respects) loaded)
  obtain ⟨deduped, atToken⟩ := quotient_valuation least_equivalence canonicalFormed canonical
    (fun i j _ _ related => Cong.value (tokenRules_validates interp) canonical related)
  refine ⟨_, deduped, fun i reached => ?_⟩
  have bound := loaded_lt topological inside reached
  have placed : place (kernel find (liveGraph nodes outputs)) (number (Reaches nodes outputs) i) <
      (canonicalGraph find nodes outputs).nodes.length := by
    rw [canonicalGraph, EngineGraph.quotient, quotient_length]
    exact place_lt equivalence bound
  exact (atToken _ placed).trans ((atClass _ bound).trans (pick_getElem? vals reached))

/-- The reduced list has a value for every node, and a live node whose position is
an exit finds its value there. -/
theorem reduced_valuation {find : EngineGraph → Nat → Nat} {reduced : Reduced} {comp : Nat → Nat}
    (respects : RespectsRules interp) (sound : EggSound find) (topological : Topological nodes)
    (inside : ∀ o ∈ outputs, o < nodes.length) (free : ∀ key ∈ nodes, ¬ key.IsStage)
    (fused : Fused (dedupedGraph find nodes outputs) (templates (live nodes outputs)) comp reduced)
    (valuation : Valuation (NodeKey.apply interp) nodes vals) :
    ∃ final, Valuation (NodeKey.apply interp) reduced.nodes final ∧
      ∀ i, Reaches nodes outputs i →
        Exit (dedupedGraph find nodes outputs) comp (position find nodes outputs i) →
        final[representative find nodes outputs comp i]? = vals[i]? := by
  have wellFormed := dedupedGraph_wellFormed find topological inside
  obtain ⟨deduped, computed, agrees⟩ :=
    dedupedGraph_valuation respects sound topological inside free valuation
  refine ⟨_, fused.valuation wellFormed computed (dedupedGraph_faithful find free outputs), ?_⟩
  intro i reached exit
  rw [representative, pick_getElem? deduped exit, agrees i reached]

/-- The values at the outputs, position by position. -/
theorem reduced_outputs_valuation {find : EngineGraph → Nat → Nat} {reduced : Reduced}
    {comp : Nat → Nat} (respects : RespectsRules interp) (sound : EggSound find)
    (topological : Topological nodes) (inside : ∀ o ∈ outputs, o < nodes.length)
    (free : ∀ key ∈ nodes, ¬ key.IsStage)
    (fused : Fused (dedupedGraph find nodes outputs) (templates (live nodes outputs)) comp reduced) :
    ∃ values, evaluate interp reduced.nodes reduced.outputs = some values ∧
      evaluate interp nodes outputs = some values := by
  have wellFormed := dedupedGraph_wellFormed find topological inside
  obtain ⟨vals, valuation⟩ := stageFree_valuation interp topological free
  obtain ⟨final, computed, agrees⟩ :=
    reduced_valuation respects sound topological inside free fused valuation
  obtain ⟨values, gathered⟩ := gather_exists (fun o member => valuation.length ▸ inside o member)
  have outs : gather final reduced.outputs = gather vals outputs := by
    rw [gather, gather, fused_outputs fused, List.mapM_map]
    apply Enumerate.mapM_congr
    intro o member
    exact agrees o (.root member) (position_exit topological inside fused member)
  refine ⟨values, ?_, ?_⟩
  · rw [evaluate, evalAt, (eval_eq_some_iff _ _ (fused.topological wellFormed.ordered) _).mpr computed,
      Option.bind_some, outs, gathered]
  · rw [evaluate, evalAt, (eval_eq_some_iff _ _ topological _).mpr valuation, Option.bind_some,
      gathered]

/-- The reduction runs through, and evaluating the reduced list at its outputs
gives, position by position, the values of the arena at the requested outputs. The
engine has to be sound and the interpretation to respect the rules. -/
theorem reduction_preserves_meaning (find : EngineGraph → Nat → Nat) (sound : EggSound find)
    (interp : String → List V → V) (respects : RespectsRules interp) (nodes : List NodeKey)
    (topological : Topological nodes) (free : ∀ key ∈ nodes, ¬ key.IsStage)
    (outputs : List NodeId) (inside : ∀ o ∈ outputs, o < nodes.length) (mode : FusionMode) :
    ∃ reduced values, reduceWithMode nodes outputs (EggEngine.canonicalize find) mode =
        some reduced ∧
      evaluate interp reduced.nodes reduced.outputs = some values ∧
      evaluate interp nodes outputs = some values := by
  obtain ⟨reduced, comp, reduces, fused⟩ := reduceWithMode_complete find topological inside mode
  obtain ⟨values, after, before⟩ :=
    reduced_outputs_valuation respects sound topological inside free fused
  exact ⟨reduced, values, reduces, after, before⟩

/-- Two twins and an identity op, requested twice, are evaluated to one value each
time. -/
theorem reduction_preserves_meaning_of_twins :
    ∃ reduced values, reduceWithMode
        [.source "x" (.new []), .source "y" (.new []), .op "add" (.new []) [0, 1],
          .op "add" (.new []) [1, 0],
          .op "mul" (.new [("scalar", .float 0x3ff0000000000000), ("side", .str "r")]) [3]]
        [4, 2, 4] (EggEngine.canonicalize saturatedFind) .singleUse = some reduced ∧
      evaluate (fun _ args => args.sum + 7 * (1 - args.length)) reduced.nodes reduced.outputs =
        some values ∧
      evaluate (fun _ args => args.sum + 7 * (1 - args.length))
        [.source "x" (.new []), .source "y" (.new []), .op "add" (.new []) [0, 1],
          .op "add" (.new []) [1, 0],
          .op "mul" (.new [("scalar", .float 0x3ff0000000000000), ("side", .str "r")]) [3]]
        [4, 2, 4] = some values :=
  reduction_preserves_meaning saturatedFind (EggGenerated.sound saturatedFind_saturates)
    (fun _ args => args.sum + 7 * (1 - args.length))
    ⟨fun _ _ a b => by simp [Nat.add_comm], fun _ _ a => by simp⟩ _ (by decide) (by decide)
    [4, 2, 4] (by decide) .singleUse

end GraphedCore
