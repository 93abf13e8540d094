import GraphedCore.Lib.Budget
import GraphedCore.Merging

/-!
# The budget of the saturation

The engine sets a limit on the iterations of the runner and one on the nodes of its
e-graph. It sets no limit on time, and so the limit that a runner starts with stays in
force. A reduction is therefore independent of the clock exactly when it is the same
at every check at which a slow run may be stopped.

The e-graph library is a parameter, and so are the places of its checks: they may stand
after an iteration, and inside of one, after each search for a rule and each application
of a rule. What is assumed of the library is that a run ends at one of its checks, that
the partition is then the congruence of the rule instances applied so far, and that an
applied instance is never taken back.
-/

namespace GraphedCore

open Dag Wired Budget

/-- The limits that a runner of the library is built with, the one on time in
nanoseconds. -/
structure Runner where
  iterLimit : Nat
  nodeLimit : Nat
  timeLimit : Nat

namespace Runner

/-- Set the limit on iterations, and nothing else, as the builder of the runner
does. -/
def withIterLimit (runner : Runner) (limit : Nat) : Runner := { runner with iterLimit := limit }

/-- Set the limit on nodes, and nothing else, as the builder of the runner
does. -/
def withNodeLimit (runner : Runner) (limit : Nat) : Runner := { runner with nodeLimit := limit }

end Runner

/-- The library as the engine uses it: the runner that it starts from, and the
class of each loaded node once a runner has stopped. The clock gives the time
between one check of the limits and the next. -/
structure Egg where
  default : Runner
  run : Runner → (Nat → Nat) → List EngineNode → Nat → Nat

namespace EggEngine

/-- The limit on iterations that the engine sets for every graph. -/
def iterLimit : Nat := 12

/-- Multiplication of machine words that stops at the largest one instead of
wrapping. -/
def saturatingMul (a b : Nat) : Nat := min (a * b) 18446744073709551615

/-- The limit on the size of the e-graph that the engine sets, in proportion to
the graph. -/
def nodeLimit (nodes : List EngineNode) : Nat := saturatingMul nodes.length 4 + 1024

/-- The runner of the engine. The limit on time is that of the default, for the
engine sets none. -/
def runner (egg : Egg) (nodes : List EngineNode) : Runner :=
  (egg.default.withIterLimit iterLimit).withNodeLimit (nodeLimit nodes)

/-- The classes of the loaded nodes once the runner has stopped, by whichever
limit. -/
def findUnder (egg : Egg) (clock : Nat → Nat) (graph : EngineGraph) : Nat → Nat :=
  egg.run (runner egg graph.nodes) clock graph.nodes

end EggEngine

namespace Egg

/-- The documented behaviour of the library. `checks` is the number of checks of a
run that no limit on time stops, which depends on the other two limits, and
`fired` is what was applied when a check is reached. -/
structure Documented (egg : Egg) (checks : Nat → Nat → List EngineNode → Nat)
    (fired : List EngineNode → Nat → Nat → Nat → Prop) : Prop where
  checked : ∀ (iterLimit nodeLimit : Nat) (nodes : List EngineNode),
    1 ≤ checks iterLimit nodeLimit nodes
  stops : ∀ (runner : Runner) (clock : Nat → Nat) (nodes : List EngineNode), Topological nodes →
    ∃ count, EndsAt runner.timeLimit clock (checks runner.iterLimit runner.nodeLimit nodes) count ∧
      ∀ i < nodes.length, ∀ j < nodes.length,
        (egg.run runner clock nodes i = egg.run runner clock nodes j ↔
          Cong engineRules (fired nodes count) nodes i j)
  grows : ∀ (nodes : List EngineNode) (count i j : Nat),
    fired nodes count i j → fired nodes (count + 1) i j

/-- The last check of the run without a limit on time. No clock makes a run longer
than that. -/
def lastCheck (checks : Nat → Nat → List EngineNode → Nat) (nodes : List EngineNode) : Nat :=
  checks EggEngine.iterLimit (EggEngine.nodeLimit nodes) nodes

/-- What is merged at the last check is merged at the first one already. Then it
does not matter when a run stops. -/
def NoLateMerge (checks : Nat → Nat → List EngineNode → Nat)
    (fired : List EngineNode → Nat → Nat → Nat → Prop) (nodes : List EngineNode) : Prop :=
  ∀ i < nodes.length, ∀ j < nodes.length,
    Cong engineRules (fired nodes (lastCheck checks nodes)) nodes i j →
      Cong engineRules (fired nodes 1) nodes i j

/-- No rule merges two loaded nodes: those that are merged at the last check have
the same token and the same operands, down to the sources, and share a class from
the start. -/
def Unmerged (checks : Nat → Nat → List EngineNode → Nat)
    (fired : List EngineNode → Nat → Nat → Nat → Prop) (nodes : List EngineNode) : Prop :=
  ∀ i < nodes.length, ∀ j < nodes.length,
    Cong engineRules (fired nodes (lastCheck checks nodes)) nodes i j →
      Cong engineRules (fun _ _ => False) nodes i j

/-- The bytes of the reduction are the same under any two clocks. This is what the
source says of its engine. -/
def Timeless (egg : Egg) (store : GraphStore) (outs : List NodeId) (mode : FusionMode) : Prop :=
  ∀ clock clock' : Nat → Nat,
    reducedBytes (EggEngine.findUnder egg clock) store outs mode =
      reducedBytes (EggEngine.findUnder egg clock') store outs mode

/-- The partition when a check is reached, as a class for each node: the
congruence closed under what was applied by then. -/
noncomputable def findAt (fired : List EngineNode → Nat → Nat → Nat → Prop) (count : Nat)
    (graph : EngineGraph) : Nat → Nat :=
  leader (Cong engineRules (fired graph.nodes count) graph.nodes)

variable {egg : Egg} {checks : Nat → Nat → List EngineNode → Nat}
  {fired : List EngineNode → Nat → Nat → Nat → Prop}

/-- At every check the partition is the congruence of what was applied by then. -/
theorem findAt_generated (fired : List EngineNode → Nat → Nat → Nat → Prop) (count : Nat) :
    EggGenerated (findAt fired count) (fun graph => fired graph.nodes count) :=
  fun _ _ _ _ _ _ => leader_eq_iff cong_equivalence

/-- The run of the engine ends at one of its checks, with the partition of that
check. -/
theorem Documented.findUnder_findAt (documented : egg.Documented checks fired)
    (clock : Nat → Nat) {graph : EngineGraph} (topological : Topological graph.nodes) :
    ∃ count, EndsAt egg.default.timeLimit clock (lastCheck checks graph.nodes) count ∧
      ∀ i < graph.nodes.length, ∀ j < graph.nodes.length,
        (kernel (EggEngine.findUnder egg clock) graph i j ↔ kernel (findAt fired count) graph i j)
    := by
  obtain ⟨count, ends, classes⟩ :=
    documented.stops (EggEngine.runner egg graph.nodes) clock graph.nodes topological
  refine ⟨count, ends, fun i first j second => ?_⟩
  exact (classes i first j second).trans (leader_eq_iff cong_equivalence).symm

/-- The run of the engine has a check. -/
theorem Documented.started (documented : egg.Documented checks fired) (nodes : List EngineNode) :
    1 ≤ lastCheck checks nodes :=
  documented.checked EggEngine.iterLimit (EggEngine.nodeLimit nodes) nodes

/-- Later checks find more merged, by induction on the checks between. -/
theorem Documented.mono (documented : egg.Documented checks fired) {nodes : List EngineNode}
    {count later i j : Nat} (le : count ≤ later)
    (merged : Cong engineRules (fired nodes count) nodes i j) :
    Cong engineRules (fired nodes later) nodes i j := by
  induction later, le using Nat.le_induction with
  | base => exact merged
  | succ later _ ih => exact ih.mono (documented.grows nodes later)

/-- Without a late merge the partition is the same at every check as at the
last. -/
theorem NoLateMerge.kernel_iff {graph : EngineGraph}
    (early : NoLateMerge checks fired graph.nodes) (documented : egg.Documented checks fired)
    {count : Nat} (started : 1 ≤ count) (within : count ≤ lastCheck checks graph.nodes) {i j : Nat}
    (inside : i < graph.nodes.length) (inside' : j < graph.nodes.length) :
    kernel (findAt fired count) graph i j ↔
      kernel (findAt fired (lastCheck checks graph.nodes)) graph i j := by
  rw [kernel, kernel, findAt, findAt, leader_eq_iff cong_equivalence,
    leader_eq_iff cong_equivalence]
  exact ⟨documented.mono within,
    fun merged => documented.mono started (early i inside j inside' merged)⟩

/-- If nothing was applied when the first check is reached, a late merge is any
merge that a rule makes. -/
theorem noLateMerge_iff_unmerged {nodes : List EngineNode} (untouched : ∀ i j, ¬ fired nodes 1 i j) :
    NoLateMerge checks fired nodes ↔ Unmerged checks fired nodes := by
  constructor
  · intro early i first j second merged
    exact (early i first j second merged).mono (fun i j did => untouched i j did)
  · intro unmerged i first j second merged
    exact (unmerged i first j second merged).mono (fun i j did => did.elim)

section Timeless

variable {store : GraphStore} {outs : List NodeId} {mode : FusionMode}

/-- A reduction is timeless when its bytes are the same at every check as at the last.

    Proof: under a clock the run ends at one check, and the bytes depend on the engine
    through the partition of the live nodes only. -/
theorem Documented.timeless_iff (documented : egg.Documented checks fired)
    (interned : store.Interned) (inside : ∀ o ∈ outs, o < store.nodes.length) :
    egg.Timeless store outs mode ↔
      ∀ count, 1 ≤ count → count ≤ lastCheck checks (liveGraph store.nodes outs).nodes →
        reducedBytes (findAt fired count) store outs mode =
          reducedBytes (findAt fired (lastCheck checks (liveGraph store.nodes outs).nodes)) store
            outs mode := by
  have topological := (liveGraph_wellFormed interned.earlier inside).earlier
  have ran (clock : Nat → Nat) :
      ∃ count, EndsAt egg.default.timeLimit clock
          (lastCheck checks (liveGraph store.nodes outs).nodes) count ∧
        reducedBytes (EggEngine.findUnder egg clock) store outs mode =
          reducedBytes (findAt fired count) store outs mode := by
    obtain ⟨count, ends, classes⟩ := documented.findUnder_findAt clock topological
    exact ⟨count, ends, reducedBytes_kernel interned inside classes mode⟩
  rw [← independent_iff (fun count => reducedBytes (findAt fired count) store outs mode)
    egg.default.timeLimit (documented.started _)]
  constructor
  · intro timeless clock clock' count count' ends ends'
    obtain ⟨stopped, stops, bytes⟩ := ran clock
    obtain ⟨stopped', stops', bytes'⟩ := ran clock'
    obtain rfl := stops.unique ends
    obtain rfl := stops'.unique ends'
    exact bytes.symm.trans ((timeless clock clock').trans bytes')
  · intro same clock clock'
    obtain ⟨count, ends, bytes⟩ := ran clock
    obtain ⟨count', ends', bytes'⟩ := ran clock'
    exact bytes.trans ((same clock clock' count count' ends ends').trans bytes'.symm)

/-- Without a late merge of live nodes the bytes do not depend on the clock. -/
theorem NoLateMerge.timeless (documented : egg.Documented checks fired) (interned : store.Interned)
    (inside : ∀ o ∈ outs, o < store.nodes.length)
    (early : NoLateMerge checks fired (liveGraph store.nodes outs).nodes) :
    egg.Timeless store outs mode := by
  refine (documented.timeless_iff interned inside).mpr (fun count started within => ?_)
  apply reducedBytes_kernel interned inside
  intro i first j second
  exact early.kernel_iff documented started within first second

/-- The bytes before and after a late merge differ, if no stage was recorded. -/
theorem Documented.noLateMerge (documented : egg.Documented checks fired)
    (interned : store.Interned) (inside : ∀ o ∈ outs, o < store.nodes.length)
    (free : ∀ key ∈ store.nodes, ¬ key.IsStage) (writable : store.Writable)
    (timeless : egg.Timeless store outs mode) :
    NoLateMerge checks fired (liveGraph store.nodes outs).nodes := by
  have bytes := (documented.timeless_iff interned inside).mp timeless 1 (Nat.le_refl 1)
    (documented.started _)
  intro i first j second merged
  refine (leader_eq_iff cong_equivalence).mp (merged_of_reducedBytes (findAt_generated fired 1)
    (findAt_generated fired _) interned free writable inside ?_ bytes first second
    ((leader_eq_iff cong_equivalence).mpr merged))
  intro i first j second early
  exact (leader_eq_iff cong_equivalence).mpr (documented.mono (documented.started _)
    ((leader_eq_iff cong_equivalence).mp early))

end Timeless

end Egg

/-! ## A library with a back-off scheduler -/

namespace BackoffScheduler

/-- A rule with more matches than this sits out the first iteration, as the
default scheduler of rules has it. -/
def matchLimit : Nat := 1000

/-- The tokens that the rules match, in the order in which these are searched
for. -/
def ruleTokens : List String := symmetricOps.map (fun name => "op|" ++ name) ++ identityTokens

/-- How many nodes a rule matches before anything is merged. -/
def matchCount (nodes : List EngineNode) (token : String) : Nat :=
  nodes.countP (fun node => node.token == token)

/-- A rule has no more matches than there are nodes. -/
theorem matchCount_le (nodes : List EngineNode) (token : String) :
    matchCount nodes token ≤ nodes.length :=
  List.countP_le_length

/-- Where the limits are looked at: the number of checks in an iteration, the
check that follows the application of a rule, and the last check of an iteration
that finds nothing to do. -/
structure Rhythm where
  perIteration : Nat
  applied : Nat → Nat
  idle : Nat

/-- A check after each search for one of the twelve rules, one after each
application, and one after the iteration, which is not reached if nothing was left
to do. -/
def betweenRules : Rhythm := ⟨25, fun rule => 13 + rule, 24⟩

/-- A check after each iteration, and none inside of it. -/
def betweenIterations : Rhythm := ⟨1, fun _ => 1, 1⟩

/-- The iterations before the one that finds nothing to do: two if some rule sits
out the first, one if some rule has a match. -/
def iterations (nodes : List EngineNode) : Nat :=
  if ruleTokens.any (fun token => decide (matchLimit < matchCount nodes token)) then 2
  else if ruleTokens.any (fun token => decide (0 < matchCount nodes token)) then 1
  else 0

/-- The number of checks, for the graphs below, which reach neither of the two
limits that it is given. -/
def checks (rhythm : Rhythm) (_ _ : Nat) (nodes : List EngineNode) : Nat :=
  iterations nodes * rhythm.perIteration + rhythm.idle

/-- The check by which a rule was applied, at once or after it has sat out. -/
def appliedBy (rhythm : Rhythm) (nodes : List EngineNode) (token : String) : Nat :=
  (if matchCount nodes token ≤ matchLimit then 0 else rhythm.perIteration) +
    rhythm.applied (ruleTokens.idxOf token)

/-- The rule instances applied when a check is reached. A rule is applied at all
its nodes together. -/
def fired (rhythm : Rhythm) (nodes : List EngineNode) (count i _ : Nat) : Prop :=
  ∃ node, nodes[i]? = some node ∧ appliedBy rhythm nodes node.token ≤ count

/-- An engine of this rhythm: 30 iterations, 10,000 nodes and 5 seconds to start
from, and what its rules have merged when it stops. -/
noncomputable def egg (rhythm : Rhythm) : Egg where
  default := ⟨30, 10000, 5000000000⟩
  run runner clock nodes := leader (Cong engineRules (fired rhythm nodes
    (stop runner.timeLimit clock (checks rhythm runner.iterLimit runner.nodeLimit nodes))) nodes)

/-- With a check in an idle iteration, the library is as documented. -/
theorem documented {rhythm : Rhythm} (checked : 1 ≤ rhythm.idle) :
    (egg rhythm).Documented (checks rhythm) (fired rhythm) where
  checked _ _ _ := Nat.le_add_left_of_le checked
  stops runner clock _ _ :=
    ⟨_, stop_endsAt runner.timeLimit clock (Nat.le_add_left_of_le checked),
      fun _ _ _ _ => leader_eq_iff cong_equivalence⟩
  grows _ _ _ _ := fun ⟨node, lookup, applied⟩ => ⟨node, lookup, Nat.le_succ_of_le applied⟩

/-- Where no rule has too many matches, all are applied in the first iteration. -/
theorem noLateMerge {nodes : List EngineNode} (few : nodes.length ≤ matchLimit) :
    Egg.NoLateMerge (checks betweenIterations) (fired betweenIterations) nodes := by
  intro i _ j _ merged
  refine merged.mono (fun k l did => ?_)
  obtain ⟨node, lookup, _⟩ := did
  refine ⟨node, lookup, ?_⟩
  rw [appliedBy, if_pos ((matchCount_le nodes node.token).trans few)]
  exact Nat.le_refl 1

/-- Between the rules the first check comes before anything is applied. -/
theorem betweenRules_untouched (nodes : List EngineNode) (i j : Nat) :
    ¬ fired betweenRules nodes 1 i j := by
  rintro ⟨node, _, applied⟩
  have later : 13 ≤ appliedBy betweenRules nodes node.token :=
    Nat.le_trans (Nat.le_add_right 13 _) (Nat.le_add_left _ _)
  exact absurd (later.trans applied) (by decide)

/-- If a rule has a match, some iteration comes before the idle one. -/
theorem iterations_pos {nodes : List EngineNode} {token : String} (rule : token ∈ ruleTokens)
    (found : 0 < matchCount nodes token) : 1 ≤ iterations nodes := by
  have touched : ruleTokens.any (fun token => decide (0 < matchCount nodes token)) = true :=
    List.any_eq_true.mpr ⟨token, rule, decide_eq_true found⟩
  rw [iterations, touched]
  split
  · exact Nat.le_succ 1
  · exact Nat.le_refl 1

end BackoffScheduler

/-! ## A chain of identity ops -/

/-- The parameters of `x + 0.0`, as the frontend records them. -/
def zeroParams : ParamMap := .new [("scalar", .float 0), ("side", .str "r")]

/-- Zero added to a node, which is an identity op with one input. -/
def addZero (id : NodeId) : NodeKey := .op "add" zeroParams [id]

/-- A source, and zero added to it again and again. All of it is one class in the
end. -/
def chain (length : Nat) : List NodeKey :=
  .source "x" (.new []) :: (List.range length).map addZero

/-- The calls that record the chain in a new store. -/
def chainCalls (length : Nat) : List Call :=
  .addSource "x" (.new []) :: (List.range length).map (fun id => .addOp "add" [id] zeroParams)

/-- A node of the chain is the source, or zero added to the node before it. -/
theorem chain_lookup {length i : Nat} {key : NodeKey} (lookup : (chain length)[i]? = some key) :
    (i = 0 ∧ key = .source "x" (.new [])) ∨ ∃ k, i = k + 1 ∧ k < length ∧ key = addZero k := by
  cases i with
  | zero => exact Or.inl ⟨rfl, (Option.some.inj lookup).symm⟩
  | succ k =>
    rw [chain, List.getElem?_cons_succ, List.getElem?_map, Option.map_eq_some_iff] at lookup
    obtain ⟨id, found, rfl⟩ := lookup
    obtain ⟨inside, rfl⟩ := List.getElem?_eq_some_iff.mp found
    rw [List.length_range] at inside
    exact Or.inr ⟨k, rfl, inside, by rw [List.getElem_range]⟩

/-- The chain holds nothing but the source and additions of zero. -/
theorem chain_mem {length : Nat} {key : NodeKey} (member : key ∈ chain length) :
    key = .source "x" (.new []) ∨ ∃ id, key = addZero id := by
  obtain ⟨i, lookup⟩ := List.mem_iff_getElem?.mp member
  rcases chain_lookup lookup with ⟨_, rfl⟩ | ⟨k, _, _, rfl⟩
  · exact Or.inl rfl
  · exact Or.inr ⟨k, rfl⟩

/-- One node for the source, and one for each addition. -/
theorem chain_length (length : Nat) : (chain length).length = length + 1 := by
  simp [chain]

/-- Each addition stands one place after the node that it reads. -/
theorem chain_link {length k : Nat} (inside : k < length) :
    (chain length)[k + 1]? = some (addZero k) := by
  simp [chain, inside]

/-- Recording the chain makes a node for every call. -/
theorem chain_run (length : Nat) : (Call.run .new (chainCalls length)).nodes = chain length := by
  induction length with
  | zero => rfl
  | succ length ih =>
    have calls : chainCalls (length + 1) =
        chainCalls length ++ [.addOp "add" [length] zeroParams] := by
      rw [chainCalls, chainCalls, List.range_succ, List.map_append]
      rfl
    have keys : chain (length + 1) = chain length ++ [addZero length] := by
      rw [chain, chain, List.range_succ, List.map_append]
      rfl
    have interned := Call.interned_run GraphStore.interned_new (chainCalls length)
    have performed : Call.run .new (chainCalls (length + 1)) =
        ((Call.run .new (chainCalls length)).intern (addZero length)).2 := by
      rw [calls, Call.run, List.foldl_append]
      exact Call.answerNode_store _
    rw [performed, keys]
    rcases (Call.run .new (chainCalls length)).intern_cases (addZero length) with
      ⟨i, member, outside, _⟩ | ⟨_, ⟨id, hit, _⟩ | ⟨_, did⟩⟩
    · rw [ih, chain_length] at outside
      obtain rfl : i = length := List.mem_singleton.mp member
      exact absurd outside (Nat.not_succ_le_self i)
    · obtain ⟨node, stored, equal⟩ := (interned.found (addZero length) id).mp hit
      have reads := ((NodeKey.canon_eq_iff _ _).mp ((NodeKey.eq_iff _ _).mp equal)).2
      rcases chain_lookup (ih ▸ stored) with ⟨_, rfl⟩ | ⟨k, _, before, rfl⟩
      · cases reads
      · exact absurd (List.head_eq_of_cons_eq reads) before.ne
    · rw [did, GraphStore.push, ih]

/-- The chain as it is loaded: the last node reaches all of it. -/
def loadedChain (length : Nat) : EngineGraph := toEngineGraph (chain length) [length]

/-- Where every node is read by the next one, the last one reaches all. The
induction goes down from the last node. -/
theorem liveGraph_linked {nodes : List NodeKey} (topological : Topological nodes) {last : Nat}
    (size : nodes.length = last + 1)
    (linked : ∀ (k : Nat) (key : NodeKey), nodes[k + 1]? = some key → k ∈ Wired.inputs key) :
    liveGraph nodes [last] = toEngineGraph nodes [last] := by
  refine (liveGraph_alive topological ?_ (fun i inside => ?_)).2
  · intro o member
    rw [List.mem_singleton.mp member, size]
    exact Nat.lt_succ_self last
  · rw [size] at inside
    induction Nat.le_of_lt_succ inside using Nat.decreasingInduction with
    | self => exact .root (List.mem_singleton_self last)
    | of_succ k before ih =>
      obtain ⟨key, lookup⟩ := lookup_exists (show k + 1 < nodes.length by omega)
      exact (ih (Nat.succ_lt_succ before)).input lookup (linked k key lookup)

/-- All of the chain is live. -/
theorem chain_live (length : Nat) : liveGraph (chain length) [length] = loadedChain length := by
  have topological : Topological (chain length) :=
    chain_run length ▸ (Call.interned_run GraphStore.interned_new (chainCalls length)).earlier
  refine liveGraph_linked topological (chain_length length) (fun k key lookup => ?_)
  rcases chain_lookup lookup with ⟨start, _⟩ | ⟨l, next, _, rfl⟩
  · exact absurd start (Nat.succ_ne_zero k)
  · obtain rfl := Nat.succ.inj next
    exact List.mem_singleton_self k

/-- Loading keeps the number of nodes. -/
theorem loadedChain_length (length : Nat) : (loadedChain length).nodes.length = length + 1 :=
  (List.length_map _).trans (chain_length length)

/-- A loaded link is the engine's view of the recorded one. -/
theorem loadedChain_link {length k : Nat} (inside : k < length) :
    (loadedChain length).nodes[k + 1]? = some (toEngineNode (addZero k)) := by
  rw [loadedChain, toEngineGraph, List.getElem?_map, chain_link inside]
  rfl

/-- A loaded node is the engine's view of the source or of a link. -/
theorem loadedChain_lookup {length i : Nat} {node : EngineNode}
    (lookup : (loadedChain length).nodes[i]? = some node) :
    (i = 0 ∧ node = toEngineNode (.source "x" (.new []))) ∨
      ∃ k, i = k + 1 ∧ node = toEngineNode (addZero k) := by
  rw [loadedChain, toEngineGraph, List.getElem?_map, Option.map_eq_some_iff] at lookup
  obtain ⟨key, stored, rfl⟩ := lookup
  rcases chain_lookup stored with ⟨rfl, rfl⟩ | ⟨k, rfl, _, rfl⟩
  · exact Or.inl ⟨rfl, rfl⟩
  · exact Or.inr ⟨k, rfl, rfl⟩

/-- No rule touches the source. -/
theorem source_inert : ¬ engineRules.drops (NodeKey.source "x" (.new [])).token ∧
    ¬ engineRules.commutes (NodeKey.source "x" (.new [])).token :=
  NodeKey.inert_of_boundary rfl

/-- Every link is an identity op, whatever it reads. -/
theorem addZero_drops (id : NodeId) : engineRules.drops (addZero id).token := by
  show (addZero 0).token ∈ identityTokens
  decide +kernel

/-- No link is a symmetric op. -/
theorem addZero_stays (id : NodeId) : ¬ engineRules.commutes (addZero id).token := by
  show (addZero 0).token ∉ symmetricOps.map (fun name => "op|" ++ name)
  decide +kernel

open BackoffScheduler

/-- Every link of the loaded chain matches the rule, and the source does not. -/
theorem loadedChain_matchCount (length : Nat) :
    matchCount (loadedChain length).nodes (addZero 0).token = length := by
  have links : ∀ node ∈ (List.range length).map (toEngineNode ∘ addZero),
      (node.token == (addZero 0).token) = true := by
    intro node member
    obtain ⟨id, _, rfl⟩ := List.mem_map.mp member
    exact beq_self_eq_true _
  have source : ((NodeKey.source "x" (.new [])).token == (addZero 0).token) = false := by
    decide +kernel
  have nodes : (loadedChain length).nodes = toEngineNode (.source "x" (.new [])) ::
      (List.range length).map (toEngineNode ∘ addZero) := by
    simp [loadedChain, toEngineGraph, chain]
  rw [matchCount, nodes, List.countP_cons, List.countP_eq_length.mpr links]
  simp [toEngineNode, source]

/-- The rule is the ninth, and it is applied at once to a chain that is not too
long. -/
theorem loadedChain_appliedBy (rhythm : Rhythm) (length : Nat) :
    appliedBy rhythm (loadedChain length).nodes (addZero 0).token =
      (if length ≤ matchLimit then 0 else rhythm.perIteration) + rhythm.applied 8 := by
  have position : ruleTokens.idxOf (addZero 0).token = 8 := by decide +kernel
  rw [appliedBy, loadedChain_matchCount, position]

/-- Until the rule was applied, the chain is as it was loaded. -/
theorem loadedChain_apart {rhythm : Rhythm} {length count : Nat}
    (waits : count < appliedBy rhythm (loadedChain length).nodes (addZero 0).token) {i j : Nat}
    (related : Cong engineRules (fired rhythm (loadedChain length).nodes count)
      (loadedChain length).nodes i j) : i = j := by
  refine cong_discrete ?_ ?_ ?_ related
  · intro i a node lookup drops did
    obtain ⟨other, lookup', applied⟩ := did
    obtain rfl := Option.some.inj (lookup.symm.trans lookup')
    rcases loadedChain_lookup lookup with ⟨_, rfl⟩ | ⟨k, _, rfl⟩
    · exact source_inert.1 drops
    · exact absurd applied (Nat.not_le_of_lt waits)
  · intro i j node _ lookup _ _ commutes
    rcases loadedChain_lookup lookup with ⟨_, rfl⟩ | ⟨k, _, rfl⟩
    · exact absurd commutes source_inert.2
    · exact absurd commutes (addZero_stays k)
  · intro i j node other lookup lookup' _ reads
    rcases loadedChain_lookup lookup with ⟨rfl, rfl⟩ | ⟨k, rfl, rfl⟩ <;>
      rcases loadedChain_lookup lookup' with ⟨rfl, rfl⟩ | ⟨l, rfl, rfl⟩
    · rfl
    · cases reads
    · cases reads
    · rw [List.head_eq_of_cons_eq reads]

/-- A rule that is applied between the first check and the last one merges the
first link of the chain with the source. -/
theorem loadedChain_merges_late {rhythm : Rhythm} {length : Nat} (link : 0 < length)
    (waits : 1 < appliedBy rhythm (loadedChain length).nodes (addZero 0).token)
    (reached : appliedBy rhythm (loadedChain length).nodes (addZero 0).token ≤
      Egg.lastCheck (checks rhythm) (loadedChain length).nodes) :
    ¬ Egg.NoLateMerge (checks rhythm) (fired rhythm) (loadedChain length).nodes := by
  intro early
  have size := loadedChain_length length
  have merged := early 1 (by omega) 0 (by omega) (.drop (loadedChain_link link) (addZero_drops 0)
    rfl ⟨_, loadedChain_link link, reached⟩)
  exact Nat.one_ne_zero (loadedChain_apart waits merged)

/-- Looked at between iterations only, a long chain is merged late: the rule sits
out the first iteration. -/
theorem long_chain_merges_late {length : Nat} (crowd : matchLimit < length) :
    ¬ Egg.NoLateMerge (checks betweenIterations) (fired betweenIterations)
      (loadedChain length).nodes := by
  have link : 0 < length := Nat.zero_lt_of_lt crowd
  have twice : appliedBy betweenIterations (loadedChain length).nodes (addZero 0).token = 2 := by
    rw [loadedChain_appliedBy, if_neg (Nat.not_le_of_lt crowd)]
    rfl
  have started : 1 ≤ iterations (loadedChain length).nodes :=
    iterations_pos (List.mem_append_right _ (addZero_drops 0))
      ((loadedChain_matchCount length).symm ▸ link)
  refine loadedChain_merges_late link (twice ▸ Nat.one_lt_two) ?_
  rw [twice, Egg.lastCheck, checks]
  exact Nat.succ_le_succ (Nat.mul_le_mul_right 1 started)

/-- Looked at between the rules, every chain is merged late. -/
theorem chain_merges_late {length : Nat} (link : 0 < length) :
    ¬ Egg.NoLateMerge (checks betweenRules) (fired betweenRules) (loadedChain length).nodes := by
  have started : 1 ≤ iterations (loadedChain length).nodes :=
    iterations_pos (List.mem_append_right _ (addZero_drops 0))
      ((loadedChain_matchCount length).symm ▸ link)
  refine loadedChain_merges_late link ?_ ?_ <;> rw [loadedChain_appliedBy]
  · exact Nat.lt_of_lt_of_le (show 1 < betweenRules.applied 8 by decide) (Nat.le_add_left _ _)
  · have last : 25 + 24 ≤ Egg.lastCheck (checks betweenRules) (loadedChain length).nodes :=
      Nat.add_le_add_right (Nat.mul_le_mul_right 25 started) 24
    refine Nat.le_trans ?_ last
    split <;> decide

/-- A chain of less than 1,024 links is written without a cut: every length and
count in it fits 32 bits. -/
theorem chain_writable {length : Nat} (few : length < 1024) :
    (Call.run .new (chainCalls length)).Writable := by
  have source : (NodeKey.source "x" (.new [])).Fits ∧
      Fits (NodeKey.source "x" (.new [])).token.utf8ByteSize := by decide +kernel
  have params : zeroParams.Fits ∧ Fits (addZero 0).token.utf8ByteSize := by decide +kernel
  rw [GraphStore.Writable, GraphStore.Fits, chain_run, chain_length]
  refine ⟨⟨(Nat.succ_lt_succ few).trans (by decide), fun key member => ?_⟩, fun key member => ?_⟩
  · rcases chain_mem member with rfl | ⟨id, rfl⟩
    · exact source.1
    · exact ⟨show Fits 3 by decide, params.1, show Fits 1 by decide⟩
  · rcases chain_mem member with rfl | ⟨id, rfl⟩
    · exact source.2
    · exact params.2

/-- No stage is recorded. -/
theorem chain_free (length : Nat) :
    ∀ key ∈ (Call.run .new (chainCalls length)).nodes, ¬ key.IsStage := by
  intro key member stage
  rcases chain_mem (chain_run length ▸ member) with rfl | ⟨id, rfl⟩ <;> exact stage

/-! ## Timeless reductions -/

/-- The bytes of a reduction do not depend on the clock when everything that is
merged among the live nodes at the last check is merged at the first one. For a
store without recorded stages that is written without a cut, they do not only
then. If the first check comes before anything is applied, the condition is that
no rule merges two live nodes. -/
theorem reduction_timeless_iff (egg : Egg) (checks : Nat → Nat → List EngineNode → Nat)
    (fired : List EngineNode → Nat → Nat → Nat → Prop) (documented : egg.Documented checks fired)
    (calls : List Call) (outs : List NodeId)
    (inside : ∀ o ∈ outs, o < (Call.run .new calls).nodeCount) (mode : FusionMode) :
    (Egg.NoLateMerge checks fired (liveGraph (Call.run .new calls).nodes outs).nodes →
      egg.Timeless (Call.run .new calls) outs mode) ∧
    ((∀ key ∈ (Call.run .new calls).nodes, ¬ key.IsStage) → (Call.run .new calls).Writable →
      (egg.Timeless (Call.run .new calls) outs mode ↔
        Egg.NoLateMerge checks fired (liveGraph (Call.run .new calls).nodes outs).nodes)) ∧
    ((∀ i j, ¬ fired (liveGraph (Call.run .new calls).nodes outs).nodes 1 i j) →
      (Egg.NoLateMerge checks fired (liveGraph (Call.run .new calls).nodes outs).nodes ↔
        Egg.Unmerged checks fired (liveGraph (Call.run .new calls).nodes outs).nodes)) := by
  have interned := Call.interned_run GraphStore.interned_new calls
  have early (condition : Egg.NoLateMerge checks fired
      (liveGraph (Call.run .new calls).nodes outs).nodes) :
      egg.Timeless (Call.run .new calls) outs mode :=
    condition.timeless documented interned inside
  refine ⟨early, fun free writable => ⟨fun timeless => ?_, early⟩, Egg.noLateMerge_iff_unmerged⟩
  exact documented.noLateMerge interned inside free writable timeless

/-- A source, its negation, and the sum of the two: commuting the sum merges
nothing. -/
def negationCalls : List Call :=
  [.addSource "x" (.new []), .addOp "neg" [0] (.new []), .addOp "add" [0, 1] (.new [])]

/-- The nodes of a negation and a sum, of which no two have the same token. -/
def negationGraph : EngineGraph :=
  toEngineGraph [.source "x" (.new []), .op "neg" (.new []) [0], .op "add" (.new []) [0, 1]] [2]

/-- All of them are live. -/
theorem negation_live :
    liveGraph (Call.run .new negationCalls).nodes [2] = negationGraph := by
  have interned := Call.interned_run GraphStore.interned_new negationCalls
  have nodes : (Call.run .new negationCalls).nodes =
      [.source "x" (.new []), .op "neg" (.new []) [0], .op "add" (.new []) [0, 1]] := by rfl
  refine (liveGraph_linked interned.earlier (congrArg List.length nodes) ?_).trans
    (congrArg (fun keys => toEngineGraph keys [2]) nodes)
  rw [nodes]
  intro k key lookup
  match k, lookup with
  | 0, lookup =>
    obtain rfl := Option.some.inj lookup
    exact List.mem_singleton_self 0
  | 1, lookup =>
    obtain rfl := Option.some.inj lookup
    exact List.mem_cons_of_mem 0 (List.mem_singleton_self 1)

/-- With a check after every rule, on a graph in which a rule is applied and
merges nothing; with a check after every iteration, on a chain that is merged in
the first. -/
theorem reduction_timeless_iff_of_unmerged :
    (egg betweenRules).Timeless (Call.run .new negationCalls) [2] .maximal ∧
      (egg betweenIterations).Timeless (Call.run .new (chainCalls 2)) [2] .maximal := by
  constructor
  · obtain ⟨early, _, unmerged⟩ := reduction_timeless_iff (egg betweenRules) (checks betweenRules)
      (fired betweenRules) (documented (by decide)) negationCalls [2] (by decide +kernel) .maximal
    refine early ((unmerged (betweenRules_untouched _)).mpr ?_)
    rw [negation_live]
    intro i _ j _ merged
    obtain rfl := EggEngine.cong_different (by decide +kernel) (by decide +kernel) merged
    exact .refl i
  · obtain ⟨early, _⟩ := reduction_timeless_iff (egg betweenIterations) (checks betweenIterations)
      (fired betweenIterations) (documented (by decide)) (chainCalls 2) [2] (by decide +kernel)
      .maximal
    refine early ?_
    rw [chain_run, chain_live]
    exact noLateMerge (by decide)

/-- The bytes of a chain whose links are merged late depend on the clock. -/
theorem chain_timed {rhythm : Rhythm} (checked : 1 ≤ rhythm.idle) {length : Nat}
    (few : length < 1024)
    (late : ¬ Egg.NoLateMerge (checks rhythm) (fired rhythm) (loadedChain length).nodes)
    (mode : FusionMode) :
    ¬ (egg rhythm).Timeless (Call.run .new (chainCalls length)) [length] mode := by
  intro timeless
  have interned := Call.interned_run GraphStore.interned_new (chainCalls length)
  have nodes := chain_run length
  have inside : length < (Call.run .new (chainCalls length)).nodes.length := by
    rw [nodes, chain_length]
    exact Nat.lt_succ_self length
  have early := (documented checked).noLateMerge interned (by simpa using inside)
    (chain_free length) (chain_writable few) timeless
  rw [nodes, chain_live] at early
  exact late early

/-- Looked at between iterations only, the bytes of a long chain depend on the
clock, and looked at between the rules, those of one link do. -/
theorem chain_not_timeless :
    (egg betweenIterations).Documented (checks betweenIterations) (fired betweenIterations) ∧
      1001 < (Call.run .new (chainCalls 1001)).nodeCount ∧
      ¬ (egg betweenIterations).Timeless (Call.run .new (chainCalls 1001)) [1001] .singleUse ∧
      (egg betweenRules).Documented (checks betweenRules) (fired betweenRules) ∧
      1 < (Call.run .new (chainCalls 1)).nodeCount ∧
      ¬ (egg betweenRules).Timeless (Call.run .new (chainCalls 1)) [1] .singleUse := by
  have inside (length : Nat) : length < (Call.run .new (chainCalls length)).nodeCount := by
    rw [GraphStore.nodeCount, chain_run, chain_length]
    exact Nat.lt_succ_self length
  exact ⟨documented (by decide), inside 1001,
    chain_timed (by decide) (by decide) (long_chain_merges_late (by decide)) .singleUse,
    documented (by decide), inside 1,
    chain_timed (by decide) (by decide) (chain_merges_late Nat.one_pos) .singleUse⟩

end GraphedCore
