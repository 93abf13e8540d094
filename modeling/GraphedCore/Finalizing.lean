import GraphedCore.Interpreting
import GraphedCore.Operands

/-!
# Interpreting what a reducer finalizes

A reducer sees a recording in deltas, cut in whatever way, and is finalized once the outputs are
known. An executor that walks the views of the finalized store finds at its marks what walking
the views of the recorded store finds at the outputs, so stepping along and reducing at the end
serve it alike.
-/

namespace GraphedCore

open Dag Wired

universe u
variable {V : Type u}

namespace IncrementalReducer

variable {find : EngineGraph → Nat → Nat} {reducer : IncrementalReducer} {outs : List NodeId}
  {mode : FusionMode} {red : Reduced}

/-- What is finalized can be rebuilt into a store. -/
theorem finalize_ordered (settled : reducer.Settled)
    (done : reducer.finalize outs (EggEngine.canonicalize find) mode = some (.ok red)) :
    Topological red.nodes ∧ ∀ o ∈ red.outputs, o < red.nodes.length := by
  rw [finalize] at done
  cases translated : translate reducer.map outs with
  | error bad => simp [translated] at done
  | ok found =>
    simp only [translated, Option.bind_eq_bind, Option.bind_eq_some_iff, Option.some.injEq,
      Except.ok.injEq] at done
    obtain ⟨_, reduces, rfl⟩ := done
    have inside : ∀ o ∈ found, o < reducer.canonNodes.length :=
      fun o member => settled.map o (translate_mem translated o member)
    obtain ⟨_, _, _, reduces', _, topological, inside', _⟩ :=
      reduceWithMode_rebuilds find settled.earlier inside mode
    obtain rfl := Option.some.inj (reduces'.symm.trans reduces)
    exact ⟨topological, inside'⟩

end IncrementalReducer

/-- Rebuilding keeps the values of the outputs. -/
theorem rebuilt_evaluate {interp : String → List V → V} {red : Reduced} {values : List V}
    (topological : Topological red.nodes) (inside : ∀ o ∈ red.outputs, o < red.nodes.length)
    (evaluated : evaluate interp red.nodes red.outputs = some values) :
    ∃ reduced ids, GraphStore.fromReduced red = some (reduced, red.report) ∧ reduced.Interned ∧
      reduced.outputs = GraphStore.marked [] ids ∧
      evaluate interp reduced.nodes ids = some values := by
  obtain ⟨reduced, rebuilt, interned, nodes, marks⟩ :=
    GraphStore.fromReduced_complete topological inside
  obtain ⟨vals, walked, gathered⟩ := Option.bind_eq_some_iff.mp evaluated
  have valuation := (eval_eq_some_iff _ _ topological _).mp walked
  obtain ⟨final, valued, places⟩ := rebuilt_valuation topological valuation
  rw [← nodes] at valued
  refine ⟨reduced, _, rebuilt, interned, marks, ?_⟩
  rw [evaluate, evalAt, (eval_eq_some_iff _ _ interned.earlier _).mpr valued, Option.bind_some,
    ← gathered, gather, gather, List.mapM_map]
  apply Enumerate.mapM_congr
  intro o member
  exact places o (inside o member)

/-- However a recording without stages is cut into deltas, a lawful executor finds
in what the reducer finalizes the values of the recorded outputs, in their order.
Identity ops have inputs, and those that the outputs reach have one. -/
theorem interpreted_finalize (ex : Executor V) (lawful : ex.Lawful)
    (find : EngineGraph → Nat → Nat) (egg : EggSound find) (requests : List Request)
    {store : GraphStore} (produced : store ∈ (Session.run requests).stores)
    (free : ∀ key ∈ store.nodes, ¬ key.IsStage) (told : PayloadsTold store.nodes)
    (fed : FedIdentities store.nodes) {deltas : List (List NodeKey)}
    (split : deltas.flatten = store.nodes) {outs : List NodeId}
    (inside : ∀ o ∈ outs, o < store.nodeCount) (unary : LiveUnary store.nodes outs)
    (mode : FusionMode) :
    ∃ reducer red reduced ids views views' values,
      IncrementalReducer.new.steps deltas = some (.ok reducer) ∧
      reducer.finalize outs (EggEngine.canonicalize find) mode = some (.ok red) ∧
      GraphStore.fromReduced red = some (reduced, red.report) ∧
      reduced.outputs = GraphStore.marked [] ids ∧
      PyGraphStore.nodes store = .ok views ∧ PyGraphStore.nodes reduced = .ok views' ∧
      ex.valuesAt views outs = some values ∧ ex.valuesAt views' ids = some values := by
  have settled := (Session.settled_run requests).stores store produced
  have topological := settled.interned.earlier
  obtain ⟨reducer, red, ran, finalized, returned⟩ :=
    finalize_values.{u} egg topological free fed split inside mode
  obtain ⟨values, after, trimmed⟩ :=
    returned V (ex.meaning store.nodes) (lawful.respectsRules told)
  have before : evaluate (ex.meaning store.nodes) store.nodes outs = some values :=
    (trim_evaluate topological free inside unary).symm.trans trimmed
  have clear : ∀ key ∈ store.nodes, key.Interpretable store.nodes :=
    fun key member => (NodeKey.known_of_mem member (free key member)).interpretable
  obtain ⟨last, work, consumed, rfl⟩ := IncrementalReducer.steps_consume ran
  have fresh : ∀ key ∈ deltas.flatten, key.Ordered ∧ key.Interpretable store.nodes := by
    intro key member
    rw [split] at member
    exact ⟨settled.ordered key member, clear key member⟩
  have usable := IncrementalReducer.settled_new.consume (fun key member => (fresh key member).1)
    consumed
  have canonical : ∀ key ∈ last.canonNodes, key.Interpretable store.nodes :=
    IncrementalReducer.consume_keeps (interpretable_hereditary store.nodes)
      (by simp [IncrementalReducer.new]) (fun key member => (fresh key member).2) consumed
  obtain ⟨ordered, inside'⟩ := IncrementalReducer.finalize_ordered usable finalized
  obtain ⟨reduced, ids, rebuilt, _, marks, found⟩ := rebuilt_evaluate ordered inside' after
  have clear' : ∀ key ∈ reduced.nodes, key.Interpretable store.nodes :=
    IncrementalReducer.finalize_keeps (interpretable_hereditary store.nodes) usable canonical
      finalized rebuilt
  obtain ⟨views, shown⟩ := views_exist clear
  obtain ⟨views', shown'⟩ := views_exist clear'
  refine ⟨_, red, reduced, ids, views, views', values, ran, finalized, rebuilt, marks, shown,
    shown', ?_, ?_⟩
  · rw [lawful.valuesAt_eq told clear shown, before]
  · rw [lawful.valuesAt_eq told clear' shown', found]

/-- A shift by nothing, and its negation, recorded in a new store. -/
def shiftRequests : List Request :=
  [.newStore, .call 0 (.addSource "x" (.new [])) trivial,
    .call 0 (.addOp "add" [0] (.new [("scalar", .float 0), ("side", .str "r")])) trivial,
    .call 0 (.addOp "neg" [1] (.new [])) trivial]

/-- The store of these calls, with its table written out, newest entry first. -/
def shiftStore : GraphStore :=
  ⟨[.source "x" (.new []), .op "add" (.new [("scalar", .float 0), ("side", .str "r")]) [0],
      .op "neg" (.new []) [1]],
    [(.op "neg" (.new []) [1], 2),
      (.op "add" (.new [("scalar", .float 0), ("side", .str "r")]) [0], 1),
      (.source "x" (.new []), 0)], []⟩

/-- The session holds the store. -/
theorem shiftRequests_stores : (Session.run shiftRequests).stores[0]? = some shiftStore := by
  decide +kernel

/-- The shift is dropped while stepping, and the outputs keep their values. -/
theorem interpreted_finalize_of_shift : ∃ reducer red reduced ids views views' values,
    IncrementalReducer.new.steps [shiftStore.nodes.take 2, shiftStore.nodes.drop 2] =
        some (.ok reducer) ∧
      reducer.finalize [2, 1] (EggEngine.canonicalize saturatedFind) .maximal =
        some (.ok red) ∧
      GraphStore.fromReduced red = some (reduced, red.report) ∧
      reduced.outputs = GraphStore.marked [] ids ∧
      PyGraphStore.nodes shiftStore = .ok views ∧ PyGraphStore.nodes reduced = .ok views' ∧
      (tally 1).valuesAt views [2, 1] = some values ∧
        (tally 1).valuesAt views' ids = some values := by
  have arity : ∀ key ∈ shiftStore.nodes, IdentityOperator key → key.inputs.length = 1 := by
    decide +kernel
  have fed : FedIdentities shiftStore.nodes := by
    intro key member identity none
    have one := arity key member identity
    rw [none] at one
    cases one
  have unary : LiveUnary shiftStore.nodes [2, 1] :=
    fun _ key _ lookup => arity key (List.mem_of_getElem? lookup)
  exact interpreted_finalize (tally 1) (tally_lawful 1) saturatedFind
    (EggGenerated.sound saturatedFind_saturates) shiftRequests
    (List.mem_of_getElem? shiftRequests_stores) (by decide) (by decide +kernel) fed rfl (by decide)
    unary .maximal

end GraphedCore
