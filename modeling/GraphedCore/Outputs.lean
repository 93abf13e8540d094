import GraphedCore.Recorded
import GraphedCore.Survivors

/-!
# Requested and returned outputs

The fused list has one output for every requested one. Interning it into a store
marks them, and a mark is never made twice: two requests that come to one node
leave one output. So the outputs of the reduced store line up with the request
exactly when the rules relate no two of its positions.
-/

namespace GraphedCore

open Dag StageFusion GraphStore

universe u

/-- No two positions of a request hold nodes that the rules relate. In particular
no node is requested twice. -/
def Unmerged (nodes : List NodeKey) (outs : List NodeId) : Prop :=
  outs.Pairwise (fun o o' => ¬ Least nodeRules nodes o o')

/-- One output for every request, in order and of the same value under every
interpretation that validates the rules. -/
def Aligned (nodes : List NodeKey) (outs : List NodeId) (reduced : GraphStore) : Prop :=
  reduced.outputs.length = outs.length ∧
    ∀ (V : Type u) (interp : String → List V → V), RespectsRules interp → ∃ values,
      evaluate interp reduced.nodes reduced.outputs = some values ∧
        evaluate interp nodes outs = some values

section Reduction

variable {find : EngineGraph → Nat → Nat} {nodes : List NodeKey} {outs : List NodeId}
  {comp : Nat → Nat} {red : Reduced}

/-- Two requests come to one fused node exactly when they share a place between
the passes. -/
theorem fused_output_eq_iff (topological : Topological nodes)
    (inside : ∀ o ∈ outs, o < nodes.length)
    (fused : Fused (dedupedGraph find nodes outs) (templates (live nodes outs)) comp red)
    {o o' : NodeId} (first : o ∈ outs) (second : o' ∈ outs) :
    representative find nodes outs comp o = representative find nodes outs comp o' ↔
      position find nodes outs o = position find nodes outs o' := by
  constructor
  · exact number_injective (position_exit topological inside fused first)
      (position_exit topological inside fused second)
  · intro same
    rw [representative, same, representative]

/-- The rules relate no two requests, so a sound partition keeps them apart. -/
theorem fused_outputs_nodup (sound : EggSound find) (topological : Topological nodes)
    (plain : ∀ key ∈ nodes, key.IsPlain) (inside : ∀ o ∈ outs, o < nodes.length)
    (fused : Fused (dedupedGraph find nodes outs) (templates (live nodes outs)) comp red)
    (unmerged : Unmerged nodes outs) : red.outputs.Nodup := by
  rw [fused_outputs fused, List.Nodup, List.pairwise_map]
  refine unmerged.imp_of_mem ?_
  intro o o' first second apart same
  have shared := (fused_output_eq_iff topological inside fused first second).mp same
  have related := cong_of_position topological inside
    (fun i j insideI insideJ merged =>
      sound _ (liveGraph_wellFormed topological inside) i j insideI insideJ merged)
    (.root first) (.root second) shared
  exact apart ((live_least_iff topological inside (livePlain_of_plain plain outs) (.root first)
      (.root second)).mp related)

/-- Distinct fused outputs were not related, if the engine saturates. An engine
that stops early may miss a relation. -/
theorem unmerged_of_nodup (saturates : EggSaturates find) (topological : Topological nodes)
    (plain : ∀ key ∈ nodes, key.IsPlain) (inside : ∀ o ∈ outs, o < nodes.length)
    (fused : Fused (dedupedGraph find nodes outs) (templates (live nodes outs)) comp red)
    (distinct : red.outputs.Nodup) : Unmerged nodes outs := by
  rw [fused_outputs fused, List.Nodup, List.pairwise_map] at distinct
  refine distinct.imp_of_mem ?_
  intro o o' first second apart related
  have merged := (live_least_iff topological inside (livePlain_of_plain plain outs) (.root first)
      (.root second)).mpr related
  have shared := (position_eq_iff saturates topological inside (.root first) (.root second)).mpr
    merged
  exact apart ((fused_output_eq_iff topological inside fused first second).mpr shared)

/-- Reducing a store of sources, ops and reductions: outputs that the rules do not
relate come back aligned. -/
theorem reduceWithOutputs_aligned (sound : EggSound find) {store : GraphStore}
    (interned : store.Interned) (plain : ∀ key ∈ store.nodes, key.IsPlain)
    (inside : ∀ o ∈ outs, o < store.nodes.length) (mode : FusionMode) :
    ∃ reduced report, store.reduceWithOutputs outs (EggEngine.canonicalize find) mode =
        some (.ok (reduced, report)) ∧
      (Unmerged store.nodes outs → Aligned.{u} store.nodes outs reduced) ∧
      (EggSaturates find → Aligned.{u} store.nodes outs reduced → Unmerged store.nodes outs) := by
  have free : ∀ key ∈ store.nodes, ¬ key.IsStage := fun key member => (plain key member).free
  have topological := interned.earlier
  obtain ⟨red, comp, reduced, reduces, fused, _, sameNodes, marks⟩ :=
    reduceWithOutputs_complete find interned free inside mode
  have length : red.outputs.length = outs.length := by
    rw [fused_outputs fused, List.length_map]
  refine ⟨reduced, red.report, reduces, ?_, ?_⟩
  · intro unmerged
    have distinct := fused_outputs_nodup sound topological plain inside fused unmerged
    have outputs : reduced.outputs = red.outputs := by
      rw [marks, marked_fresh (by simpa using distinct), List.nil_append]
    refine ⟨by rw [outputs, length], ?_⟩
    intro V interp respects
    rw [sameNodes, outputs]
    exact reduced_outputs_valuation respects sound topological inside free fused
  · intro saturates aligned
    refine unmerged_of_nodup saturates topological plain inside fused (marked_length ?_)
    rw [← marks, aligned.1, length]

end Reduction

/-- The reduced store returns one output of the right value for every request
exactly when the rules relate no two positions of the request. Outputs that are
merged are marked once, and a requested position has no partner then. -/
theorem outputs_aligned_iff (find : EngineGraph → Nat → Nat) (sound : EggSound find)
    (calls : List Call) (plain : ∀ call ∈ calls, call.IsPlain) (outs : List NodeId)
    (inside : ∀ o ∈ outs, o < (Call.run .new calls).nodeCount) (mode : FusionMode) :
    ∃ reduced report, (Call.run .new calls).reduceWithOutputs outs (EggEngine.canonicalize find)
        mode = some (.ok (reduced, report)) ∧
      (Unmerged (Call.run .new calls).nodes outs →
        Aligned.{u} (Call.run .new calls).nodes outs reduced) ∧
      (EggSaturates find →
        (Aligned.{u} (Call.run .new calls).nodes outs reduced ↔
          Unmerged (Call.run .new calls).nodes outs)) := by
  have interned := Call.interned_run interned_new calls
  obtain ⟨reduced, report, reduces, aligned, unmerged⟩ :=
    reduceWithOutputs_aligned sound interned (Call.plain_run plain) inside mode
  exact ⟨reduced, report, reduces, aligned, fun saturates => ⟨unmerged saturates, aligned⟩⟩

/-- A sum and one of its sources as outputs, which are told apart. -/
theorem outputs_aligned_iff_of_sum :
    ∃ reduced report, (Call.run .new sumCalls).reduceWithOutputs [2, 0]
        (EggEngine.canonicalize saturatedFind) .singleUse = some (.ok (reduced, report)) ∧
      (Aligned.{0} (Call.run .new sumCalls).nodes [2, 0] reduced ↔
        Unmerged (Call.run .new sumCalls).nodes [2, 0]) := by
  obtain ⟨reduced, report, reduces, _, aligned⟩ := outputs_aligned_iff saturatedFind
    (EggGenerated.sound saturatedFind_saturates) sumCalls (by decide) [2, 0] (by decide) .singleUse
  exact ⟨reduced, report, reduces, aligned saturatedFind_saturates⟩

/-- A source, and the same source plus zero. The two outputs become one node. -/
def plusZeroCalls : List Call :=
  [.addSource "x" (.new []), .addOp "add" [0] (.new [("scalar", .float 0), ("side", .str "r")])]

/-- Two requests, one output: the reduced store does not say that there were
two. -/
theorem outputs_merged :
    ¬ ∃ reduced report, (Call.run .new plusZeroCalls).reduceWithOutputs [0, 1]
        (EggEngine.canonicalize saturatedFind) .singleUse = some (.ok (reduced, report)) ∧
      Aligned.{0} (Call.run .new plusZeroCalls).nodes [0, 1] reduced := by
  have interned := Call.interned_run interned_new plusZeroCalls
  obtain ⟨reduced, report, reduces, _, unmerged⟩ := reduceWithOutputs_aligned
    (EggGenerated.sound saturatedFind_saturates) interned (Call.plain_run (by decide))
    (show ∀ o ∈ [0, 1], o < _ by decide) .singleUse
  rintro ⟨other, _, reduces', aligned⟩
  obtain ⟨rfl, rfl⟩ : reduced = other ∧ report = _ := by
    simpa using reduces.symm.trans reduces'
  have apart := unmerged saturatedFind_saturates aligned
  have second : (Call.run .new plusZeroCalls).nodes[1]? =
      some (.op "add" (.new [("scalar", .float 0), ("side", .str "r")]) [0]) := by decide
  have dropped : Least nodeRules (Call.run .new plusZeroCalls).nodes 1 0 :=
    .drop second ((identityOperator_iff _).mpr ⟨_, _, [0], rfl, by decide +kernel⟩) rfl trivial
  exact List.rel_of_pairwise_cons apart (List.mem_singleton_self 1) dropped.symm

end GraphedCore
