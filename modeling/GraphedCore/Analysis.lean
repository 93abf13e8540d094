import GraphedCore.Running
import GraphedCore.Shipping

/-!
# Compile once, run on any datasets

An analysis is recorded, shipped and reduced once. For a partition a worker walks the views of
the reduced graph over the entries that the partition resolves to, and makes one partial result
of what it finds at the outputs; the runner combines the partial results. Where the recorded
graph adds up over ranges of entries, the run gives what the recorded graph makes of the whole
datasets, whichever datasets they are and however they are cut.
-/

namespace GraphedCore

open Execution

universe u
variable {V : Type u} {S E H R : Type}

namespace Executor

/-- At the nodes that stand for the outputs the reduced views have the values of
the outputs. -/
theorem FindsAt.valuesAt_eq {ex : Executor V} {store reduced : GraphStore} {outs : List NodeId}
    {found : NodeId → NodeId} (finds : ex.FindsAt store outs reduced found)
    {views views' : List NodeView} (shown : PyGraphStore.nodes store = .ok views)
    (shown' : PyGraphStore.nodes reduced = .ok views') :
    ex.valuesAt views' (outs.map found) = ex.valuesAt views outs := by
  obtain ⟨seen, seen', vals, vals', visible, visible', walked, walked', same⟩ := finds
  obtain rfl := Except.ok.inj (visible.symm.trans shown)
  obtain rfl := Except.ok.inj (visible'.symm.trans shown')
  rw [valuesAt, valuesAt, walked, walked', Option.bind_some, Option.bind_some, List.mapM_map]
  apply Enumerate.mapM_congr
  intro o member
  obtain ⟨value, known, known'⟩ := same o member
  rw [Function.comp_apply, known, known']

end Executor

/-- How a graph is evaluated over a range of entries of a tree of a file, and one
partial result made of the values at its outputs. -/
structure Analysis (V : Type u) (R : Type) where
  ranged : String → String → Int → Int → Executor V
  summarize : List V → R

namespace Analysis

/-- The partial result of a range of entries, if the walk over the views
succeeds. -/
def result (analysis : Analysis V R) (views : List NodeView) (ids : List NodeId)
    (uri tree : String) (start stop : Int) : Option R :=
  ((analysis.ranged uri tree start stop).valuesAt views ids).map analysis.summarize

/-- The partial result of a partition is that of the range it resolves to. What
cannot be resolved or walked raises. -/
def process (analysis : Analysis V R) (entries : String → String → Int) (unread : E)
    (views : List NodeView) (ids : List NodeId) (x : Partition) : Except E R :=
  match x.resolve (entries x.uri x.tree) with
  | some y =>
    match analysis.result views ids y.uri y.tree y.entryStart y.entryStop with
    | some part => .ok part
    | none => .error unread
  | none => .error unread

variable {analysis : Analysis V R}

/-- Every source of a range counts its entries, and the outputs are added up into
one partial result. -/
def counted : Analysis Int (Multiplicative Int) where
  ranged _ _ start stop := tally (stop - start)
  summarize values := .ofAdd values.sum

end Analysis

end GraphedCore
