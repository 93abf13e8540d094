import GraphedCore.Recorded
import GraphedCore.Survivors

/-!
# External payloads through reduction

A boundary node is never rewritten, so one node of the fused list stands for it,
with its inputs. That node is rebuilt from the first live key of its token. The
token of an external writes the descriptor fields without escaping them, so two
payloads can share a token; then one of them is replaced by the other. Payloads
are kept exactly when no two live ones share a token.
-/

namespace GraphedCore

open Dag Wired StageFusion GraphStore

universe u

/-- A map from live boundary nodes to reduced nodes that stand for them: the
outputs follow it, it commutes with reading inputs, and it keeps values. -/
structure Represents (nodes : List NodeKey) (outs : List NodeId) (reduced : Reduced)
    (rep : NodeId → Nat) : Prop where
  outputs : reduced.outputs = outs.map rep
  reads : ∀ i key, Reaches nodes outs i → nodes[i]? = some key → key.isBoundary = true →
    ∃ built, reduced.nodes[rep i]? = some built ∧ built.inputs = key.inputs.map rep
  values : ∀ (V : Type u) (interp : String → List V → V), RespectsRules interp →
    ∀ i key, Reaches nodes outs i → nodes[i]? = some key → key.isBoundary = true →
      ∃ value, evaluate interp reduced.nodes [rep i] = some [value] ∧
        evaluate interp nodes [i] = some [value]

/-- Every live external is represented by an external of its descriptor and its
parameters, and different payloads by different nodes. -/
structure PayloadsKept (nodes : List NodeKey) (outputs : List NodeId) (reduced : Reduced)
    (rep : NodeId → Nat) : Prop where
  carried : ∀ i d p xs, Reaches nodes outputs i → nodes[i]? = some (.external d p xs) →
    ∃ p' ys, reduced.nodes[rep i]? = some (.external d p' ys) ∧ p.eq p' = true
  apart : ∀ i j d p xs d' p' ys, Reaches nodes outputs i → Reaches nodes outputs j →
    nodes[i]? = some (.external d p xs) → nodes[j]? = some (.external d' p' ys) →
      ¬ (d = d' ∧ p.eq p' = true) → rep i ≠ rep j

/-- Two live externals of one token have one descriptor and equal parameters. The
token alone does not say so, since bars are not escaped. -/
def PayloadsApart (nodes : List NodeKey) (outputs : List NodeId) : Prop :=
  ∀ i j d p xs d' p' ys, Reaches nodes outputs i → Reaches nodes outputs j →
    nodes[i]? = some (.external d p xs) → nodes[j]? = some (.external d' p' ys) →
      (NodeKey.external d p xs).token = (NodeKey.external d' p' ys).token →
        d = d' ∧ p.eq p' = true

/-- A call that records anything but a stage. The methods of the bindings are such
calls. -/
def Call.IsRecording (call : Call) : Prop := ∀ key, call.key? = some key → ¬ key.IsStage

instance (call : Call) : Decidable call.IsRecording :=
  match asked : call.key? with
  | none => isTrue (by simp [Call.IsRecording, asked])
  | some key => decidable_of_iff (¬ key.IsStage) (by simp [Call.IsRecording, asked])

/-- Recording calls record no stage. -/
theorem Call.free_run {calls : List Call} (recording : ∀ call ∈ calls, call.IsRecording) :
    ∀ key ∈ (run .new calls).nodes, ¬ key.IsStage := by
  intro key member
  rcases mem_run_nodes member with none | ⟨call, listed, asks⟩
  · simp [GraphStore.new] at none
  · exact recording call listed key asks

section Boundaries

variable {find : EngineGraph → Nat → Nat} {fired : EngineGraph → Nat → Nat → Prop}
  {nodes : List NodeKey} {outputs : List NodeId} {comp : Nat → Nat} {red : Reduced}
  {i : NodeId} {key : NodeKey}

/-- At the position of a boundary stands a node of its token, over the positions
of its inputs. -/
theorem dedupedGraph_boundary (generated : EggGenerated find fired)
    (topological : Topological nodes) (inside : ∀ o ∈ outputs, o < nodes.length)
    (reached : Reaches nodes outputs i) (lookup : nodes[i]? = some key)
    (boundary : key.isBoundary = true) :
    ∃ node, (dedupedGraph find nodes outputs).nodes[position find nodes outputs i]? = some node ∧
      node.token = key.token ∧ node.inputs = key.inputs.map (position find nodes outputs) := by
  have wellFormed := liveGraph_wellFormed topological inside
  have canonicalFormed := canonicalGraph_wellFormed find topological inside
  obtain ⟨undropped, uncommuted⟩ := NodeKey.inert_of_boundary boundary
  have loaded : (liveGraph nodes outputs).nodes[number (Reaches nodes outputs) i]? = some _ :=
    loaded_getElem? ⟨reached, rfl⟩ lookup
  obtain ⟨canonical, stored, tokens, reads⟩ := quotient_inert
    (kernel_equivalence find (liveGraph nodes outputs)) wellFormed.earlier
    (fun i insideI j insideJ => generated _ wellFormed i j insideI insideJ) loaded undropped
    uncommuted
  obtain ⟨node, kept, tokens', reads'⟩ := quotient_inert least_equivalence canonicalFormed.earlier
    (fun _ _ _ _ => Iff.rfl) stored
    (show ¬ tokenRules.drops (tokenRules.label canonical) from not_false)
    (show ¬ tokenRules.commutes (tokenRules.label canonical) from not_false)
  refine ⟨node, kept, tokens'.trans tokens, ?_⟩
  have inputs : node.inputs = _ := reads'
  rw [inputs, reads, inputs_rewire, List.map_map, List.map_map]
  rfl

/-- The node emitted for a boundary: the template of its token over the
representatives of its inputs. -/
theorem fused_boundary (generated : EggGenerated find fired) (topological : Topological nodes)
    (inside : ∀ o ∈ outputs, o < nodes.length)
    (fused : Fused (dedupedGraph find nodes outputs) (templates (live nodes outputs)) comp red)
    (reached : Reaches nodes outputs i) (lookup : nodes[i]? = some key)
    (boundary : key.isBoundary = true) :
    Exit (dedupedGraph find nodes outputs) comp (position find nodes outputs i) ∧
      ∃ template, Table.get? (· == ·) (templates (live nodes outputs)) key.token = some template ∧
        red.nodes[representative find nodes outputs comp i]? =
          some (template.withInputs (key.inputs.map (representative find nodes outputs comp))) := by
  have wellFormed := dedupedGraph_wellFormed find topological inside
  obtain ⟨node, found, token, reads⟩ :=
    dedupedGraph_boundary generated topological inside reached lookup boundary
  have flag : node.boundary = true := by
    rw [wellFormed.kinds node (List.mem_of_getElem? found), token,
      NodeKey.boundaryFromToken_token, boundary]
  have exit := fused.components.boundary_exit found flag
  obtain ⟨built, present, rebuilt⟩ := fused.rebuilt _ exit
  refine ⟨exit, ?_⟩
  cases rebuilt with
  | @boundary other template found' _ stored =>
    obtain rfl := Option.some.inj (found.symm.trans found')
    refine ⟨template, token ▸ stored, present.trans ?_⟩
    rw [reads, List.map_map]
    rfl
  | stage found' op =>
    obtain rfl := Option.some.inj (found.symm.trans found')
    rw [flag] at op
    cases op

/-- The representatives of the pipeline: each payload that is live goes to the
node of the reduced graph that is rebuilt from its token, over the representatives
of its inputs. -/
theorem representative_represents (generated : EggGenerated find fired)
    (topological : Topological nodes) (inside : ∀ o ∈ outputs, o < nodes.length)
    (free : ∀ key ∈ nodes, ¬ key.IsStage)
    (fused : Fused (dedupedGraph find nodes outputs) (templates (live nodes outputs)) comp red) :
    Represents.{u} nodes outputs red (representative find nodes outputs comp) where
  outputs := fused_outputs fused
  reads i key reached lookup boundary := by
    obtain ⟨_, template, stored, built⟩ :=
      fused_boundary generated topological inside fused reached lookup boundary
    refine ⟨_, built, inputs_withInputs_of_token ?_ _ (List.length_map _)⟩
    rw [templates_get?] at stored
    simpa using List.find?_some stored
  values V interp respects i key reached lookup boundary := by
    have wellFormed := dedupedGraph_wellFormed find topological inside
    have exit := (fused_boundary generated topological inside fused reached lookup boundary).1
    obtain ⟨vals, valuation⟩ := stageFree_valuation interp topological free
    obtain ⟨final, computed, agrees⟩ :=
      reduced_valuation respects generated.sound topological inside free fused valuation
    obtain ⟨value, present⟩ := lookup_exists (valuation.length ▸ lookup_bound lookup)
    refine ⟨value, ?_, ?_⟩
    · rw [evaluate, evalAt,
        (eval_eq_some_iff _ _ (fused.topological wellFormed.ordered) _).mpr computed]
      simp [gather, agrees i reached exit, present]
    · rw [evaluate, evalAt, (eval_eq_some_iff _ _ topological _).mpr valuation]
      simp [gather, present]

/-- A template of an external's token is a live external of that token. -/
theorem template_external {d : PayloadDescriptor} {p : ParamMap} {xs : List NodeId}
    {template : NodeKey} (stored : Table.get? (· == ·) (templates (live nodes outputs))
      (NodeKey.external d p xs).token = some template) :
    ∃ j d' p' ys zs, Reaches nodes outputs j ∧ nodes[j]? = some (.external d' p' ys) ∧
      template = .external d' p' zs ∧
      (NodeKey.external d p xs).token = (NodeKey.external d' p' ys).token := by
  rw [templates_get?] at stored
  have token : template.token = (NodeKey.external d p xs).token := by
    simpa using List.find?_some stored
  obtain ⟨j, source, reached, found, rfl⟩ := live_source (List.mem_of_find?_eq_some stored)
  rw [NodeKey.token_rewire] at token
  have tags := NodeKey.tag_eq token
  cases source with
  | external d' p' ys => exact ⟨j, d', p', ys, _, reached, found, rfl, token.symm⟩
  | _ => simp [NodeKey.tag] at tags

/-- The representatives keep the payloads exactly when the tokens tell them
apart. -/
theorem representative_keeps_iff (generated : EggGenerated find fired)
    (topological : Topological nodes) (inside : ∀ o ∈ outputs, o < nodes.length)
    (fused : Fused (dedupedGraph find nodes outputs) (templates (live nodes outputs)) comp red) :
    PayloadsKept nodes outputs red (representative find nodes outputs comp) ↔
      PayloadsApart nodes outputs := by
  constructor
  · intro kept i j d p xs d' p' ys reached reached' lookup lookup' same
    obtain ⟨_, template, stored, built⟩ :=
      fused_boundary generated topological inside fused reached lookup rfl
    obtain ⟨_, template', stored', built'⟩ :=
      fused_boundary generated topological inside fused reached' lookup' rfl
    obtain rfl : template = template' := by
      rw [same, stored'] at stored
      exact (Option.some.inj stored).symm
    obtain ⟨q, _, carried, equal⟩ := kept.carried i d p xs reached lookup
    obtain ⟨q', _, carried', equal'⟩ := kept.carried j d' p' ys reached' lookup'
    rw [built, Option.some.injEq] at carried
    rw [built', Option.some.injEq] at carried'
    cases template with
    | external e r zs =>
      obtain ⟨rfl, rfl, _⟩ := NodeKey.external.inj carried
      obtain ⟨rfl, rfl, _⟩ := NodeKey.external.inj carried'
      refine ⟨rfl, (ParamMap.eq_iff _ _).mpr ?_⟩
      exact ((ParamMap.eq_iff _ _).mp equal).trans ((ParamMap.eq_iff _ _).mp equal').symm
    | _ => simp [NodeKey.withInputs] at carried
  · intro apart
    have carried : ∀ i d p xs, Reaches nodes outputs i → nodes[i]? = some (.external d p xs) →
        ∃ p' ys, red.nodes[representative find nodes outputs comp i]? =
          some (.external d p' ys) ∧ p.eq p' = true := by
      intro i d p xs reached lookup
      obtain ⟨_, template, stored, built⟩ :=
        fused_boundary generated topological inside fused reached lookup rfl
      obtain ⟨j, d', p', ys, zs, reached', lookup', rfl, same⟩ := template_external stored
      obtain ⟨rfl, equal⟩ := apart i j d p xs d' p' ys reached reached' lookup lookup' same
      exact ⟨p', _, built, equal⟩
    refine ⟨carried, ?_⟩
    intro i j d p xs d' p' ys reached reached' lookup lookup' different same
    obtain ⟨q, _, built, equal⟩ := carried i d p xs reached lookup
    obtain ⟨q', _, built', equal'⟩ := carried j d' p' ys reached' lookup'
    rw [same, built', Option.some.injEq] at built
    obtain ⟨rfl, rfl, _⟩ := NodeKey.external.inj built
    refine different ⟨rfl, (ParamMap.eq_iff _ _).mpr ?_⟩
    exact ((ParamMap.eq_iff _ _).mp equal).trans ((ParamMap.eq_iff _ _).mp equal').symm

end Boundaries

/-- Every live external is represented by an external of its own descriptor and
parameters, and different payloads by different nodes, exactly when no two live
externals of different payloads have one token. -/
theorem payloads_kept_iff (find : EngineGraph → Nat → Nat)
    (fired : EngineGraph → Nat → Nat → Prop) (generated : EggGenerated find fired)
    (calls : List Call) (recording : ∀ call ∈ calls, call.IsRecording) (outs : List NodeId)
    (inside : ∀ o ∈ outs, o < (Call.run .new calls).nodeCount) (mode : FusionMode) :
    ∃ red comp, reduceWithMode (Call.run .new calls).nodes outs (EggEngine.canonicalize find) mode =
        some red ∧
      Represents.{u} (Call.run .new calls).nodes outs red
        (representative find (Call.run .new calls).nodes outs comp) ∧
      (PayloadsKept (Call.run .new calls).nodes outs red
          (representative find (Call.run .new calls).nodes outs comp) ↔
        PayloadsApart (Call.run .new calls).nodes outs) := by
  have topological := (Call.interned_run interned_new calls).earlier
  obtain ⟨red, comp, reduces, fused⟩ := reduceWithMode_complete find topological inside mode
  exact ⟨red, comp, reduces,
    representative_represents generated topological inside (Call.free_run recording) fused,
    representative_keeps_iff generated topological inside fused⟩

/-- Two payloads whose fields differ only in where a bar falls, so that they have
one token. -/
def barCalls : List Call :=
  [.addExternal ⟨"onnx", "a|b", "c", "1", "io", none⟩ [] (.new []),
    .addExternal ⟨"onnx", "a", "b|c", "1", "io", none⟩ [] (.new [])]

/-- A payload with a bar in a field, which no other live payload is confused
with. -/
theorem payloads_kept_iff_of_bars :
    ∃ red comp, reduceWithMode (Call.run .new barCalls).nodes [1]
        (EggEngine.canonicalize saturatedFind) .maximal = some red ∧
      Represents.{0} (Call.run .new barCalls).nodes [1] red
        (representative saturatedFind (Call.run .new barCalls).nodes [1] comp) ∧
      (PayloadsKept (Call.run .new barCalls).nodes [1] red
          (representative saturatedFind (Call.run .new barCalls).nodes [1] comp) ↔
        PayloadsApart (Call.run .new barCalls).nodes [1]) :=
  payloads_kept_iff saturatedFind (fun _ _ _ => True) saturatedFind_saturates barCalls (by decide)
    [1] (by decide) .maximal

/-- Both payloads are requested and one of them is returned twice, whatever map is
taken to represent the nodes. -/
theorem payloads_confused :
    ¬ ∃ red rep, reduceWithMode (Call.run .new barCalls).nodes [0, 1]
        (EggEngine.canonicalize saturatedFind) .maximal = some red ∧
      Represents.{0} (Call.run .new barCalls).nodes [0, 1] red rep ∧
      PayloadsKept (Call.run .new barCalls).nodes [0, 1] red rep := by
  rintro ⟨red, rep, reduces, represents, kept⟩
  have topological := (Call.interned_run interned_new barCalls).earlier
  have inside : ∀ o ∈ [0, 1], o < (Call.run .new barCalls).nodes.length := by decide
  obtain ⟨other, comp, reduces', fused⟩ :=
    reduceWithMode_complete saturatedFind topological inside .maximal
  obtain rfl := Option.some.inj (reduces.symm.trans reduces')
  have first : Reaches (Call.run .new barCalls).nodes [0, 1] 0 := .root (by simp)
  have second : Reaches (Call.run .new barCalls).nodes [0, 1] 1 := .root (by simp)
  have lookup : (Call.run .new barCalls).nodes[0]? =
      some (.external ⟨"onnx", "a|b", "c", "1", "io", none⟩ (.new []) []) := by decide
  have lookup' : (Call.run .new barCalls).nodes[1]? =
      some (.external ⟨"onnx", "a", "b|c", "1", "io", none⟩ (.new []) []) := by decide
  -- one token and no inputs, so the engine merges the two
  have merged : position saturatedFind (Call.run .new barCalls).nodes [0, 1] 0 =
      position saturatedFind (Call.run .new barCalls).nodes [0, 1] 1 :=
    (position_eq_iff saturatedFind_saturates topological inside first second).mpr
      (.of_inputs (loaded_getElem? ⟨first, rfl⟩ lookup) (loaded_getElem? ⟨second, rfl⟩ lookup')
        (show _ = _ by decide +kernel) .nil)
  have outs := represents.outputs.symm.trans (fused_outputs fused)
  have same : rep 0 = rep 1 := by
    simp only [List.map_cons, List.map_nil, List.cons.injEq, and_true, representative, merged]
      at outs
    exact outs.1.trans outs.2.symm
  exact kept.apart 0 1 _ _ _ _ _ _ first second lookup lookup' (by decide) same

end GraphedCore
