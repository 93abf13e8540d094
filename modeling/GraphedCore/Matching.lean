import GraphedCore.Lib.Layout
import GraphedCore.Recorded
import GraphedCore.Survivors

/-!
# Arenas that reduce to one list

With an engine that saturates, the pipeline keeps of every class of live nodes the
first live member, in order. So two arenas whose live nodes correspond up to the
rules are reduced to the same list when, in both, the first live members come in
the same order, read corresponding nodes in the same order, and carry the same
parameters where they are boundaries.
-/

namespace GraphedCore

open Dag Wired StageFusion

/-! ## Templates are read by token -/

/-- Emission looks templates up by the tokens of boundaries, and sets the inputs
of what it finds, so tables that agree on this emit alike. -/
theorem emit_congr {graph : EngineGraph} {table table' : List (String × NodeKey)}
    (same : ∀ node ∈ graph.nodes, node.boundary = true → ∀ ids,
      (Table.get? (· == ·) table node.token).map (fun template => template.withInputs ids) =
        (Table.get? (· == ·) table' node.token).map (fun template => template.withInputs ids))
    (compId : List Nat) : StageFusion.emit graph table compId =
      StageFusion.emit graph table' compId := by
  funext state c
  cases lookup : graph.nodes[c]? with
  | none => simp only [StageFusion.emit, lookup, Option.bind_eq_bind, Option.bind_none]
  | some node =>
    by_cases boundary : node.boundary = true
    · cases reads : node.inputs.mapM (fun i =>
          (compId[i]?).bind (fun c => compToReduced state c)) with
      | none =>
        simp only [StageFusion.emit, lookup, boundary, reads, Option.bind_eq_bind,
          Option.bind_some, Option.bind_none, if_true]
      | some ids =>
        have agree := same node (List.mem_of_getElem? lookup) boundary ids
        simp only [StageFusion.emit, lookup, boundary, reads, Option.bind_eq_bind,
          Option.bind_some, if_true]
        cases found : Table.get? (· == ·) table node.token <;>
          cases found' : Table.get? (· == ·) table' node.token <;> simp_all
    · simp only [StageFusion.emit, lookup, Option.bind_eq_bind, Option.bind_some, if_neg boundary]

/-- Two tables that agree on boundaries up to inputs give one fused graph. -/
theorem stageFusion_congr {graph : EngineGraph} {table table' : List (String × NodeKey)}
    (same : ∀ node ∈ graph.nodes, node.boundary = true → ∀ ids,
      (Table.get? (· == ·) table node.token).map (fun template => template.withInputs ids) =
        (Table.get? (· == ·) table' node.token).map (fun template => template.withInputs ids))
    (mode : FusionMode) : stageFusion graph table mode = stageFusion graph table' mode := by
  rw [stageFusion, stageFusion]
  cases StageFusion.compId graph mode with
  | none => rfl
  | some compId => simp only [Option.bind_eq_bind, Option.bind_some, emit_congr same compId]

/-! ## First live members -/

section FirstLive

variable {find : EngineGraph → Nat → Nat} {nodes : List NodeKey} {outs : List NodeId} {i j : NodeId}
  {key : NodeKey}

/-- The first live node that the rules relate to a node. For a node without a live
one in its class it says nothing. -/
noncomputable def firstLive (nodes : List NodeKey) (outs : List NodeId) (i : NodeId) : NodeId :=
  sInf {j | Reaches nodes outs j ∧ Least nodeRules nodes j i}

/-- The first live member of a live class is live and in the class. -/
theorem firstLive_spec (reached : Reaches nodes outs i) :
    Reaches nodes outs (firstLive nodes outs i) ∧ Least nodeRules nodes (firstLive nodes outs i) i :=
  Nat.sInf_mem (show ({j | Reaches nodes outs j ∧ Least nodeRules nodes j i} : Set Nat).Nonempty
    from ⟨i, reached, .refl i⟩)

/-- No live member of a class comes before the first one. -/
theorem firstLive_le (reached : Reaches nodes outs j) (related : Least nodeRules nodes j i) :
    firstLive nodes outs i ≤ j :=
  Nat.sInf_le (show j ∈ {j | Reaches nodes outs j ∧ Least nodeRules nodes j i} from
    ⟨reached, related⟩)

/-- The first live member did not collapse: its input would be live and
earlier. -/
theorem firstLive_not_collapsed (topological : Topological nodes) (reached : Reaches nodes outs i) :
    ¬ Collapsed nodeRules (fun _ _ => True) nodes (firstLive nodes outs i) := by
  rintro ⟨node, a, lookup, _, single, onto⟩
  obtain ⟨first, related⟩ := firstLive_spec reached
  have member : a ∈ node.inputs := by
    rw [← NodeKey.wired_inputs, single]
    exact List.mem_singleton_self a
  have le := firstLive_le (first.input lookup member) (onto.symm.trans related)
  exact Nat.not_lt_of_ge le (topological _ node lookup a member)

/-- The first live node of the class of a boundary is an equal boundary. Rules
identify ops only. -/
theorem firstLive_boundary (topological : Topological nodes)
    (plain : LivePlain nodes outs) (reached : Reaches nodes outs i)
    (lookup : nodes[i]? = some key) (boundary : key.isBoundary = true) :
    ∃ source, nodes[firstLive nodes outs i]? = some source ∧ source.token = key.token := by
  have free : ¬ Collapsed nodeRules (fun _ _ => True) nodes i := by
    rintro ⟨node, _, found, drops, _⟩
    obtain rfl := Option.some.inj (lookup.symm.trans found)
    obtain ⟨_, _, _, rfl, _⟩ := (identityOperator_iff key).mp drops
    cases boundary
  obtain ⟨found, source, present, stored, operators, _⟩ :=
    ((firstLive_spec reached).2.symm.twin topological free
      (firstLive_not_collapsed topological reached)).alike lookup
  obtain rfl := Option.some.inj (lookup.symm.trans present)
  refine ⟨source, stored, ?_⟩
  exact ((NodeKey.token_eq_iff (plain i key reached lookup)
    (plain _ source (firstLive_spec reached).1 stored)).mpr operators).symm

/-- A partition that saturates relates live nodes as the rules do. Dead nodes are
not needed for it. -/
theorem kernel_loaded_iff (saturates : EggSaturates find) (topological : Topological nodes)
    (inside : ∀ o ∈ outs, o < nodes.length) (plain : LivePlain nodes outs)
    (first : Reaches nodes outs i) (second : Reaches nodes outs j) :
    kernel find (liveGraph nodes outs) (number (Reaches nodes outs) i)
      (number (Reaches nodes outs) j) ↔ Least nodeRules nodes i j := by
  rw [← live_least_iff topological inside plain first second]
  exact saturates _ (liveGraph_wellFormed topological inside) _ _
    (loaded_lt topological inside first) (loaded_lt topological inside second)

/-- The engine keeps the first live member of a class, since live nodes are loaded
in their order. -/
theorem leader_loaded (saturates : EggSaturates find) (topological : Topological nodes)
    (inside : ∀ o ∈ outs, o < nodes.length) (plain : LivePlain nodes outs)
    (reached : Reaches nodes outs i) :
    leader (kernel find (liveGraph nodes outs)) (number (Reaches nodes outs) i) =
      number (Reaches nodes outs) (firstLive nodes outs i) := by
  obtain ⟨first, related⟩ := firstLive_spec reached
  have equivalence := kernel_equivalence find (liveGraph nodes outs)
  apply Nat.le_antisymm
  · exact leader_le_of_related
      ((kernel_loaded_iff saturates topological inside plain first reached).mpr related)
  · have bound := (leader_le equivalence (number (Reaches nodes outs) i)).trans_lt
      (loaded_lt topological inside reached)
    rw [liveGraph, toEngineGraph, List.length_map, ← toEngineGraph, ← liveGraph] at bound
    obtain ⟨l, reached', _, position⟩ := compact_surjective bound
    have same := leader_related equivalence (number (Reaches nodes outs) i)
    rw [← position] at same ⊢
    exact number_mono _ (firstLive_le reached'
      ((kernel_loaded_iff saturates topological inside plain reached' reached).mp same))

/-- The template of a token is the first live key of it, as the templates are made
of live nodes. -/
theorem template_first {token : String} {template : NodeKey}
    (stored : Table.get? (· == ·) (templates (live nodes outs)) token = some template) :
    ∃ t source, Reaches nodes outs t ∧ nodes[t]? = some source ∧ source.token = token ∧
      template = rewire (number (Reaches nodes outs)) source ∧
      ∀ l other, Reaches nodes outs l → nodes[l]? = some other → other.token = token → t ≤ l := by
  rw [templates_get?, List.find?_eq_some_iff_getElem] at stored
  obtain ⟨carries, k, bound, here, before⟩ := stored
  obtain ⟨t, source, reached, found, rfl, rfl⟩ :=
    compact_lookup (List.getElem?_eq_some_iff.mpr ⟨bound, here⟩)
  refine ⟨t, source, reached, found, by simpa using carries, rfl, ?_⟩
  intro l other reached' found' same
  by_contra earlier
  have less := number_lt reached' (Nat.lt_of_not_le earlier)
  have skipped := before _ less
  have lookup := live_getElem? reached' found'
  rw [List.getElem?_eq_getElem (less.trans bound), Option.some.injEq] at lookup
  simp [lookup, same] at skipped

end FirstLive

/-! ## Matching arenas -/

section Match

variable {find : EngineGraph → Nat → Nat} {nodes nodes' : List NodeKey} {outs outs' : List NodeId}
  {C : NodeId → NodeId → Prop}

/-- The live nodes of two arenas correspond up to the rules, and so do the order,
the inputs and the boundary parameters of the first live members. -/
structure Matching (nodes : List NodeKey) (outs : List NodeId) (nodes' : List NodeKey)
    (outs' : List NodeId) (C : NodeId → NodeId → Prop) : Prop where
  reached : ∀ i j, C i j → Reaches nodes outs i ∧ Reaches nodes' outs' j
  total : ∀ i, Reaches nodes outs i → ∃ j, C i j
  onto : ∀ j, Reaches nodes' outs' j → ∃ i, C i j
  agree : ∀ i j i' j', C i j → C i' j' →
    (Least nodeRules nodes i i' ↔ Least nodeRules nodes' j j')
  order : ∀ i j i' j', C i j → C i' j' →
    (firstLive nodes outs i < firstLive nodes outs i' ↔
      firstLive nodes' outs' j < firstLive nodes' outs' j')
  shape : ∀ i j key key', C i j → nodes[firstLive nodes outs i]? = some key →
    nodes'[firstLive nodes' outs' j]? = some key' →
      key.token = key'.token ∧ List.Forall₂ C key.inputs key'.inputs ∧
        (key.isBoundary = true → (∀ l other, Reaches nodes outs l → nodes[l]? = some other →
          other.token = key.token → firstLive nodes outs i ≤ l) →
            key.withInputs [] = key'.withInputs [])
  outputs : List.Forall₂ C outs outs'

/-- Corresponding nodes of the two live graphs, by their numbers there. -/
def Matching.Loaded (nodes : List NodeKey) (outs : List NodeId) (nodes' : List NodeKey)
    (outs' : List NodeId) (C : NodeId → NodeId → Prop) (k l : Nat) : Prop :=
  ∃ i j, C i j ∧ k = number (Reaches nodes outs) i ∧ l = number (Reaches nodes' outs') j

/-- Graphs that match lay their classes out alike: what the pipeline sees of the
classes' order and shapes is the same in both. -/
theorem Matching.layout (matching : Matching nodes outs nodes' outs' C)
    (saturates : EggSaturates find) (topological : Topological nodes)
    (topological' : Topological nodes') (inside : ∀ o ∈ outs, o < nodes.length)
    (inside' : ∀ o ∈ outs', o < nodes'.length) (plain : LivePlain nodes outs)
    (plain' : LivePlain nodes' outs') :
    SameLayout (kernel find (liveGraph nodes outs)) (kernel find (liveGraph nodes' outs'))
      (liveGraph nodes outs).nodes.length (liveGraph nodes' outs').nodes.length
      (Matching.Loaded nodes outs nodes' outs' C) where
  bound := by
    rintro _ _ ⟨i, j, related, rfl, rfl⟩
    obtain ⟨reached, reached'⟩ := matching.reached i j related
    exact ⟨loaded_lt topological inside reached, loaded_lt topological' inside' reached'⟩
  total k bound := by
    rw [liveGraph, toEngineGraph, List.length_map] at bound
    obtain ⟨i, reached, _, rfl⟩ := compact_surjective bound
    obtain ⟨j, related⟩ := matching.total i reached
    exact ⟨_, i, j, related, rfl, rfl⟩
  onto l bound := by
    rw [liveGraph, toEngineGraph, List.length_map] at bound
    obtain ⟨j, reached, _, rfl⟩ := compact_surjective bound
    obtain ⟨i, related⟩ := matching.onto j reached
    exact ⟨_, i, j, related, rfl, rfl⟩
  agree := by
    rintro _ _ _ _ ⟨i, j, related, rfl, rfl⟩ ⟨i', j', related', rfl, rfl⟩
    obtain ⟨reached, reachedJ⟩ := matching.reached i j related
    obtain ⟨reached', reachedJ'⟩ := matching.reached i' j' related'
    rw [kernel_loaded_iff saturates topological inside plain reached reached',
      kernel_loaded_iff saturates topological' inside' plain' reachedJ reachedJ']
    exact matching.agree i j i' j' related related'
  order := by
    rintro _ _ _ _ ⟨i, j, related, rfl, rfl⟩ ⟨i', j', related', rfl, rfl⟩
    obtain ⟨reached, reachedJ⟩ := matching.reached i j related
    obtain ⟨reached', reachedJ'⟩ := matching.reached i' j' related'
    rw [leader_loaded saturates topological inside plain reached,
      leader_loaded saturates topological inside plain reached',
      leader_loaded saturates topological' inside' plain' reachedJ,
      leader_loaded saturates topological' inside' plain' reachedJ',
      number_lt_iff (firstLive_spec reached).1, number_lt_iff (firstLive_spec reachedJ).1]
    exact matching.order i j i' j' related related'

/-- Inputs that correspond are loaded at places that correspond. -/
theorem forall₂_loaded {xs ys : List NodeId} (pairs : List.Forall₂ C xs ys) :
    List.Forall₂ (Matching.Loaded nodes outs nodes' outs' C)
      (xs.map (number (Reaches nodes outs))) (ys.map (number (Reaches nodes' outs'))) := by
  rw [List.forall₂_map_left_iff, List.forall₂_map_right_iff]
  exact pairs.imp (fun i j related => ⟨i, j, related, rfl, rfl⟩)

/-- Matching arenas are one graph between the passes: classes in one order, with
equal tokens and inputs. -/
theorem Matching.dedupedGraph_eq (matching : Matching nodes outs nodes' outs' C)
    (saturates : EggSaturates find) (topological : Topological nodes)
    (topological' : Topological nodes') (inside : ∀ o ∈ outs, o < nodes.length)
    (inside' : ∀ o ∈ outs', o < nodes'.length) (plain : LivePlain nodes outs)
    (plain' : LivePlain nodes' outs') :
    dedupedGraph find nodes outs = dedupedGraph find nodes' outs' := by
  have layout := matching.layout saturates topological topological' inside inside' plain plain'
  have first := kernel_equivalence find (liveGraph nodes outs)
  have second := kernel_equivalence find (liveGraph nodes' outs')
  have stored : quotient (kernel find (liveGraph nodes outs)) (liveGraph nodes outs).nodes =
      quotient (kernel find (liveGraph nodes' outs')) (liveGraph nodes' outs').nodes := by
    refine layout.quotient_eq first second ?_
    rintro _ _ node node' ⟨i, j, related, rfl, rfl⟩ lookup lookup'
    obtain ⟨reached, reached'⟩ := matching.reached i j related
    have live := (firstLive_spec reached).1
    have live' := (firstLive_spec reached').1
    obtain ⟨key, found⟩ := lookup_exists (live.bound topological inside)
    obtain ⟨key', found'⟩ := lookup_exists (live'.bound topological' inside')
    rw [leader_loaded saturates topological inside plain reached,
      loaded_getElem? ⟨live, rfl⟩ found, Option.some.injEq] at lookup
    rw [leader_loaded saturates topological' inside' plain' reached',
      loaded_getElem? ⟨live', rfl⟩ found', Option.some.injEq] at lookup'
    obtain ⟨tokens, pairs, _⟩ := matching.shape i j key key' related found found'
    have reads := layout.map_place first second (forall₂_loaded pairs)
    rw [← lookup, ← lookup']
    simp only [rewire, toEngineNode, tokens, NodeKey.isBoundary_eq tokens, EngineNode.mk.injEq,
      true_and]
    exact reads
  have requested : (liveGraph nodes outs).outputs.map (place (kernel find (liveGraph nodes outs))) =
      (liveGraph nodes' outs').outputs.map (place (kernel find (liveGraph nodes' outs'))) :=
    layout.map_place first second (forall₂_loaded matching.outputs)
  have canonical : canonicalGraph find nodes outs = canonicalGraph find nodes' outs' := by
    rw [canonicalGraph, canonicalGraph, EngineGraph.quotient, EngineGraph.quotient, stored, requested]
  rw [dedupedGraph, dedupedGraph, canonical]

/-- The first live node of a boundary token is the first live member of its
class. -/
theorem firstLive_of_first (topological : Topological nodes) (plain : LivePlain nodes outs)
    {t : NodeId} {source : NodeKey} (reached : Reaches nodes outs t)
    (lookup : nodes[t]? = some source) (boundary : source.isBoundary = true)
    (first : ∀ l other, Reaches nodes outs l → nodes[l]? = some other →
      other.token = source.token → t ≤ l) : firstLive nodes outs t = t := by
  obtain ⟨other, found, token⟩ := firstLive_boundary topological plain reached lookup boundary
  exact Nat.le_antisymm (firstLive_le reached (.refl t))
    (first _ other (firstLive_spec reached).1 found token)

/-- Matching arenas rebuild boundaries from equal templates. -/
theorem Matching.template_eq (matching : Matching nodes outs nodes' outs' C)
    (topological : Topological nodes) (topological' : Topological nodes')
    (inside : ∀ o ∈ outs, o < nodes.length) (inside' : ∀ o ∈ outs', o < nodes'.length)
    (plain : LivePlain nodes outs) (plain' : LivePlain nodes' outs')
    {token : String} {template template' : NodeKey}
    (stored : Table.get? (· == ·) (templates (live nodes outs)) token = some template)
    (stored' : Table.get? (· == ·) (templates (live nodes' outs')) token = some template')
    (boundary : boundaryFromToken token = true) (ids : List NodeId) :
    template.withInputs ids = template'.withInputs ids := by
  obtain ⟨t, source, reached, found, rfl, rfl, first⟩ := template_first stored
  obtain ⟨t', source', reached', found', tokens, rfl, first'⟩ := template_first stored'
  have flag : source.isBoundary = true := by rw [← NodeKey.boundaryFromToken_token, boundary]
  have flag' : source'.isBoundary = true := by
    rw [← NodeKey.boundaryFromToken_token, tokens, boundary]
  have own := firstLive_of_first topological plain reached found flag first
  have own' := firstLive_of_first topological' plain' reached' found' flag' (tokens ▸ first')
  obtain ⟨j, related⟩ := matching.total t reached
  obtain ⟨i, related'⟩ := matching.onto t' reached'
  obtain ⟨_, reachedJ⟩ := matching.reached t j related
  obtain ⟨reachedI, _⟩ := matching.reached i t' related'
  obtain ⟨other', lookup'⟩ := lookup_exists ((firstLive_spec reachedJ).1.bound topological' inside')
  obtain ⟨other, lookup⟩ := lookup_exists ((firstLive_spec reachedI).1.bound topological inside)
  obtain ⟨same, _, params⟩ := matching.shape t j source other' related (own.symm ▸ found) lookup'
  obtain ⟨same', _, _⟩ := matching.shape i t' other source' related' lookup (own'.symm ▸ found')
  -- each is the first of its token, so neither class comes before the other
  have le := first' _ other' (firstLive_spec reachedJ).1 lookup' same.symm
  have ge := first _ other (firstLive_spec reachedI).1 lookup (same'.trans tokens)
  have order := matching.order i t' t j related' related
  rw [own, own'] at order
  have here : firstLive nodes' outs' j = t' :=
    Nat.le_antisymm (Nat.le_of_not_lt (fun less => Nat.not_lt_of_ge ge (order.mpr less))) le
  rw [here, found'] at lookup'
  obtain rfl := Option.some.inj lookup'
  rw [NodeKey.wired_rewire, NodeKey.wired_rewire, NodeKey.withInputs_withInputs,
    NodeKey.withInputs_withInputs, ← NodeKey.withInputs_withInputs source [] ids,
    params flag (own.symm ▸ first),
    NodeKey.withInputs_withInputs]

/-- Matching arenas are reduced to one list with one list of outputs. The report
may count other inputs. -/
theorem Matching.reduceWithMode_eq (matching : Matching nodes outs nodes' outs' C)
    (saturates : EggSaturates find) (topological : Topological nodes)
    (topological' : Topological nodes') (inside : ∀ o ∈ outs, o < nodes.length)
    (inside' : ∀ o ∈ outs', o < nodes'.length) (plain : LivePlain nodes outs)
    (plain' : LivePlain nodes' outs') (mode : FusionMode) :
    ∃ red red', reduceWithMode nodes outs (EggEngine.canonicalize find) mode = some red ∧
      reduceWithMode nodes' outs' (EggEngine.canonicalize find) mode = some red' ∧
      red'.nodes = red.nodes ∧ red'.outputs = red.outputs := by
  have one := matching.dedupedGraph_eq saturates topological topological' inside inside' plain plain'
  have wellFormed := dedupedGraph_wellFormed find topological inside
  have tables : ∀ node ∈ (dedupedGraph find nodes outs).nodes, node.boundary = true → ∀ ids,
      (Table.get? (· == ·) (templates (live nodes outs)) node.token).map
          (fun template => template.withInputs ids) =
        (Table.get? (· == ·) (templates (live nodes' outs')) node.token).map
          (fun template => template.withInputs ids) := by
    intro node member boundary ids
    obtain ⟨key, present, token, _⟩ := dedupedGraph_mem member
    obtain ⟨key', present', token', _⟩ := dedupedGraph_mem (one ▸ member)
    obtain ⟨template, _, stored, _⟩ := template_exists present
    obtain ⟨template', _, stored', _⟩ := template_exists present'
    rw [← token] at stored
    rw [← token'] at stored'
    rw [stored, stored', Option.map_some, Option.map_some]
    rw [matching.template_eq topological topological' inside inside' plain plain' stored stored'
      ((wellFormed.kinds node member).symm.trans boundary) ids]
  have fused := stageFusion_congr tables mode
  obtain ⟨red, _, reduces, _⟩ := reduceWithMode_complete find topological inside mode
  obtain ⟨red', _, reduces', _⟩ := reduceWithMode_complete find topological' inside' mode
  refine ⟨red, red', reduces, reduces', ?_⟩
  rw [GraphedCore.reduceWithMode_eq find topological inside, Option.map_eq_some_iff] at reduces
  rw [GraphedCore.reduceWithMode_eq find topological' inside', ← one, ← fused,
    Option.map_eq_some_iff] at reduces'
  obtain ⟨out, did, rfl⟩ := reduces
  obtain ⟨out', did', rfl⟩ := reduces'
  obtain rfl := Option.some.inj (did.symm.trans did')
  exact ⟨rfl, rfl⟩

end Match

end GraphedCore
