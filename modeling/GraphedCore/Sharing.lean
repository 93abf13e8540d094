import GraphedCore.Cse

/-!
# Hash-consing shares equal terms

A node unfolds to a tree of tokens, which does not mention the boundary flags. Nodes of one
tree become one node even when their inputs differ in the graph that is read, since their
inputs were merged before. The first node of every tree is the one that is kept.
-/

namespace GraphedCore

open Dag Wired

namespace Cse

variable {graph : EngineGraph} {state : State}

/-- Every kept node is the first one of its place over the places of its inputs,
and first nodes keep their order. -/
structure KeepsFirsts (graph : EngineGraph) (remap : List Nat) (nodes : List EngineNode) :
    Prop where
  kept : ∀ (k : Nat) (node : EngineNode), nodes[k]? = some node →
    ∃ (i : Nat) (source : EngineNode), graph.nodes[i]? = some source ∧ remap[i]? = some k ∧
      (∀ j < i, remap[j]? ≠ some k) ∧
      source.inputs.mapM (fun x => remap[x]?) = some node.inputs ∧
      node.token = source.token ∧ node.boundary = source.boundary
  ordered : ∀ (i j k l : Nat), i < j → remap[i]? = some k → remap[j]? = some l →
    (∀ before < j, remap[before]? ≠ some l) → k < l

/-- Two nodes are merged exactly when their trees of tokens are equal. -/
theorem token_iff (earlier : Topological graph.nodes) {i j : Nat}
    (inside : i < graph.nodes.length) (inside' : j < graph.nodes.length) :
    Least tokenRules graph.nodes i j ↔
      termAt EngineNode.token graph.nodes i = termAt EngineNode.token graph.nodes j :=
  least_iff_termAt earlier inside inside'

/-- The pass sends two nodes to one place when their trees are equal. -/
theorem Consed.remap_eq_iff (consed : Consed graph graph.nodes.length state)
    (earlier : Topological graph.nodes) {i j : Nat} (inside : i < graph.nodes.length)
    (inside' : j < graph.nodes.length) :
    state.remap[i]? = state.remap[j]? ↔
      termAt EngineNode.token graph.nodes i = termAt EngineNode.token graph.nodes j := by
  rw [consed.remap i inside, consed.remap j inside', Option.some.injEq,
    place_eq_iff least_equivalence]
  exact token_iff earlier inside inside'

/-- A node goes to one with its tree. -/
theorem Consed.termAt_remap (consed : Consed graph graph.nodes.length state)
    (earlier : Topological graph.nodes) {i k : Nat} (sent : state.remap[i]? = some k) :
    termAt EngineNode.token state.nodes k = termAt EngineNode.token graph.nodes i := by
  have inside : i < graph.nodes.length := consed.length ▸ lookup_bound sent
  rw [consed.remap i inside, Option.some.injEq] at sent
  rw [consed.quotient, ← sent]
  exact termAt_quotient least_equivalence EngineNode.token_rewire earlier
    (fun i j inside inside' => (token_iff earlier inside inside').mp) inside

/-- The pass keeps the first node of each tree, in order. -/
theorem Consed.keepsFirsts (consed : Consed graph graph.nodes.length state)
    (earlier : Topological graph.nodes) : KeepsFirsts graph state.remap state.nodes where
  kept k node lookup := by
    rw [consed.nodes] at lookup
    obtain ⟨i, source, inside, leads, found, rfl, rfl⟩ := quotient_take_lookup lookup
    refine ⟨i, source, found, consed.remap i inside, ?_, ?_, rfl, rfl⟩
    · intro j before same
      rw [consed.remap j (before.trans inside), Option.some.injEq] at same
      exact (follower_of_related least_equivalence before
        ((place_eq_iff least_equivalence).mp same)).1 leads
    · exact Enumerate.mapM_complete _ _ _
        (fun x member => consed.remap x ((earlier i source found x member).trans inside))
  ordered i j k l before first second fresh := by
    have inside : j < graph.nodes.length := consed.length ▸ lookup_bound second
    rw [consed.remap i (before.trans inside), Option.some.injEq] at first
    rw [consed.remap j inside, Option.some.injEq] at second
    subst first second
    have leads : IsLeader (Least tokenRules graph.nodes) j := by
      by_contra follows
      obtain ⟨less, _, related⟩ := leader_of_follower least_equivalence follows
      refine fresh _ less ?_
      rw [consed.remap _ (less.trans inside), (place_eq_iff least_equivalence).mpr related]
    rw [place_of_leader leads]
    exact number_lt (leader_isLeader least_equivalence i)
      ((leader_le least_equivalence i).trans_lt before)

end Cse

/-- No two keys are equal when no two nodes agree in token and inputs. -/
theorem keys_nodup {nodes : List EngineNode} (distinct : Distinct EngineNode.token nodes) :
    (nodes.map Cse.key).Nodup := by
  rw [List.nodup_iff_getElem?_ne_getElem?]
  intro i j less inside same
  rw [List.length_map] at inside
  obtain ⟨node, first⟩ := lookup_exists (less.trans inside)
  obtain ⟨other, second⟩ := lookup_exists inside
  rw [List.getElem?_map, List.getElem?_map, first, second] at same
  obtain ⟨tokens, inputs⟩ := Prod.mk.inj (Option.some.inj same)
  exact absurd (distinct i j node other first second tokens inputs) (Nat.ne_of_lt less)

/-- Hash-consing merges the nodes whose trees of tokens are equal, and no others.
What it returns has no two nodes of one token over the same inputs, keeps first
occurrences in their order and the trees of the outputs, and is left alone by a
second pass. -/
theorem cse_terms {graph : EngineGraph} (ordered : graph.Ordered) :
    ∃ state result, Cse.pass graph = some state ∧ cse graph = some result ∧
      result.nodes = state.nodes ∧
      graph.outputs.mapM (fun o => state.remap[o]?) = some result.outputs ∧
      state.remap.length = graph.nodes.length ∧
      (∀ i j, i < graph.nodes.length → j < graph.nodes.length →
        (state.remap[i]? = state.remap[j]? ↔
          termAt EngineNode.token graph.nodes i = termAt EngineNode.token graph.nodes j)) ∧
      (result.nodes.map Cse.key).Nodup ∧
      result.Ordered ∧
      Cse.KeepsFirsts graph state.remap result.nodes ∧
      (∀ (i k : Nat), state.remap[i]? = some k →
        termAt EngineNode.token result.nodes k = termAt EngineNode.token graph.nodes i) ∧
      result.outputs.map (termAt EngineNode.token result.nodes) =
        graph.outputs.map (termAt EngineNode.token graph.nodes) ∧
      cse result = some result := by
  have earlier := ordered.earlier
  obtain ⟨state, ran, consed⟩ := Cse.pass_consed earlier
  have distinct := quotient_tokens_distinct graph
  have again := ordered.quotient (@least_equivalence _ _ _ tokenRules graph.nodes)
  have nodes : (graph.quotient (Least tokenRules graph.nodes)).nodes = state.nodes :=
    consed.quotient.symm
  refine ⟨state, _, ran, cse_eq ordered, nodes, ?_, consed.length, ?_,
    keys_nodup distinct, again, ?_, ?_, ?_, ?_⟩
  · exact Enumerate.mapM_complete _ _ _ (fun o member => consed.remap o (ordered.inside o member))
  · exact fun i j inside inside' => consed.remap_eq_iff earlier inside inside'
  · rw [nodes]
    exact consed.keepsFirsts earlier
  · rw [nodes]
    exact fun i k sent => consed.termAt_remap earlier sent
  · rw [nodes, EngineGraph.quotient, List.map_map]
    refine List.map_congr_left (fun o member => ?_)
    exact consed.termAt_remap earlier (consed.remap o (ordered.inside o member))
  · rw [cse_eq again, again.quotient_discrete least_equivalence (tokens_discrete distinct)]

/-- The last two nodes agree only after the first two were merged. One walk in
order is enough for that. -/
def twinGraph : EngineGraph :=
  ⟨[⟨"src|x", true, []⟩, ⟨"src|x", true, []⟩, ⟨"op|neg", false, [0]⟩, ⟨"op|neg", false, [1]⟩],
    [3, 2]⟩

/-- Two negations of one source, recorded twice, are one in the end. -/
theorem cse_terms_of_twins :
    ∃ result, cse twinGraph = some result ∧
      result.nodes = [⟨"src|x", true, []⟩, ⟨"op|neg", false, [0]⟩] ∧
      (result.nodes.map Cse.key).Nodup ∧ cse result = some result := by
  obtain ⟨state, result, ran, consed, nodes, _, _, _, distinct, _, _, _, _, again⟩ :=
    @cse_terms twinGraph ⟨by decide, by decide⟩
  have same : state.nodes = [⟨"src|x", true, []⟩, ⟨"op|neg", false, [0]⟩] := by
    have known : (Cse.pass twinGraph).map Cse.State.nodes =
        some [⟨"src|x", true, []⟩, ⟨"op|neg", false, [0]⟩] := by decide +kernel
    rw [ran] at known
    exact Option.some.inj known
  exact ⟨result, consed, nodes.trans same, distinct, again⟩

end GraphedCore
