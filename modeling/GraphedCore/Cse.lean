import GraphedCore.Optimizer
import GraphedCore.Canonicalize

/-!
# Hash-consing an engine graph

The pass merges nodes of one token over merged inputs, so it computes the quotient
by congruence alone. After an engine whose partition is closed under congruence
it has nothing left to merge.
-/

namespace GraphedCore

open Dag Wired

/-- Congruence of tokens, without rewriting: equal tokens over congruent
inputs. -/
def tokenRules : Rules EngineNode String := plainRules EngineNode.token EngineNode.token_rewire

namespace Cse

variable {graph : EngineGraph} {i : Nat} {node : EngineNode} {state : State}

/-- What is looked up in the table of the pass: the token and the inputs. -/
def key (node : EngineNode) : String × List Nat := (node.token, node.inputs)

/-- The pass after it has read `i` nodes: what it has stored is the quotient of
these, and the table indexes it. -/
structure Consed (graph : EngineGraph) (i : Nat) (state : State) : Prop where
  length : state.remap.length = graph.nodes.length
  remap : ∀ j < i, state.remap[j]? = some (place (Least tokenRules graph.nodes) j)
  nodes : state.nodes = Dag.quotient (Least tokenRules graph.nodes) (graph.nodes.take i)
  seen : Table.Indexes (· == ·) state.seen (state.nodes.map key)

/-- Writing the place of the next node keeps the table of places right, also where
a node is mapped anew. -/
theorem Consed.remap_set (consed : Consed graph i state) (bound : i < graph.nodes.length)
    {id : Nat} (place_eq : place (Least tokenRules graph.nodes) i = id) :
    ∀ j < i + 1, (state.remap.set i id)[j]? = some (place (Least tokenRules graph.nodes) j) := by
  intro j before
  rcases Nat.lt_succ_iff_lt_or_eq.mp before with before | rfl
  · rw [List.getElem?_set_ne (Nat.ne_of_gt before), consed.remap j before]
  · rw [List.getElem?_set_self (consed.length.symm ▸ bound), place_eq]

/-- One node of the pass. A stored twin gives its place, and a node without one is
appended, read through the places so far. -/
theorem Consed.step (consed : Consed graph i state) (earlier : Topological graph.nodes)
    (lookup : graph.nodes[i]? = some node) :
    ∃ next, Cse.step state i node = some next ∧ Consed graph (i + 1) next := by
  have bound := lookup_bound lookup
  have reads : node.inputs.mapM (fun x => state.remap[x]?) =
      some (node.inputs.map (place (Least tokenRules graph.nodes))) :=
    Enumerate.mapM_complete _ _ _ (fun x member => consed.remap x (earlier i node lookup x member))
  cases hit : Table.get? (· == ·) state.seen
      (node.token, node.inputs.map (place (Least tokenRules graph.nodes))) with
  | some idx =>
    obtain ⟨found, stored, same⟩ := (consed.seen _ idx).mp hit
    rw [List.getElem?_map, Option.map_eq_some_iff] at stored
    obtain ⟨item, stored, rfl⟩ := stored
    rw [consed.nodes] at stored
    obtain ⟨l, source, before, _, present, rfl, rfl⟩ := quotient_take_lookup stored
    obtain ⟨tokens, inputs⟩ : source.token = node.token ∧
        source.inputs.map (place (Least tokenRules graph.nodes)) =
          node.inputs.map (place (Least tokenRules graph.nodes)) := by
      exact Prod.mk.inj (eq_of_beq same)
    have related : Least tokenRules graph.nodes l i :=
      .of_inputs present lookup tokens ((map_place_eq_iff least_equivalence _ _).mp inputs)
    obtain ⟨follows, places⟩ := follower_of_related least_equivalence before related
    refine ⟨{ state with remap := state.remap.set i (place (Least tokenRules graph.nodes) l) },
      by simp [Cse.step, reads, hit], ?_, consed.remap_set bound places, ?_, consed.seen⟩
    · rw [List.length_set, consed.length]
    · rw [quotient_take_follower lookup follows, consed.nodes]
  | none =>
    have leads : IsLeader (Least tokenRules graph.nodes) i := by
      by_contra follows
      obtain ⟨before, leads, related⟩ := leader_of_follower least_equivalence follows
      obtain ⟨source, present, tokens, straight⟩ := plain_alike earlier lookup related.symm
      have stored := quotient_take_stored before leads present
      have absent := consed.seen.absent.mp hit (key (rewire (place (Least tokenRules graph.nodes))
        source)) (List.mem_map_of_mem (consed.nodes ▸ List.mem_of_getElem? stored))
      have same := (map_place_eq_iff least_equivalence _ _).mpr straight
      rw [beq_eq_false_iff_ne] at absent
      exact absent (Prod.ext tokens.symm same.symm)
    have position : place (Least tokenRules graph.nodes) i = state.nodes.length :=
      consed.nodes ▸ place_fresh bound leads
    refine ⟨_, by simp [Cse.step, reads, hit]; rfl, ?_, consed.remap_set bound position, ?_, ?_⟩
    · rw [List.length_set, consed.length]
    · rw [quotient_take_leader lookup leads, ← consed.nodes]
      rfl
    · have fresh := consed.seen.snoc Table.compares_beq hit
      rw [List.length_map] at fresh
      rw [List.map_append]
      exact fresh

/-- The pass over the nodes of a graph, without the outputs. -/
def pass (graph : EngineGraph) : Option State :=
  Enumerate.scan step graph.nodes ⟨List.replicate graph.nodes.length 0, [], []⟩

/-- The whole pass, by induction on the nodes that it has read. No lookup fails,
since inputs come earlier. -/
theorem pass_consed (earlier : Topological graph.nodes) :
    ∃ state, pass graph = some state ∧ Consed graph graph.nodes.length state :=
  Enumerate.scan_complete step (Consed graph) graph.nodes
    ⟨List.replicate graph.nodes.length 0, [], []⟩
    ⟨List.length_replicate, by simp, by simp [Dag.quotient, compact, pick_nil], Table.indexes_nil⟩
    (fun _ _ _ lookup consed => consed.step earlier lookup)

/-- What the pass returns is the quotient by the trees of tokens, first members
first. -/
theorem Consed.quotient (consed : Consed graph graph.nodes.length state) :
    state.nodes = Dag.quotient (Least tokenRules graph.nodes) graph.nodes := by
  rw [consed.nodes, List.take_length]

end Cse

/-- The pass computes the quotient by congruence of tokens. One walk is enough,
since inputs are merged before their readers. -/
theorem cse_eq {graph : EngineGraph} (ordered : graph.Ordered) :
    cse graph = some (graph.quotient (Least tokenRules graph.nodes)) := by
  obtain ⟨state, ran, consed⟩ := Cse.pass_consed ordered.earlier
  have outs : graph.outputs.mapM (fun o => state.remap[o]?) =
      some (graph.outputs.map (place (Least tokenRules graph.nodes))) :=
    Enumerate.mapM_complete _ _ _ (fun o member => consed.remap o (ordered.inside o member))
  rw [Cse.pass] at ran
  simp [cse, ran, outs, consed.quotient, EngineGraph.quotient]

/-- No two nodes of the quotient agree in token and inputs, or they would have
been congruent. -/
theorem quotient_tokens_distinct (graph : EngineGraph) :
    Distinct EngineNode.token (graph.quotient (Least tokenRules graph.nodes)).nodes :=
  quotient_distinct least_equivalence EngineNode.token_rewire
    (fun _ _ _ _ first second labels reads => .of_inputs first second labels reads)

/-- Nothing is left to merge when no two nodes agree in token and inputs. So a
second pass changes nothing. -/
theorem tokens_discrete {nodes : List EngineNode} (distinct : Distinct EngineNode.token nodes) :
    Discrete (Least tokenRules nodes) nodes.length :=
  fun _ _ _ _ related => plain_discrete distinct related

end GraphedCore
