import GraphedCore.Lib.Dag

/-!
# What a node unfolds to

Unfolding a graph replaces every reference by the tree it stands for. It is
evaluation with the free interpretation, so every other interpretation factors
through it. When no two nodes agree in label and inputs, no two nodes unfold to
one tree.
-/

namespace Dag

universe u v w

open Wired

/-- A finite tree of labels. -/
inductive Term (α : Type v) where
  | apply (label : α) (args : List (Term α))

variable {ν : Type u} [Wired ν] {α : Type v}

/-- The free interpretation of a node. -/
def termNode (label : ν → α) (node : ν) (args : List (Term α)) : Option (Term α) :=
  some (.apply (label node) args)

/-- The trees of all nodes, in node order. -/
def unfold (label : ν → α) (nodes : List ν) : Option (List (Term α)) :=
  eval (termNode label) nodes

/-- The tree of one node. -/
def termAt (label : ν → α) (nodes : List ν) (i : Nat) : Option (Term α) :=
  (unfold label nodes).bind (fun terms => terms[i]?)

/-- Every node of a topological graph denotes a term. -/
theorem terms_exist (label : ν → α) {nodes : List ν} (topological : Topological nodes) :
    ∃ terms, Valuation (termNode label) nodes terms :=
  valuation_exists (termNode label) nodes topological (fun _ _ _ _ => ⟨_, rfl⟩)

/-- The term at a position is its value in any valuation by terms. -/
theorem termAt_eq {label : ν → α} {nodes : List ν} (topological : Topological nodes)
    {terms : List (Term α)} (valuation : Valuation (termNode label) nodes terms) (i : Nat) :
    termAt label nodes i = terms[i]? := by
  rw [termAt, unfold, (eval_eq_some_iff _ nodes topological terms).mpr valuation,
    Option.bind_some]

/-- A valued node has values at everything it reads. -/
theorem Valuation.reads {β : Type w} {f : ν → List β → Option β} {nodes : List ν}
    {vals : List β} (valuation : Valuation f nodes vals) {i : Nat} {node : ν}
    (lookup : nodes[i]? = some node) :
    ∃ args, gather vals (inputs node) = some args ∧ vals[i]? = f node args := by
  have inside : i < vals.length := valuation.length ▸ lookup_bound lookup
  have computed := valuation.value i node lookup
  rw [List.getElem?_eq_getElem inside, evalNode, eq_comm, Option.bind_eq_some_iff] at computed
  obtain ⟨args, read, applied⟩ := computed
  exact ⟨args, read, by rw [List.getElem?_eq_getElem inside, applied]⟩

/-- The tree of a node is its label over the trees of its inputs. -/
theorem termAt_node {label : ν → α} {nodes : List ν} (topological : Topological nodes) {i : Nat}
    {node : ν} (lookup : nodes[i]? = some node) :
    termAt label nodes i =
      ((inputs node).mapM (termAt label nodes)).map (Term.apply (label node)) := by
  obtain ⟨terms, valuation⟩ := terms_exist label topological
  obtain ⟨args, read, value⟩ := valuation.reads lookup
  have pointwise : termAt label nodes = fun x => terms[x]? :=
    funext (termAt_eq topological valuation)
  rw [gather] at read
  simp only [pointwise, value, read]
  rfl

/-- Exactly the positions of a graph have trees. -/
theorem termAt_exists_iff (label : ν → α) {nodes : List ν} (topological : Topological nodes)
    {i : Nat} : (∃ term, termAt label nodes i = some term) ↔ i < nodes.length := by
  obtain ⟨terms, valuation⟩ := terms_exist label topological
  rw [termAt_eq topological valuation, ← valuation.length]
  exact ⟨fun ⟨_, known⟩ => lookup_bound known, lookup_exists⟩

/-- No two nodes agree in label and inputs. -/
def Distinct (label : ν → α) (nodes : List ν) : Prop :=
  ∀ (i j : Nat) (node other : ν), nodes[i]? = some node → nodes[j]? = some other →
    label node = label other → inputs node = inputs other → i = j

/-- Nodes of different labels are distinct. -/
theorem label_injective {ν : Type u} {label : ν → α} {nodes : List ν}
    (different : (nodes.map label).Nodup) {i j : Nat} {node other : ν}
    (first : nodes[i]? = some node) (second : nodes[j]? = some other)
    (labels : label node = label other) : i = j := by
  have inside : i < (nodes.map label).length := by simpa using lookup_bound first
  refine (List.getElem?_inj inside different).mp ?_
  rw [List.getElem?_map, List.getElem?_map, first, second, Option.map_some, Option.map_some, labels]

/-- Equal trees have equal labels, and their inputs have pairwise equal trees. -/
theorem Valuation.same_term {label : ν → α} {nodes : List ν} {terms : List (Term α)}
    (valuation : Valuation (termNode label) nodes terms) {i j : Nat} {node other : ν}
    (first : nodes[i]? = some node) (second : nodes[j]? = some other)
    (same : terms[i]? = terms[j]?) :
    label node = label other ∧
      List.Forall₂ (fun x y => terms[x]? = terms[y]?) (inputs node) (inputs other) := by
  obtain ⟨args, read, value⟩ := valuation.reads first
  obtain ⟨args', read', value'⟩ := valuation.reads second
  rw [value, value', termNode, termNode, Option.some.injEq] at same
  obtain ⟨labels, rfl⟩ := Term.apply.inj same
  have reads := ((Enumerate.mapM_eq_some_iff _ _ _).mp read).trans
    ((Enumerate.mapM_eq_some_iff _ _ _).mp read').symm
  rw [← List.forall₂_eq_eq_eq, List.forall₂_map_left_iff, List.forall₂_map_right_iff] at reads
  exact ⟨labels, reads⟩

/-- Distinct nodes have distinct trees. The inputs of two nodes with one tree have
pairwise one tree, so they are the same inputs, by induction on the node. -/
theorem Valuation.term_injective {label : ν → α} {nodes : List ν} {terms : List (Term α)}
    (valuation : Valuation (termNode label) nodes terms) (topological : Topological nodes)
    (distinct : Distinct label nodes) (i : Nat) :
    ∀ j, i < nodes.length → j < nodes.length → terms[i]? = terms[j]? → i = j := by
  induction i using Nat.strong_induction_on with
  | _ i ih =>
    intro j inside inside' same
    obtain ⟨node, first⟩ := lookup_exists inside
    obtain ⟨other, second⟩ := lookup_exists inside'
    obtain ⟨labels, reads⟩ := valuation.same_term first second same
    refine distinct i j node other first second labels ?_
    obtain ⟨lengths, agree⟩ := List.forall₂_iff_get.mp reads
    refine List.ext_getElem lengths (fun k left right => ?_)
    have before := topological i node first _ (List.getElem_mem left)
    have before' := topological j other second _ (List.getElem_mem right)
    exact ih _ before _ (before.trans inside) (before'.trans inside') (agree k left right)

/-- Where no label stands twice over the same inputs, each term is denoted by one
node. -/
theorem termAt_injective {label : ν → α} {nodes : List ν} (topological : Topological nodes)
    (distinct : Distinct label nodes) {i j : Nat} (inside : i < nodes.length)
    (inside' : j < nodes.length) : termAt label nodes i = termAt label nodes j ↔ i = j := by
  obtain ⟨terms, valuation⟩ := terms_exist label topological
  rw [termAt_eq topological valuation, termAt_eq topological valuation]
  constructor
  · exact valuation.term_injective topological distinct i j inside inside'
  · rintro rfl
    rfl

/-- Nodes that correspond in label and inputs, all the way down, unfold to one
tree. -/
theorem termAt_agree {ν' : Type w} [Wired ν'] {label : ν → α} {label' : ν' → α} {nodes : List ν}
    {nodes' : List ν'} (topological : Topological nodes) (topological' : Topological nodes')
    {R : Nat → Nat → Prop} (step : ∀ i i', R i i' → ∃ node node', nodes[i]? = some node ∧
      nodes'[i']? = some node' ∧ label node = label' node' ∧
        List.Forall₂ R (inputs node) (inputs node')) {i : Nat} :
    ∀ i', R i i' → termAt label nodes i = termAt label' nodes' i' := by
  obtain ⟨terms, valuation⟩ := terms_exist label topological
  obtain ⟨terms', valuation'⟩ := terms_exist label' topological'
  induction i using Nat.strong_induction_on with
  | _ i ih =>
    intro i' related
    obtain ⟨node, node', lookup, lookup', labels, pairs⟩ := step i i' related
    have reads : gather terms (inputs node) = gather terms' (inputs node') := by
      refine Enumerate.mapM_forall₂ (List.forall₂_iff_get.mpr ⟨pairs.length_eq, ?_⟩)
      intro k left right
      obtain ⟨_, corresponds⟩ := List.forall₂_iff_get.mp pairs
      have agree := ih _ (topological i node lookup _ (List.get_mem _ ⟨k, left⟩)) _
        (corresponds k left right)
      rwa [termAt_eq topological valuation, termAt_eq topological' valuation'] at agree
    have same : termNode label node = termNode label' node' := by
      funext args
      rw [termNode, termNode, labels]
    rw [termAt_eq topological valuation, termAt_eq topological' valuation',
      valuation.value i node lookup, valuation'.value i' node' lookup', evalNode, evalNode,
      reads, same]

/-- A longer list unfolds its first nodes to the same trees. -/
theorem termAt_append {label : ν → α} {nodes more : List ν}
    (topological : Topological (nodes ++ more)) {i : Nat} (inside : i < nodes.length) :
    termAt label (nodes ++ more) i = termAt label nodes i := by
  have kept {j : Nat} (before : j < nodes.length) : (nodes ++ more)[j]? = nodes[j]? :=
    List.getElem?_append_left before
  have earlier : Topological nodes := topological_initial topological (List.prefix_append _ _)
  refine termAt_agree (R := fun j k => j = k ∧ j < nodes.length) topological earlier ?_ i
    ⟨rfl, inside⟩
  rintro j _ ⟨rfl, before⟩
  obtain ⟨node, lookup⟩ := lookup_exists before
  refine ⟨node, node, (kept before).trans lookup, lookup, rfl, List.forall₂_same.mpr ?_⟩
  intro x member
  exact ⟨rfl, (earlier j node lookup x member).trans before⟩

end Dag
