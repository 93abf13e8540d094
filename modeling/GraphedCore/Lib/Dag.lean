import GraphedCore.Lib.Enumerate
import Mathlib.Data.Nat.Count
import Mathlib.Data.List.Basic

/-!
# Graphs written as lists in topological order

A node names earlier nodes by their positions. Nodes are of any type whose
references can be listed and renamed; what else a node carries is invisible
here. A graph is evaluated by one pass over its list, each node applying its
own function to the values of the nodes it reads.
-/

namespace Dag

universe u v w

/-- Nodes whose references are listed and can be renamed. -/
class Wired (ν : Type u) where
  inputs : ν → List Nat
  rewire : (Nat → Nat) → ν → ν
  inputs_rewire : ∀ (f : Nat → Nat) (node : ν), inputs (rewire f node) = (inputs node).map f
  rewire_congr : ∀ (f g : Nat → Nat) (node : ν), (∀ x ∈ inputs node, f x = g x) →
    rewire f node = rewire g node
  rewire_rewire : ∀ (f g : Nat → Nat) (node : ν), rewire g (rewire f node) = rewire (g ∘ f) node
  rewire_id : ∀ node : ν, rewire id node = node

/-- What is found in a longer list is the new item or was found before. -/
theorem getElem?_snoc {α : Type u} (nodes : List α) (last node : α) (i : Nat) :
    (nodes ++ [last])[i]? = some node ↔
      nodes[i]? = some node ∨ (i = nodes.length ∧ node = last) := by
  rcases Nat.lt_trichotomy i nodes.length with old | rfl | beyond
  · rw [List.getElem?_append_left old]
    simp [Nat.ne_of_lt old]
  · simp [eq_comm]
  · simp only [List.getElem?_append_right (Nat.le_of_lt beyond),
      List.getElem?_eq_none (Nat.le_of_lt beyond)]
    have outside : ([last] : List α)[i - nodes.length]? = none :=
      List.getElem?_eq_none (by simp only [List.length_singleton]; omega)
    simp [outside, Nat.ne_of_gt beyond]

/-- What is found is inside. -/
theorem lookup_bound {α : Type u} {nodes : List α} {i : Nat} {node : α}
    (lookup : nodes[i]? = some node) : i < nodes.length := by
  obtain ⟨inside, _⟩ := List.getElem?_eq_some_iff.mp lookup
  exact inside

/-- Inside, something is found. -/
theorem lookup_exists {α : Type u} {nodes : List α} {i : Nat} (inside : i < nodes.length) :
    ∃ node, nodes[i]? = some node :=
  ⟨nodes[i], List.getElem?_eq_getElem inside⟩

/-- One more item is taken at a position that holds one. -/
theorem take_succ_snoc {α : Type u} {nodes : List α} {i : Nat} {node : α}
    (lookup : nodes[i]? = some node) :
    nodes.take (i + 1) = nodes.take i ++ [node] ∧ (nodes.take i).length = i := by
  have inside := lookup_bound lookup
  refine ⟨by rw [List.take_add_one, lookup]; rfl, ?_⟩
  rw [List.length_take, Nat.min_eq_left inside.le]

open Wired

variable {ν : Type u} [Wired ν] {β : Type v}

/-- Every reference names an earlier node. -/
def Topological (nodes : List ν) : Prop :=
  ∀ (i : Nat) (node : ν), nodes[i]? = some node → ∀ x ∈ inputs node, x < i

/-- The condition on a finite list is a finite check. -/
theorem topological_iff (nodes : List ν) :
    Topological nodes ↔ ∀ k : Fin nodes.length, ∀ x ∈ inputs nodes[k], x < k := by
  constructor
  · intro topological k
    exact topological k nodes[k] (List.getElem?_eq_getElem k.2)
  · intro checks i node lookup
    obtain ⟨inside, rfl⟩ := List.getElem?_eq_some_iff.mp lookup
    exact checks ⟨i, inside⟩

instance (nodes : List ν) : Decidable (Topological nodes) :=
  decidable_of_iff _ (topological_iff nodes).symm

/-- A graph without nodes is topological. -/
theorem topological_nil : Topological ([] : List ν) := by
  intro i node lookup
  simp at lookup

/-- A node may be added when it reads nodes that are there. -/
theorem topological_snoc (nodes : List ν) (last : ν) :
    Topological (nodes ++ [last]) ↔
      Topological nodes ∧ ∀ x ∈ inputs last, x < nodes.length := by
  constructor
  · intro topological
    refine ⟨fun i node lookup => ?_, ?_⟩
    · exact topological i node ((getElem?_snoc nodes last node i).mpr (Or.inl lookup))
    · exact topological nodes.length last
        ((getElem?_snoc nodes last last nodes.length).mpr (Or.inr ⟨rfl, rfl⟩))
  · rintro ⟨earlier, fresh⟩ i node lookup
    rcases (getElem?_snoc nodes last node i).mp lookup with old | ⟨rfl, rfl⟩
    · exact earlier i node old
    · exact fresh

/-- The first nodes of a graph are a graph. -/
theorem topological_initial {nodes more : List ν} (topological : Topological more)
    (grows : nodes <+: more) : Topological nodes := by
  obtain ⟨added, rfl⟩ := grows
  intro i node lookup
  exact topological i node ((List.getElem?_append_left (lookup_bound lookup)).trans lookup)

/-! ## Evaluation -/

/-- The values at the given positions. -/
def gather (vals : List β) (ids : List Nat) : Option (List β) :=
  ids.mapM (fun i => vals[i]?)

/-- Apply a node's function to the values it reads. -/
def evalNode (f : ν → List β → Option β) (vals : List β) (node : ν) : Option β :=
  (gather vals (inputs node)).bind (f node)

/-- The value of one more node, after those before it. -/
def evalStep (f : ν → List β → Option β) (vals : List β) (node : ν) : Option (List β) :=
  (evalNode f vals node).map (fun value => vals ++ [value])

/-- One pass over the nodes; the values come out in node order. -/
def eval (f : ν → List β → Option β) (nodes : List ν) : Option (List β) :=
  nodes.foldlM (evalStep f) []

/-- The values at the requested outputs, position by position. -/
def evalAt (f : ν → List β → Option β) (nodes : List ν) (outputs : List Nat) :
    Option (List β) :=
  (eval f nodes).bind (fun vals => gather vals outputs)

/-- The last node is evaluated last. -/
theorem eval_snoc (f : ν → List β → Option β) (nodes : List ν) (last : ν) :
    eval f (nodes ++ [last]) = (eval f nodes).bind (fun vals => evalStep f vals last) := by
  simp [eval, List.foldlM_append]

/-- Values that are there can be gathered. -/
theorem gather_exists {vals : List β} {ids : List Nat} (inside : ∀ i ∈ ids, i < vals.length) :
    ∃ found, gather vals ids = some found := by
  induction ids with
  | nil => exact ⟨[], rfl⟩
  | cons i rest ih =>
    obtain ⟨found, read⟩ := ih (fun j member => inside j (List.mem_cons_of_mem i member))
    rw [gather] at read
    obtain ⟨value, present⟩ := lookup_exists (inside i List.mem_cons_self)
    exact ⟨value :: found, by simp [gather, present, read]⟩

/-- One value is gathered for each input. -/
theorem gather_length {vals found : List β} {ids : List Nat} (read : gather vals ids = some found) :
    found.length = ids.length := by
  rw [gather, Enumerate.mapM_eq_some_iff] at read
  simpa using (congrArg List.length read).symm

/-- Later values do not change what is gathered. -/
theorem gather_append (vals more : List β) (ids : List Nat)
    (inside : ∀ i ∈ ids, i < vals.length) : gather (vals ++ more) ids = gather vals ids :=
  Enumerate.mapM_congr _ _ ids (fun i member => List.getElem?_append_left (inside i member))

/-- Nor do they change the value of a node. -/
theorem evalNode_append (f : ν → List β → Option β) (vals more : List β) (node : ν)
    (inside : ∀ x ∈ inputs node, x < vals.length) :
    evalNode f (vals ++ more) node = evalNode f vals node := by
  rw [evalNode, gather_append vals more _ inside, evalNode]

/-- One value for each node, each the node's function of the values it reads. -/
structure Valuation (f : ν → List β → Option β) (nodes : List ν) (vals : List β) : Prop where
  length : vals.length = nodes.length
  value : ∀ (i : Nat) (node : ν), nodes[i]? = some node → vals[i]? = evalNode f vals node

/-- On a topological list the pass computes the valuation, if there is one, and
whatever it computes is one. Induct from the last node, whose references all lie
in the part already evaluated. -/
theorem eval_eq_some_iff (f : ν → List β → Option β) (nodes : List ν)
    (topological : Topological nodes) (vals : List β) :
    eval f nodes = some vals ↔ Valuation f nodes vals := by
  induction nodes using List.reverseRecOn generalizing vals with
  | nil =>
    constructor
    · intro done
      obtain rfl : [] = vals := by simpa [eval] using done
      exact ⟨rfl, fun i node lookup => by simp at lookup⟩
    · intro valuation
      have empty : vals = [] := List.length_eq_zero_iff.mp valuation.length
      simp [eval, empty]
  | append_singleton nodes last ih =>
    obtain ⟨earlier, fresh⟩ := (topological_snoc nodes last).mp topological
    rw [eval_snoc, Option.bind_eq_some_iff]
    constructor
    · rintro ⟨before, done, stepped⟩
      obtain ⟨value, computed, rfl⟩ := Option.map_eq_some_iff.mp stepped
      have old := (ih earlier before).mp done
      have reads : ∀ x ∈ inputs last, x < before.length := by rw [old.length]; exact fresh
      refine ⟨by simp [old.length], fun i node lookup => ?_⟩
      rcases (getElem?_snoc nodes last node i).mp lookup with present | ⟨rfl, rfl⟩
      · have inside : i < before.length := old.length ▸ lookup_bound present
        rw [List.getElem?_append_left inside, evalNode_append, old.value i node present]
        intro x member
        exact (earlier i node present x member).trans inside
      · rw [evalNode_append f before _ node reads, computed, ← old.length]
        simp
    · intro valuation
      have size : vals.length = nodes.length + 1 := by simpa using valuation.length
      obtain ⟨before, value, rfl⟩ : ∃ before value, vals = before ++ [value] := by
        rcases List.eq_nil_or_concat vals with rfl | ⟨before, value, rfl⟩
        · simp at size
        · exact ⟨before, value, by simp⟩
      have length : before.length = nodes.length := by simpa using size
      have reads : ∀ x ∈ inputs last, x < before.length := by rw [length]; exact fresh
      have old : Valuation f nodes before := by
        refine ⟨length, fun i node lookup => ?_⟩
        have inside : i < before.length := length ▸ lookup_bound lookup
        have whole := valuation.value i node ((getElem?_snoc nodes last node i).mpr (Or.inl lookup))
        rwa [List.getElem?_append_left inside, evalNode_append] at whole
        intro x member
        exact (earlier i node lookup x member).trans inside
      have whole := valuation.value nodes.length last
        ((getElem?_snoc nodes last last nodes.length).mpr (Or.inr ⟨rfl, rfl⟩))
      rw [evalNode_append f before _ last reads, ← length] at whole
      refine ⟨before, (ih earlier before).mpr old, ?_⟩
      simp [evalStep, ← whole]

/-- The first values of a graph are the values of its first nodes. -/
theorem valuation_initial {f : ν → List β → Option β} {nodes more : List ν} {vals : List β}
    (topological : Topological more) (grows : nodes <+: more) (valuation : Valuation f more vals) :
    Valuation f nodes (vals.take nodes.length) := by
  have earlier := topological_initial topological grows
  have size : nodes.length ≤ vals.length := valuation.length ▸ grows.length_le
  have length : (vals.take nodes.length).length = nodes.length := List.length_take_of_le size
  refine ⟨length, fun i node lookup => ?_⟩
  have inside := lookup_bound lookup
  have reads : ∀ x ∈ inputs node, x < (vals.take nodes.length).length := by
    intro x member
    rw [length]
    exact (earlier i node lookup x member).trans inside
  have present : more[i]? = some node := by
    obtain ⟨added, rfl⟩ := grows
    exact (List.getElem?_append_left inside).trans lookup
  rw [List.getElem?_take_of_lt inside, valuation.value i node present,
    ← evalNode_append f _ (vals.drop nodes.length) node reads, List.take_append_drop]

/-- A graph of total functions has a valuation. -/
theorem valuation_exists (f : ν → List β → Option β) (nodes : List ν)
    (topological : Topological nodes)
    (total : ∀ (node : ν) (args : List β), node ∈ nodes → args.length = (inputs node).length →
      ∃ value, f node args = some value) :
    ∃ vals, Valuation f nodes vals := by
  induction nodes using List.reverseRecOn with
  | nil => exact ⟨[], rfl, fun i node lookup => by simp at lookup⟩
  | append_singleton nodes last ih =>
    obtain ⟨earlier, fresh⟩ := (topological_snoc nodes last).mp topological
    obtain ⟨vals, valuation⟩ := ih earlier
      (fun node args member => total node args (List.mem_append_left _ member))
    have reads : ∀ x ∈ inputs last, x < vals.length := by rw [valuation.length]; exact fresh
    obtain ⟨args, read⟩ := gather_exists reads
    obtain ⟨value, computed⟩ := total last args (by simp) (gather_length read)
    refine ⟨vals ++ [value], (eval_eq_some_iff f _ topological _).mp ?_⟩
    rw [eval_snoc, (eval_eq_some_iff f nodes earlier vals).mpr valuation]
    simp [evalStep, evalNode, read, computed]

end Dag
