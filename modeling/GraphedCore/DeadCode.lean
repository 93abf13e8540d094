import GraphedCore.Optimizer
import GraphedCore.Keys

/-!
# Dead-code elimination keeps what the outputs reach

The marking loop pops a stack of nodes. Whatever it has marked or still holds on
the stack is reachable, the inputs of a marked node are marked or on the stack,
and every round costs one unit of a budget that the unmarked nodes pay for. When
the stack is empty the marks are therefore exactly the reachable nodes.

The pass is then a compaction: the reachable nodes in order, renumbered.
-/

namespace GraphedCore

namespace DeadCode

open Dag Wired

/-- The inputs of the nodes that are not marked yet. With the length of the stack
it bounds the pops that are left. -/
def pending : List NodeKey → List Bool → Nat
  | node :: nodes, kept :: keep => (if kept then 0 else node.inputs.length) + pending nodes keep
  | _, _ => 0

/-- Before anything is marked, every input of every node may still be pushed. -/
theorem pending_none (nodes : List NodeKey) :
    pending nodes (List.replicate nodes.length false) =
      nodes.foldr (fun node total => node.inputs.length + total) 0 := by
  induction nodes with
  | nil => rfl
  | cons node rest ih => simp [pending, List.replicate_succ, ih]

/-- Marking a node pays for its inputs, which go to the stack. So the fuel is
enough. -/
theorem pending_set {nodes : List NodeKey} {keep : List Bool} {i : Nat} {node : NodeKey}
    (lookup : nodes[i]? = some node) (unmarked : keep[i]? = some false) :
    pending nodes keep = node.inputs.length + pending nodes (keep.set i true) := by
  induction nodes generalizing keep i with
  | nil => simp at lookup
  | cons first rest ih =>
    cases keep with
    | nil => simp at unmarked
    | cons kept keep =>
      cases i with
      | zero =>
        obtain rfl : first = node := by simpa using lookup
        obtain rfl : kept = false := by simpa using unmarked
        simp [pending]
      | succ i =>
        have later := ih (by simpa using lookup) (by simpa using unmarked)
        simp only [pending, List.set_cons_succ, later]
        omega

/-- The state of the marking loop. What is marked or on the stack is reached, and
the inputs of a marked node are marked or on the stack. -/
structure Marking (nodes : List NodeKey) (outputs : List NodeId) (keep : List Bool)
    (stack : List Nat) : Prop where
  length : keep.length = nodes.length
  marked : ∀ i, keep[i]? = some true → Reaches nodes outputs i
  held : ∀ i ∈ stack, Reaches nodes outputs i
  roots : ∀ o ∈ outputs, keep[o]? = some true ∨ o ∈ stack
  inputs : ∀ (i : Nat) (node : NodeKey), keep[i]? = some true → nodes[i]? = some node →
    ∀ x ∈ node.inputs, keep[x]? = some true ∨ x ∈ stack

/-- Nothing is marked at the start, and the outputs are on the stack, the last one
on top. -/
theorem marking_start (nodes : List NodeKey) (outputs : List NodeId) :
    Marking nodes outputs (List.replicate nodes.length false) outputs.reverse where
  length := List.length_replicate
  marked i kept := by simp [List.getElem?_replicate] at kept
  held i member := .root (List.mem_reverse.mp member)
  roots o member := Or.inr (List.mem_reverse.mpr member)
  inputs i node kept := by simp [List.getElem?_replicate] at kept

variable {nodes : List NodeKey} {outputs : List NodeId} {keep : List Bool} {i : Nat}
  {stack : List Nat} {node : NodeKey}

/-- A popped node that is marked already changes nothing but the stack. -/
theorem Marking.skip (marking : Marking nodes outputs keep (i :: stack))
    (kept : keep[i]? = some true) : Marking nodes outputs keep stack where
  length := marking.length
  marked := marking.marked
  held j member := marking.held j (List.mem_cons_of_mem i member)
  roots o member := by
    rcases marking.roots o member with marked | held
    · exact Or.inl marked
    · rcases List.mem_cons.mp held with rfl | held
      · exact Or.inl kept
      · exact Or.inr held
  inputs j other marked lookup x member := by
    rcases marking.inputs j other marked lookup x member with marked | held
    · exact Or.inl marked
    · rcases List.mem_cons.mp held with rfl | held
      · exact Or.inl kept
      · exact Or.inr held

/-- What is marked after marking one more node. -/
theorem getElem?_set_true (keep : List Bool) (i j : Nat) (inside : i < keep.length) :
    (keep.set i true)[j]? = some true ↔ i = j ∨ keep[j]? = some true := by
  by_cases same : i = j
  · subst same
    simp [List.getElem?_set_self inside]
  · simp [List.getElem?_set_ne same, same]

/-- A popped node that is marked now and hands its inputs to the stack. -/
theorem Marking.visit (marking : Marking nodes outputs keep (i :: stack))
    (lookup : nodes[i]? = some node) :
    Marking nodes outputs (keep.set i true) (node.inputs.reverse ++ stack) := by
  have inside : i < keep.length := marking.length ▸ lookup_bound lookup
  have reached : Reaches nodes outputs i := marking.held i List.mem_cons_self
  refine ⟨by rw [List.length_set, marking.length], ?_, ?_, ?_, ?_⟩
  · intro j kept
    rcases (getElem?_set_true keep i j inside).mp kept with rfl | kept
    · exact reached
    · exact marking.marked j kept
  · intro j member
    rcases List.mem_append.mp member with pushed | held
    · exact reached.input lookup (List.mem_reverse.mp pushed)
    · exact marking.held j (List.mem_cons_of_mem i held)
  · intro o member
    rw [getElem?_set_true keep i o inside]
    rcases marking.roots o member with kept | held
    · exact Or.inl (Or.inr kept)
    · rcases List.mem_cons.mp held with rfl | held
      · exact Or.inl (Or.inl rfl)
      · exact Or.inr (List.mem_append_right _ held)
  · intro j other kept found x member
    rw [getElem?_set_true keep i x inside]
    rcases (getElem?_set_true keep i j inside).mp kept with rfl | kept
    · obtain rfl := Option.some.inj (lookup.symm.trans found)
      exact Or.inr (List.mem_append_left _ (List.mem_reverse.mpr member))
    · rcases marking.inputs j other kept found x member with kept | held
      · exact Or.inl (Or.inr kept)
      · rcases List.mem_cons.mp held with rfl | held
        · exact Or.inl (Or.inl rfl)
        · exact Or.inr (List.mem_append_right _ held)

/-- Marks that own their inputs and the outputs are the reachable nodes, once the
stack is empty. -/
theorem Marking.complete (marking : Marking nodes outputs keep []) :
    ∀ i, keep[i]? = some true ↔ Reaches nodes outputs i := by
  intro i
  refine ⟨marking.marked i, fun reached => ?_⟩
  induction reached with
  | root member => simpa using marking.roots _ member
  | input _ lookup member ih => simpa using marking.inputs _ _ ih lookup _ member

/-- With fuel for the stack and for the inputs of the unmarked nodes, the loop
ends with the reachable nodes marked. -/
theorem mark_complete (topological : Topological nodes)
    (inside : ∀ o ∈ outputs, o < nodes.length) (fuel : Nat)
    (marking : Marking nodes outputs keep stack)
    (budget : stack.length + pending nodes keep ≤ fuel) :
    ∃ kept, mark nodes fuel keep stack = some kept ∧ kept.length = nodes.length ∧
      ∀ i, kept[i]? = some true ↔ Reaches nodes outputs i := by
  induction fuel generalizing keep stack with
  | zero =>
    obtain rfl : stack = [] := List.length_eq_zero_iff.mp (by omega)
    exact ⟨keep, by simp [mark], marking.length, marking.complete⟩
  | succ fuel ih =>
    cases stack with
    | nil => exact ⟨keep, by simp [mark], marking.length, marking.complete⟩
    | cons i stack =>
      rw [List.length_cons] at budget
      have bound : i < nodes.length :=
        (marking.held i List.mem_cons_self).bound topological inside
      obtain ⟨node, lookup⟩ := lookup_exists bound
      obtain ⟨kept, state⟩ := lookup_exists (marking.length.symm ▸ bound : i < keep.length)
      cases kept with
      | true =>
        obtain ⟨final, done, result⟩ := ih (marking.skip state) (by omega)
        exact ⟨final, by simpa [mark, state] using done, result⟩
      | false =>
        have paid := pending_set lookup state
        obtain ⟨final, done, result⟩ := ih (marking.visit lookup) (by
          rw [List.length_append, List.length_reverse]
          omega)
        exact ⟨final, by simpa [mark, state, lookup] using done, result⟩

/-- The loop that numbers the kept nodes, after `i` of them: their numbers are
entered and they are stored over the numbers of their inputs. -/
structure Compacting (nodes : List NodeKey) (keep : Nat → Prop) (i : Nat)
    (state : List Nat × List NodeKey) : Prop where
  length : state.1.length = nodes.length
  remap : ∀ j < i, keep j → state.1[j]? = some (number keep j)
  kept : state.2 = Dag.compact keep id (nodes.take i)

/-- A kept node is appended, its inputs renumbered. -/
theorem compact_take_kept {keep : Nat → Prop} (lookup : nodes[i]? = some node) (kept : keep i) :
    Dag.compact keep id (nodes.take (i + 1)) =
      Dag.compact keep id (nodes.take i) ++ [rewire (number keep) node] := by
  obtain ⟨split, length⟩ := take_succ_snoc lookup
  rw [split, Dag.compact, pick_snoc_kept _ node (by rwa [length]), List.map_append]
  rfl

/-- A dropped node leaves no trace. -/
theorem compact_take_dropped {keep : Nat → Prop} (lookup : nodes[i]? = some node)
    (dropped : ¬ keep i) :
    Dag.compact keep id (nodes.take (i + 1)) = Dag.compact keep id (nodes.take i) := by
  obtain ⟨split, length⟩ := take_succ_snoc lookup
  rw [split, Dag.compact, pick_snoc_dropped _ node (by rwa [length])]
  rfl

/-- One node of the second loop. Its inputs are kept with it, so they have their
numbers already. -/
theorem Compacting.step {kept : Nat → Prop} {state : List Nat × List NodeKey}
    (topological : Topological nodes) (closed : Closed kept id nodes)
    (length : keep.length = nodes.length) (marks : ∀ i, keep[i]? = some true ↔ kept i)
    (compacting : Compacting nodes kept i state) (lookup : nodes[i]? = some node) :
    ∃ next, compactStep keep state i node = some next ∧ Compacting nodes kept (i + 1) next := by
  have bound := lookup_bound lookup
  obtain ⟨flag, mark⟩ := lookup_exists (length.symm ▸ bound : i < keep.length)
  cases flag with
  | false =>
    have dropped : ¬ kept i := by
      rw [← marks i, mark]
      simp
    refine ⟨state, by simp [compactStep, mark], compacting.length, ?_, ?_⟩
    · intro j before keeps
      rcases Nat.lt_succ_iff_lt_or_eq.mp before with before | rfl
      · exact compacting.remap j before keeps
      · exact absurd keeps dropped
    · rw [compacting.kept, compact_take_dropped lookup dropped]
  | true =>
    have keeps : kept i := (marks i).mp mark
    have position : state.2.length = number kept i := by
      rw [compacting.kept, compact_length, List.length_take, Nat.min_eq_left bound.le]
    have inside : i < state.1.length := compacting.length.symm ▸ bound
    have remap : ∀ j < i + 1, kept j →
        (state.1.set i state.2.length)[j]? = some (number kept j) := by
      intro j before keeps
      rcases Nat.lt_succ_iff_lt_or_eq.mp before with before | rfl
      · rw [List.getElem?_set_ne (by omega), compacting.remap j before keeps]
      · rw [List.getElem?_set_self inside, position]
    have reads : node.inputs.mapM (fun x => (state.1.set i state.2.length)[x]?) =
        some (node.inputs.map (number kept)) :=
      Enumerate.mapM_complete _ _ _ (fun x member =>
        remap x ((topological i node lookup x member).trans (Nat.lt_succ_self i))
          (closed i node lookup keeps x member).1)
    refine ⟨_, by simp [compactStep, mark, reads]; rfl, ?_, remap, ?_⟩
    · rw [List.length_set, compacting.length]
    · rw [compact_take_kept lookup keeps, compacting.kept]
      rfl

end DeadCode

open Dag

/-- The pass compacts the arena to the nodes the outputs reach. Neither loop fails
on a topological arena. -/
theorem deadCodeElimination_eq {nodes : List NodeKey} {outputs : List NodeId}
    (topological : Topological nodes) (inside : ∀ o ∈ outputs, o < nodes.length) :
    deadCodeElimination nodes outputs =
      some (compact (Reaches nodes outputs) id nodes,
        outputs.map (number (Reaches nodes outputs))) := by
  obtain ⟨keep, marked, length, marks⟩ := DeadCode.mark_complete topological inside
    (DeadCode.fuel nodes outputs) (DeadCode.marking_start nodes outputs) (by
      rw [DeadCode.pending_none, List.length_reverse, DeadCode.fuel])
  obtain ⟨state, compacted, compacting⟩ := Enumerate.scan_complete (DeadCode.compactStep keep)
    (DeadCode.Compacting nodes (Reaches nodes outputs)) nodes
    (List.replicate nodes.length usizeMax, [])
    ⟨List.length_replicate, by simp, by simp [compact, pick_nil]⟩
    (fun i node state lookup compacting =>
      compacting.step topological (reaches_closed topological outputs) length marks lookup)
  have outs : outputs.mapM (fun o => state.1[o]?) =
      some (outputs.map (number (Reaches nodes outputs))) :=
    Enumerate.mapM_complete _ _ _ (fun o member =>
      compacting.remap o (inside o member) (.root member))
  have kept : state.2 = compact (Reaches nodes outputs) id nodes := by
    rw [compacting.kept, List.take_length]
  simp [deadCodeElimination, marked, DeadCode.compact, compacted, outs, kept]

end GraphedCore
