import GraphedCore.Fusion
import GraphedCore.UnionFind
import GraphedCore.Canonicalize

/-!
# Fusion components have one exit

Both fusion modes assign a component to every node. A boundary is alone in its
component. A component of ops has one exit, its largest member: no other member
is an output or is read from outside the component. This is all that the rest of
stage fusion needs, and the two modes meet here.
-/

namespace GraphedCore

open Dag Wired

namespace StageFusion

variable {graph : EngineGraph}

/-- An op: a node that is no boundary. Only ops are fused. -/
def IsOp (graph : EngineGraph) (i : Nat) : Prop :=
  ∃ node, graph.nodes[i]? = some node ∧ node.boundary = false

/-- No output, and read only from nodes related to it. Such a node need not be
visible outside its stage. -/
def Inner (graph : EngineGraph) (r : Nat → Nat → Prop) (i : Nat) : Prop :=
  i ∉ graph.outputs ∧
    ∀ (k : Nat) (user : EngineNode), graph.nodes[k]? = some user → i ∈ user.inputs → r i k

/-- An assignment of components that each have one exit. A component is named by a
member, and all members but the last are inner. -/
structure Components (graph : EngineGraph) (comp : Nat → Nat) : Prop where
  inside : ∀ i < graph.nodes.length, comp i < graph.nodes.length
  head : ∀ i < graph.nodes.length, comp (comp i) = comp i
  kind : ∀ i < graph.nodes.length, comp i ≠ i → IsOp graph i ∧ IsOp graph (comp i)
  exit : ∀ i j, i < j → j < graph.nodes.length → comp i = comp j →
    Inner graph (fun i k => comp i = comp k) i

/-! ## Consumers and outputs -/

/-- The nodes that read `i`, whatever their order and however often they are
listed. -/
def Uses (graph : EngineGraph) (i : Nat) (users : List Nat) : Prop :=
  ∀ k, k ∈ users ↔ ∃ user, graph.nodes[k]? = some user ∧ i ∈ user.inputs

/-- One node is entered into the lists of its inputs, and the lists gain nothing
else. The induction is on the inputs. -/
theorem consumersStep_complete (index : Nat) (inputs : List Nat) (lists : List (List Nat))
    (inside : ∀ x ∈ inputs, x < lists.length) :
    ∃ lists', inputs.foldlM (fun lists inp => do
        let list ← lists[inp]?
        some (lists.set inp (list ++ [index]))) lists = some lists' ∧
      lists'.length = lists.length ∧
      ∀ (i : Nat) (users : List Nat), lists[i]? = some users →
        ∃ users', lists'[i]? = some users' ∧
          ∀ k, k ∈ users' ↔ k ∈ users ∨ (k = index ∧ i ∈ inputs) := by
  induction inputs generalizing lists with
  | nil => exact ⟨lists, rfl, rfl, fun i users found => ⟨users, found, by simp⟩⟩
  | cons x rest ih =>
    obtain ⟨list, found⟩ := lookup_exists (inside x List.mem_cons_self)
    obtain ⟨lists', folded, length, members⟩ := ih (lists.set x (list ++ [index])) (by
      intro y member
      rw [List.length_set]
      exact inside y (List.mem_cons_of_mem x member))
    refine ⟨lists', by rw [List.foldlM_cons, found]; exact folded,
      by rw [length, List.length_set], ?_⟩
    intro i users before
    by_cases here : x = i
    · subst here
      obtain rfl := Option.some.inj (found.symm.trans before)
      obtain ⟨users', after, same⟩ := members x (list ++ [index])
        (List.getElem?_set_self (inside x List.mem_cons_self))
      refine ⟨users', after, fun k => ?_⟩
      rw [same k]
      simp only [List.mem_append, List.mem_cons]
      tauto
    · obtain ⟨users', after, same⟩ := members i users (by rw [List.getElem?_set_ne here, before])
      refine ⟨users', after, fun k => ?_⟩
      rw [same k]
      simp [Ne.symm here]

/-- The table of users has an entry for every node, which lists the nodes that
read it. -/
theorem consumers_complete (earlier : Topological graph.nodes) :
    ∃ lists, consumers graph = some lists ∧ lists.length = graph.nodes.length ∧
      ∀ (i : Nat) (users : List Nat), lists[i]? = some users → Uses graph i users := by
  obtain ⟨lists, ran, length, members⟩ := Enumerate.scan_complete consumersStep
    (fun index lists => lists.length = graph.nodes.length ∧
      ∀ (i : Nat) (users : List Nat), lists[i]? = some users →
        ∀ k, k ∈ users ↔ k < index ∧ ∃ user, graph.nodes[k]? = some user ∧ i ∈ user.inputs)
    graph.nodes (List.replicate graph.nodes.length [])
    ⟨List.length_replicate, fun i users found => by
      obtain ⟨_, rfl⟩ : i < graph.nodes.length ∧ [] = users := by
        simpa [List.getElem?_replicate] using found
      simp⟩
    (fun index node lists lookup ⟨length, members⟩ => by
      have bound := lookup_bound lookup
      obtain ⟨lists', stepped, length', after⟩ := consumersStep_complete index node.inputs lists
        (fun x member => by
          rw [length]
          exact (earlier index node lookup x member).trans bound)
      refine ⟨lists', stepped, length'.trans length, ?_⟩
      intro i users found k
      obtain ⟨before, present⟩ := lookup_exists (length' ▸ lookup_bound found : i < lists.length)
      obtain ⟨users', found', same⟩ := after i before present
      obtain rfl := Option.some.inj (found.symm.trans found')
      rw [same k, members i before present k, Nat.lt_succ_iff_lt_or_eq, or_and_right]
      refine or_congr_right (and_congr_right ?_)
      rintro rfl
      constructor
      · exact fun reads => ⟨node, lookup, reads⟩
      · rintro ⟨user, found, reads⟩
        rwa [Option.some.inj (lookup.symm.trans found)])
  refine ⟨lists, ran, length, fun i users found k => ?_⟩
  rw [members i users found k, and_iff_right_iff_imp]
  rintro ⟨user, present, _⟩
  exact lookup_bound present

/-- The table of marks has an entry for every node, which says whether an output
asks for it. -/
theorem isOutput_complete (inside : ∀ o ∈ graph.outputs, o < graph.nodes.length) :
    ∃ marks, isOutput graph = some marks ∧ marks.length = graph.nodes.length ∧
      ∀ (i : Nat) (mark : Bool), marks[i]? = some mark → (mark = true ↔ i ∈ graph.outputs) := by
  have loop (outputs : List Nat) (marks : List Bool) (bound : ∀ o ∈ outputs, o < marks.length) :
      ∃ marks', outputs.foldlM (fun marks o =>
          if o < marks.length then some (marks.set o true) else none) marks = some marks' ∧
        marks'.length = marks.length ∧
        ∀ (i : Nat) (mark : Bool), marks'[i]? = some mark →
          (mark = true ↔ i ∈ outputs ∨ marks[i]? = some true) := by
    induction outputs generalizing marks with
    | nil =>
      refine ⟨marks, rfl, rfl, fun i mark found => ?_⟩
      simp [found]
    | cons o rest ih =>
      have here := bound o List.mem_cons_self
      obtain ⟨marks', folded, length, after⟩ := ih (marks.set o true) (by
        intro p member
        rw [List.length_set]
        exact bound p (List.mem_cons_of_mem o member))
      refine ⟨marks', by simp [here, folded], by rw [length, List.length_set], ?_⟩
      intro i mark found
      rw [after i mark found, List.mem_cons]
      by_cases same : o = i
      · subst same
        simp [List.getElem?_set_self here]
      · simp [List.getElem?_set_ne same, Ne.symm same]
  obtain ⟨marks, ran, length, after⟩ := loop graph.outputs
    (List.replicate graph.nodes.length false) (by simpa using inside)
  refine ⟨marks, ran, by simpa using length, fun i mark found => ?_⟩
  rw [after i mark found, or_iff_left_iff_imp]
  intro kept
  simp [List.getElem?_replicate] at kept

/-- Consumer lists and output marks that tell of every node what they should. Both
modes read these tables only. -/
structure Tables (graph : EngineGraph) (lists : List (List Nat)) (marks : List Bool) : Prop where
  entry : ∀ i < graph.nodes.length, ∃ users mark, lists[i]? = some users ∧ marks[i]? = some mark
  uses : ∀ (i : Nat) (users : List Nat), lists[i]? = some users → Uses graph i users
  outs : ∀ (i : Nat) (mark : Bool), marks[i]? = some mark → (mark = true ↔ i ∈ graph.outputs)

/-- Both tables of an ordered graph are built without a failed lookup, and tell
what they should. -/
theorem tables_complete (ordered : graph.Ordered) :
    ∃ lists marks, consumers graph = some lists ∧ isOutput graph = some marks ∧
      Tables graph lists marks := by
  obtain ⟨lists, consumed, listsLength, uses⟩ := consumers_complete ordered.earlier
  obtain ⟨marks, marked, marksLength, outs⟩ := isOutput_complete ordered.inside
  refine ⟨lists, marks, consumed, marked, fun i inside => ?_, uses, outs⟩
  obtain ⟨users, used⟩ := lookup_exists (listsLength.symm ▸ inside : i < lists.length)
  obtain ⟨mark, output⟩ := lookup_exists (marksLength.symm ▸ inside : i < marks.length)
  exact ⟨users, mark, used, output⟩

/-- A node without a mark is asked for by no output. -/
theorem Tables.hidden {lists : List (List Nat)} {marks : List Bool}
    (tables : Tables graph lists marks) {i : Nat} (marked : marks[i]? = some false) :
    i ∉ graph.outputs := by
  rw [← tables.outs i false marked]
  exact Bool.false_ne_true

/-! ## Single-use fusion -/

/-- The partition after the first `index` nodes: classes of more than one node
consist of ops, and all but the largest are inner and have been visited. -/
structure Fusing (graph : EngineGraph) (index : Nat) (r : Nat → Nat → Prop) : Prop where
  ops : ∀ i j, r i j → i ≠ j → IsOp graph i
  inner : ∀ i j, r i j → i < j → i < index ∧ Inner graph r i

/-- A node that is inner for a relation is inner for every larger one. Unions only
enlarge it. -/
theorem Inner.mono {r s : Nat → Nat → Prop} (weaker : ∀ i j, r i j → s i j) {i : Nat}
    (inner : Inner graph r i) : Inner graph s i :=
  ⟨inner.1, fun k user lookup reads => weaker i k (inner.2 k user lookup reads)⟩

/-- Passing a node by without joining it keeps what is known of the partition. -/
theorem Fusing.skip {r : Nat → Nat → Prop} {index : Nat} (fusing : Fusing graph index r) :
    Fusing graph (index + 1) r where
  ops := fusing.ops
  inner i j related less := by
    obtain ⟨before, inner⟩ := fusing.inner i j related less
    exact ⟨Nat.lt_succ_of_lt before, inner⟩

/-- A larger member would have made the node inner before its turn. -/
theorem Fusing.largest {r : Nat → Nat → Prop} {index j : Nat} (fusing : Fusing graph index r)
    (related : r index j) : j ≤ index := by
  by_contra beyond
  exact Nat.lt_irrefl _ (fusing.inner index j related (Nat.lt_of_not_le beyond)).1

/-- Joining an op to its only consumer. The op is the largest of its class so
far. -/
theorem Fusing.join {r : Nat → Nat → Prop} {index c : Nat} (equivalence : Equivalence r)
    (fusing : Fusing graph index r) (op : IsOp graph index) (consumer : IsOp graph c)
    (later : index < c) (uses : Uses graph index [c]) (hidden : index ∉ graph.outputs) :
    Fusing graph (index + 1) (Dsu.Joined r index c) := by
  have swap {x y : Nat} (related : r x y) : r y x := equivalence.symm related
  have here : Inner graph (Dsu.Joined r index c) index := by
    refine ⟨hidden, fun k user lookup reads => ?_⟩
    obtain rfl := List.mem_singleton.mp ((uses k).mpr ⟨user, lookup, reads⟩)
    exact Or.inr (Or.inl ⟨equivalence.refl index, equivalence.refl k⟩)
  have keep {i : Nat} (known : i < index ∧ Inner graph r i) :
      i < index + 1 ∧ Inner graph (Dsu.Joined r index c) i :=
    ⟨Nat.lt_succ_of_lt known.1, known.2.mono (fun _ _ => Or.inl)⟩
  refine ⟨?_, ?_⟩
  · rintro i j (same | ⟨left, _⟩ | ⟨left, _⟩) other
    · exact fusing.ops i j same other
    · by_cases at_index : i = index
      · exact at_index ▸ op
      · exact fusing.ops i index left at_index
    · by_cases at_c : i = c
      · exact at_c ▸ consumer
      · exact fusing.ops i c left at_c
  · rintro i j (same | ⟨left, _⟩ | ⟨left, right⟩) less
    · exact keep (fusing.inner i j same less)
    · rcases Nat.lt_trichotomy i index with before | rfl | beyond
      · exact keep (fusing.inner i index left before)
      · exact ⟨Nat.lt_succ_self i, here⟩
      · exact absurd (fusing.largest (swap left)) (Nat.not_le_of_gt beyond)
    · have bound := fusing.largest right
      exact keep (fusing.inner i c left (by omega))

/-- Node `k` reads node `i`, at some position of its inputs. -/
def Reads (graph : EngineGraph) (k i : Nat) : Prop :=
  ∃ user, graph.nodes[k]? = some user ∧ i ∈ user.inputs

/-- A node that some node reads. An op that nobody reads is in a component by
itself. -/
def Read (graph : EngineGraph) (i : Nat) : Prop := ∃ k, Reads graph k i

/-- All members of a class but the largest are read, so that there is no second
way out of the class. -/
def Feeding (graph : EngineGraph) (r : Nat → Nat → Prop) : Prop :=
  ∀ i j, r i j → i < j → Read graph i

/-- Joining a node that is read with a later one keeps that every member but the
last of its block is read. -/
theorem Feeding.join {r : Nat → Nat → Prop} {index c : Nat} (equivalence : Equivalence r)
    (fusing : Fusing graph index r) (feeding : Feeding graph r) (later : index < c)
    (read : Read graph index) : Feeding graph (Dsu.Joined r index c) := by
  rintro i j (same | ⟨left, _⟩ | ⟨left, right⟩) less
  · exact feeding i j same less
  · rcases Nat.eq_or_lt_of_le (fusing.largest (equivalence.symm left)) with rfl | before
    · exact read
    · exact feeding i index left before
  · have bound := fusing.largest right
    exact feeding i c left (by omega)

/-- One node of the single-use pass: it is joined with its only user when both are
ops and no output asks for it, and is left alone otherwise. -/
theorem unionStep_complete {r : Nat → Nat → Prop} {index : Nat} {node : EngineNode}
    {lists : List (List Nat)} {marks : List Bool} {dsu : Dsu} (ordered : graph.Ordered)
    (tables : Tables graph lists marks) (lookup : graph.nodes[index]? = some node)
    (represents : Dsu.Represents r graph.nodes.length dsu.parent)
    (fusing : Fusing graph index r) (feeding : Feeding graph r) :
    ∃ dsu' r', unionStep graph lists marks dsu index node = some dsu' ∧
      Dsu.Represents r' graph.nodes.length dsu'.parent ∧ Fusing graph (index + 1) r' ∧
        Feeding graph r' := by
  have bound := lookup_bound lookup
  obtain ⟨users, mark, used, marked⟩ := tables.entry index bound
  by_cases boundary : node.boundary = true
  · exact ⟨dsu, r, by simp [unionStep, boundary], represents, fusing.skip, feeding⟩
  by_cases single : ∃ c, users = [c] ∧ mark = false
  · obtain ⟨c, rfl, rfl⟩ := single
    have reader := tables.uses index [c] used
    obtain ⟨consumer, found, reads⟩ := (reader c).mp (List.mem_singleton_self c)
    have later := ordered.earlier c consumer found index reads
    by_cases stop : consumer.boundary = true
    · exact ⟨dsu, r, by simp [unionStep, boundary, used, marked, found, stop], represents,
        fusing.skip, feeding⟩
    · obtain ⟨dsu', joined, represents'⟩ := represents.union bound (lookup_bound found)
      refine ⟨dsu', _, by simp [unionStep, boundary, used, marked, found, stop, joined],
        represents', ?_, ?_⟩
      · exact fusing.join represents.equivalence ⟨node, lookup, by simpa using boundary⟩
          ⟨consumer, found, by simpa using stop⟩ later reader (tables.hidden marked)
      · exact feeding.join represents.equivalence fusing later ⟨c, consumer, found, reads⟩
  · refine ⟨dsu, r, ?_, represents, fusing.skip, feeding⟩
    simp only [unionStep, boundary, used, marked, Option.bind_eq_bind, Option.bind_some,
      Bool.false_eq_true, if_false]
    split
    · rename_i c
      exact absurd ⟨c, rfl, rfl⟩ single
    · rfl

/-- Reading the roots off: the first member of the class, for ops and
boundaries. -/
theorem rootStep_complete {r : Nat → Nat → Prop} {index : Nat} {node : EngineNode}
    {state : Dsu × List Nat} (lookup : graph.nodes[index]? = some node)
    (fusing : Fusing graph graph.nodes.length r)
    (represents : Dsu.Represents r graph.nodes.length state.1.parent)
    (ids : state.2 = (List.range index).map (leader r)) :
    ∃ next, rootStep state index node = some next ∧
      Dsu.Represents r graph.nodes.length next.1.parent ∧
      next.2 = (List.range (index + 1)).map (leader r) := by
  have bound := lookup_bound lookup
  by_cases boundary : node.boundary = true
  · have alone : leader r index = index := by
      by_contra other
      obtain ⟨found, present, op⟩ := fusing.ops index (leader r index)
        (represents.equivalence.symm (leader_related represents.equivalence index)) (Ne.symm other)
      obtain rfl := Option.some.inj (lookup.symm.trans present)
      rw [op] at boundary
      cases boundary
    refine ⟨(state.1, state.2 ++ [index]), by simp [rootStep, boundary], represents, ?_⟩
    rw [ids, List.range_succ, List.map_append, List.map_singleton, alone]
  · obtain ⟨dsu', found, represents'⟩ := represents.find bound
    refine ⟨(dsu', state.2 ++ [leader r index]), by simp [rootStep, boundary, found],
      represents', ?_⟩
    rw [ids, List.range_succ, List.map_append, List.map_singleton]

/-- The single-use pass finishes. Its components have one exit each, and every
member before the last one is read. -/
theorem singleUse_complete (ordered : graph.Ordered) {lists : List (List Nat)}
    {marks : List Bool} (tables : Tables graph lists marks) :
    ∃ comp, singleUse graph lists marks = some ((List.range graph.nodes.length).map comp) ∧
      Components graph comp ∧ Feeding graph (fun i j => comp i = comp j) := by
  obtain ⟨dsu, unioned, r, represents, fusing, feeding⟩ := Enumerate.scan_complete
    (unionStep graph lists marks)
    (fun index dsu => ∃ r, Dsu.Represents r graph.nodes.length dsu.parent ∧
      Fusing graph index r ∧ Feeding graph r)
    graph.nodes (Dsu.new graph.nodes.length)
    ⟨Eq, Dsu.represents_new _, ⟨fun i j same other => absurd same other,
      fun i j same less => absurd same (Nat.ne_of_lt less)⟩,
      fun i j same less => absurd same (Nat.ne_of_lt less)⟩
    (fun index node dsu lookup ⟨r, represents, fusing, feeding⟩ => by
      obtain ⟨dsu', r', stepped, all⟩ :=
        unionStep_complete ordered tables lookup represents fusing feeding
      exact ⟨dsu', stepped, r', all⟩)
  obtain ⟨final, rooted, _, ids⟩ := Enumerate.scan_complete rootStep
    (fun index state => Dsu.Represents r graph.nodes.length state.1.parent ∧
      state.2 = (List.range index).map (leader r))
    graph.nodes (dsu, []) ⟨represents, rfl⟩
    (fun index node state lookup ⟨represents, ids⟩ =>
      rootStep_complete lookup fusing represents ids)
  have equivalence := represents.equivalence
  refine ⟨leader r, by simp [singleUse, unioned, rooted, ids], ⟨?_, ?_, ?_, ?_⟩, ?_⟩
  · exact fun i inside => (leader_le equivalence i).trans_lt inside
  · exact fun i _ => leader_isLeader equivalence i
  · intro i _ other
    have related := leader_related equivalence i
    exact ⟨fusing.ops i _ (equivalence.symm related) (Ne.symm other), fusing.ops _ i related other⟩
  · intro i j less inside same
    have inner := (fusing.inner i j ((leader_eq_iff equivalence).mp same) less).2
    exact inner.mono (fun _ _ related => (leader_eq_iff equivalence).mpr related)
  · exact fun i j same less => feeding i j ((leader_eq_iff equivalence).mp same) less

/-! ## Maximal fusion -/

/-- The assignment after the descending pass has visited the nodes from `count`. A
node below is still by itself, and a visited one has joined the component of all
its users or none. -/
structure Descended (graph : EngineGraph) (count : Nat) (comp : List Nat) : Prop where
  length : comp.length = graph.nodes.length
  fresh : ∀ i < count, i < graph.nodes.length → comp[i]? = some i
  visited : ∀ i, count ≤ i → i < graph.nodes.length → ∃ t, comp[i]? = some t ∧ i ≤ t ∧
    comp[t]? = some t ∧ (t ≠ i → IsOp graph i ∧ IsOp graph t ∧ i ∉ graph.outputs ∧
      ∀ (k : Nat) (user : EngineNode), graph.nodes[k]? = some user → i ∈ user.inputs →
        comp[k]? = some t)

/-- A node that is visited and stays alone. -/
theorem Descended.alone {count : Nat} {comp : List Nat}
    (descended : Descended graph (count + 1) comp) : Descended graph count comp where
  length := descended.length
  fresh i before inside := descended.fresh i (Nat.lt_succ_of_lt before) inside
  visited i from_count inside := by
    rcases Nat.eq_or_lt_of_le from_count with rfl | beyond
    · have self := descended.fresh count (Nat.lt_succ_self count) inside
      exact ⟨count, self, le_rfl, self, fun other => absurd rfl other⟩
    · exact descended.visited i beyond inside

/-- The visited op joins the component that all its consumers are in. These come
after it and were visited. -/
theorem Descended.join {count c first : Nat} {comp : List Nat}
    (descended : Descended graph (count + 1) comp) (earlier : Topological graph.nodes)
    (op : IsOp graph count) (hidden : count ∉ graph.outputs) (consumer : IsOp graph c)
    (later : count < c) (joined : comp[c]? = some first)
    (together : ∀ (k : Nat) (user : EngineNode), graph.nodes[k]? = some user →
      count ∈ user.inputs → comp[k]? = some first) :
    Descended graph count (comp.set count first) := by
  have ⟨user, present⟩ : ∃ user, graph.nodes[c]? = some user := consumer.imp (fun _ both => both.1)
  have inside : count < graph.nodes.length := by
    obtain ⟨_, found, _⟩ := op
    exact lookup_bound found
  obtain ⟨t, found, le, head, joins⟩ := descended.visited c later (lookup_bound present)
  obtain rfl := Option.some.inj (joined.symm.trans found)
  have beyond {k : Nat} (above : count < k) : (comp.set count first)[k]? = comp[k]? :=
    List.getElem?_set_ne (Nat.ne_of_lt above)
  refine ⟨by rw [List.length_set, descended.length], ?_, ?_⟩
  · intro i before inside'
    rw [List.getElem?_set_ne (Nat.ne_of_gt before)]
    exact descended.fresh i (Nat.lt_succ_of_lt before) inside'
  · intro i from_count inside'
    rcases Nat.eq_or_lt_of_le from_count with rfl | above
    · refine ⟨first, List.getElem?_set_self (descended.length.symm ▸ inside), by omega, ?_, ?_⟩
      · rw [beyond (by omega), head]
      · intro _
        refine ⟨op, ?_, hidden, fun k user lookup reads => ?_⟩
        · by_cases same : first = c
          · exact same ▸ consumer
          · exact (joins same).2.1
        · rw [beyond (earlier k user lookup count reads)]
          exact together k user lookup reads
    · obtain ⟨t, found', le', head', joins'⟩ := descended.visited i above inside'
      refine ⟨t, by rw [beyond above, found'], le', by rw [beyond (by omega), head'], ?_⟩
      intro other
      obtain ⟨opI, opT, hiddenI, togetherI⟩ := joins' other
      refine ⟨opI, opT, hiddenI, fun k user lookup reads => ?_⟩
      rw [beyond (above.trans (earlier k user lookup i reads))]
      exact togetherI k user lookup reads

/-- A visit leaves the assignment alone, or lets an op that is no output join the
component that all its consumers, all of them ops, are in. -/
theorem maximalVisit_cases {count : Nat} {comp : List Nat} {lists : List (List Nat)}
    {marks : List Bool} {node : EngineNode} {users : List Nat} {mark : Bool}
    (lookup : graph.nodes[count]? = some node) (used : lists[count]? = some users)
    (marked : marks[count]? = some mark) (length : comp.length = graph.nodes.length)
    (present : ∀ k ∈ users, ∃ user, graph.nodes[k]? = some user) :
    maximalVisit graph lists marks comp count = some comp ∨
      ∃ c first, c ∈ users ∧ node.boundary = false ∧ mark = false ∧
        (∀ k ∈ users, IsOp graph k ∧ comp[k]? = some first) ∧
        maximalVisit graph lists marks comp count = some (comp.set count first) := by
  cases users with
  | nil => exact Or.inl (by simp [maximalVisit, lookup, marked, used])
  | cons c rest =>
    by_cases stays : (node.boundary || mark) = true
    · refine Or.inl ?_
      simp only [maximalVisit, lookup, marked, used, stays, Option.bind_eq_bind,
        Option.bind_some, if_true]
    -- every consumer is a node of the graph, so both reads below succeed
    have kinds : (c :: rest).mapM (fun k => (graph.nodes[k]?).map EngineNode.boundary) =
        some ((c :: rest).map (fun k => ((graph.nodes[k]?).map EngineNode.boundary).getD true)) :=
      Enumerate.mapM_complete _ _ _ (fun k member => by
        obtain ⟨user, found⟩ := present k member
        simp [found])
    have assigned : ∀ k ∈ c :: rest, ∃ t, comp[k]? = some t := by
      intro k member
      obtain ⟨user, found⟩ := present k member
      exact lookup_exists (length.symm ▸ lookup_bound found)
    have comps : (c :: rest).mapM (fun k => comp[k]?) =
        some ((c :: rest).map (fun k => (comp[k]?).getD k)) :=
      Enumerate.mapM_complete _ _ _ (fun k member => by
        obtain ⟨t, found⟩ := assigned k member
        simp [found])
    obtain ⟨first, joined⟩ := assigned c List.mem_cons_self
    by_cases boundary : ((c :: rest).map (fun k =>
        ((graph.nodes[k]?).map EngineNode.boundary).getD true)).any id = true
    · refine Or.inl ?_
      simp only [maximalVisit, lookup, marked, used, stays, kinds, boundary, Option.bind_eq_bind,
        Option.bind_some, if_true]
      rfl
    by_cases agree : ((c :: rest).map (fun k => (comp[k]?).getD k)).all (· == first) = true
    · refine Or.inr ⟨c, first, List.mem_cons_self, ?_, ?_, fun k member => ?_, ?_⟩
      · exact Bool.eq_false_iff.mpr (fun kind => stays (by rw [kind, Bool.true_or]))
      · exact Bool.eq_false_iff.mpr (fun output => stays (by rw [output, Bool.or_true]))
      · simp only [List.any_map, List.any_eq_true, Function.comp_apply, id, not_exists,
          not_and, Bool.not_eq_true] at boundary
        simp only [List.all_map, List.all_eq_true, Function.comp_apply, beq_iff_eq] at agree
        obtain ⟨user, found⟩ := present k member
        obtain ⟨t, there⟩ := assigned k member
        have kind := boundary k member
        have same := agree k member
        exact ⟨⟨user, found, by simpa [found] using kind⟩, by simpa [there] using same⟩
      · simp only [maximalVisit, lookup, marked, used, stays, kinds, boundary, joined, comps,
          agree, Option.bind_eq_bind, Option.bind_some, if_true]
        rfl
    · refine Or.inl ?_
      simp only [maximalVisit, lookup, marked, used, stays, kinds, boundary, joined, comps,
        agree, Option.bind_eq_bind, Option.bind_some]
      rfl

/-- One node of the maximal pass, from the last node backwards. Its users have
been visited, so their components are known. -/
theorem maximalVisit_complete {count : Nat} {comp : List Nat} {lists : List (List Nat)}
    {marks : List Bool} (ordered : graph.Ordered) (tables : Tables graph lists marks)
    (inside : count < graph.nodes.length) (descended : Descended graph (count + 1) comp) :
    ∃ comp', maximalVisit graph lists marks comp count = some comp' ∧
      Descended graph count comp' := by
  obtain ⟨node, lookup⟩ := lookup_exists inside
  obtain ⟨users, mark, used, marked⟩ := tables.entry count inside
  have reader := tables.uses count users used
  have present : ∀ k ∈ users, ∃ user, graph.nodes[k]? = some user :=
    fun k member => ((reader k).mp member).imp (fun _ both => both.1)
  rcases maximalVisit_cases lookup used marked descended.length present with
    did | ⟨c, first, member, kind, output, together, did⟩
  · exact ⟨comp, did, descended.alone⟩
  · obtain ⟨user, found, reads⟩ := (reader c).mp member
    obtain ⟨op, joined⟩ := together c member
    refine ⟨comp.set count first, did, descended.join ordered.earlier ⟨node, lookup, kind⟩
      (tables.hidden (output ▸ marked)) op (ordered.earlier c user found count reads) joined ?_⟩
    exact fun k other present' reads' =>
      (together k ((reader k).mpr ⟨other, present', reads'⟩)).2

/-- The maximal pass down to the first node, by induction on the nodes that are
left. -/
theorem maximalFrom_complete {lists : List (List Nat)} {marks : List Bool}
    (ordered : graph.Ordered) (tables : Tables graph lists marks) (count : Nat)
    (comp : List Nat) (inside : count ≤ graph.nodes.length) (descended : Descended graph count comp) :
    ∃ comp', maximalFrom graph lists marks count comp = some comp' ∧ Descended graph 0 comp' := by
  induction count generalizing comp with
  | zero => exact ⟨comp, rfl, descended⟩
  | succ count ih =>
    obtain ⟨next, visited, descended'⟩ :=
      maximalVisit_complete ordered tables (Nat.lt_of_succ_le inside) descended
    obtain ⟨final, ran, done⟩ := ih next (Nat.le_of_succ_le inside) descended'
    exact ⟨final, by simp [maximalFrom, visited, ran], done⟩

/-- The maximal pass finishes, and its components have one exit each. The descent
visits consumers first. -/
theorem maximal_complete (ordered : graph.Ordered) {lists : List (List Nat)}
    {marks : List Bool} (tables : Tables graph lists marks) :
    ∃ comp, maximal graph lists marks = some ((List.range graph.nodes.length).map comp) ∧
      Components graph comp := by
  obtain ⟨comp, ran, descended⟩ := maximalFrom_complete ordered tables graph.nodes.length
    (List.range graph.nodes.length) le_rfl
    ⟨List.length_range, fun i _ inside => by simp [inside],
      fun i beyond inside => absurd inside (Nat.not_lt_of_ge beyond)⟩
  have assigned (i : Nat) (inside : i < graph.nodes.length) :
      comp[i]? = some ((comp[i]?).getD i) := by
    obtain ⟨t, found⟩ := lookup_exists (descended.length.symm ▸ inside : i < comp.length)
    simp [found]
  have listed : comp = (List.range graph.nodes.length).map (fun i => (comp[i]?).getD i) := by
    apply List.ext_getElem (by simp [descended.length])
    intro i inside _
    simp [List.getElem?_eq_getElem inside]
  have visited (i : Nat) (inside : i < graph.nodes.length) :=
    descended.visited i (Nat.zero_le i) inside
  refine ⟨fun i => (comp[i]?).getD i, by rw [maximal, ran, ← listed], ?_, ?_, ?_, ?_⟩
  · intro i inside
    obtain ⟨t, found, _, head, _⟩ := visited i inside
    simpa [found, descended.length] using lookup_bound head
  · intro i inside
    obtain ⟨t, found, _, head, _⟩ := visited i inside
    simp [found, head]
  · intro i inside other
    obtain ⟨t, found, _, _, joins⟩ := visited i inside
    simp only [found, Option.getD_some] at other ⊢
    exact ⟨(joins other).1, (joins other).2.1⟩
  · intro i j less inside same
    have insideI := less.trans inside
    obtain ⟨t, found, _, _, joins⟩ := visited i insideI
    obtain ⟨t', found', le', _, _⟩ := visited j inside
    simp only [found, found', Option.getD_some] at same
    obtain ⟨_, _, hidden, together⟩ := joins (by omega)
    refine ⟨hidden, fun k user lookup reads => ?_⟩
    simp [found, together k user lookup reads]

/-! ## Both modes -/

/-- Both modes assign components, and every component has one exit. All that
follows about fusion holds for both. -/
theorem compId_complete (ordered : graph.Ordered) (mode : FusionMode) :
    ∃ comp, compId graph mode = some ((List.range graph.nodes.length).map comp) ∧
      Components graph comp := by
  obtain ⟨lists, marks, consumed, marked, tables⟩ := tables_complete ordered
  cases mode with
  | singleUse =>
    obtain ⟨comp, assigned, components, _⟩ := singleUse_complete ordered tables
    exact ⟨comp, by simp [compId, consumed, marked, assigned], components⟩
  | maximal =>
    obtain ⟨comp, assigned, components⟩ := maximal_complete ordered tables
    exact ⟨comp, by simp [compId, consumed, marked, assigned], components⟩

end StageFusion

end GraphedCore
