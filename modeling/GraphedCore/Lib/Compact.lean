import GraphedCore.Lib.Dag
import Mathlib.Order.Nat
import Mathlib.Order.Lattice.Nat

/-!
# Compactions of a graph

A compaction keeps some nodes of a graph, in order, numbers them afresh and
rereads every reference through a representative. Dropping unreachable nodes,
merging equal ones and taking a quotient are all compactions, and one compaction
after another is again one.

The quotient by an equivalence keeps the first node of every class. It needs no
property of the equivalence to be well formed: the first member of a class reads
only nodes before it, and so only classes that began before it.
-/

namespace Dag

universe u v

open Wired

/-! ## Numbering the kept positions -/

open Classical in
/-- How many kept positions come before `i`. -/
noncomputable def number (keep : Nat → Prop) (i : Nat) : Nat := Nat.count keep i

/-- Nothing is kept before the first position. -/
theorem number_zero (keep : Nat → Prop) : number keep 0 = 0 := by
  classical exact Nat.count_zero keep

/-- A kept position counts for those after it. -/
theorem number_succ_kept {keep : Nat → Prop} {i : Nat} (kept : keep i) :
    number keep (i + 1) = number keep i + 1 := by
  classical
  simp [number, Nat.count_succ, kept]

/-- A dropped one does not. -/
theorem number_succ_dropped {keep : Nat → Prop} {i : Nat} (dropped : ¬ keep i) :
    number keep (i + 1) = number keep i := by
  classical
  simp [number, Nat.count_succ, dropped]

/-- Positions are numbered in their order. -/
theorem number_mono (keep : Nat → Prop) {i j : Nat} (le : i ≤ j) :
    number keep i ≤ number keep j := by
  classical exact Nat.count_monotone keep le

/-- A kept position has a smaller number than anything after it. -/
theorem number_lt {keep : Nat → Prop} {i j : Nat} (kept : keep i) (lt : i < j) :
    number keep i < number keep j := by
  classical exact Nat.count_strict_mono kept lt

/-- Kept positions have numbers of their own. -/
theorem number_injective {keep : Nat → Prop} {i j : Nat} (first : keep i) (second : keep j)
    (same : number keep i = number keep j) : i = j := by
  classical exact Nat.count_injective first second same

/-- The number of a kept position is below that of another one exactly when the
position is. -/
theorem number_lt_iff {keep : Nat → Prop} {i j : Nat} (first : keep i) :
    number keep i < number keep j ↔ i < j := by
  constructor
  · intro lt
    by_contra after
    exact Nat.not_lt_of_ge (number_mono keep (Nat.le_of_not_lt after)) lt
  · exact number_lt first

/-- Where everything before is kept the number is the position. -/
theorem number_all {keep : Nat → Prop} {i : Nat} (kept : ∀ j < i, keep j) :
    number keep i = i := by
  classical exact Nat.count_iff_forall.mpr kept

/-- Where everything is kept, ids keep their numbers. -/
theorem map_number_all {keep : Nat → Prop} {n : Nat} {outs : List Nat} (all : ∀ i < n, keep i)
    (inside : ∀ o ∈ outs, o < n) : outs.map (number keep) = outs := by
  conv_rhs => rw [← List.map_id outs]
  refine List.map_congr_left (fun o member => number_all (fun j before => ?_))
  exact all j (before.trans (inside o member))

/-- Only the positions before matter. -/
theorem number_congr {keep other : Nat → Prop} {i : Nat} (same : ∀ j < i, (keep j ↔ other j)) :
    number keep i = number other i := by
  induction i with
  | zero => rw [number_zero, number_zero]
  | succ i ih =>
    have here := same i (Nat.lt_succ_self i)
    have before := ih (fun j less => same j (Nat.lt_succ_of_lt less))
    by_cases kept : keep i
    · rw [number_succ_kept kept, number_succ_kept (here.mp kept), before]
    · rw [number_succ_dropped kept, number_succ_dropped (fun o => kept (here.mpr o)), before]

/-- No number exceeds its position. -/
theorem number_le (keep : Nat → Prop) (i : Nat) : number keep i ≤ i := by
  induction i with
  | zero => exact (number_zero keep).le
  | succ i ih =>
    by_cases kept : keep i
    · rw [number_succ_kept kept]
      exact Nat.succ_le_succ ih
    · rw [number_succ_dropped kept]
      exact ih.trans (Nat.le_succ i)

/-- Of two nested selections of equal size, neither keeps more. -/
theorem number_nested {keep less : Nat → Prop} {n : Nat} (nested : ∀ i < n, less i → keep i) :
    number less n ≤ number keep n ∧
      (number less n = number keep n → ∀ i < n, keep i → less i) := by
  induction n with
  | zero =>
    rw [number_zero, number_zero]
    exact ⟨le_rfl, fun _ _ impossible => absurd impossible (Nat.not_lt_zero _)⟩
  | succ n ih =>
    obtain ⟨le, equal⟩ := ih (fun i before => nested i (Nat.lt_succ_of_lt before))
    by_cases kept : keep n
    · by_cases kept' : less n
      · rw [number_succ_kept kept, number_succ_kept kept']
        refine ⟨Nat.succ_le_succ le, fun same i before keeps => ?_⟩
        rcases Nat.lt_succ_iff_lt_or_eq.mp before with earlier | rfl
        · exact equal (Nat.succ.inj same) i earlier keeps
        · exact kept'
      · rw [number_succ_kept kept, number_succ_dropped kept']
        exact ⟨le.trans (Nat.le_succ _), fun same => absurd same (by omega)⟩
    · have kept' : ¬ less n := fun keeps => kept (nested n (Nat.lt_succ_self n) keeps)
      rw [number_succ_dropped kept, number_succ_dropped kept']
      refine ⟨le, fun same i before keeps => ?_⟩
      rcases Nat.lt_succ_iff_lt_or_eq.mp before with earlier | rfl
      · exact equal same i earlier keeps
      · exact absurd keeps kept

/-! ## Picking the kept items -/

section Pick

variable {α : Type u}

open Classical in
/-- The items at kept positions, in order. -/
noncomputable def pick (keep : Nat → Prop) (items : List α) : List α :=
  items.zipIdx.filterMap (fun (item, i) => if keep i then some item else none)

/-- Nothing can be kept of nothing. -/
theorem pick_nil (keep : Nat → Prop) : pick keep ([] : List α) = [] := rfl

/-- A kept last item comes last. -/
theorem pick_snoc_kept {keep : Nat → Prop} (items : List α) (last : α)
    (kept : keep items.length) : pick keep (items ++ [last]) = pick keep items ++ [last] := by
  simp [pick, List.zipIdx_append, kept]

/-- A dropped last item is gone. -/
theorem pick_snoc_dropped {keep : Nat → Prop} (items : List α) (last : α)
    (dropped : ¬ keep items.length) : pick keep (items ++ [last]) = pick keep items := by
  simp [pick, List.zipIdx_append, dropped]

/-- As many items are picked as are kept. -/
theorem pick_length (keep : Nat → Prop) (items : List α) :
    (pick keep items).length = number keep items.length := by
  induction items using List.reverseRecOn with
  | nil => simp [pick_nil, number_zero]
  | append_singleton items last ih =>
    rw [List.length_append, List.length_singleton]
    by_cases kept : keep items.length
    · simp [pick_snoc_kept items last kept, number_succ_kept kept, ih]
    · simp [pick_snoc_dropped items last kept, number_succ_dropped kept, ih]

/-- Exactly the kept items, each at its number. -/
theorem pick_getElem?_iff (keep : Nat → Prop) (items : List α) (k : Nat) (item : α) :
    (pick keep items)[k]? = some item ↔
      ∃ i, keep i ∧ items[i]? = some item ∧ k = number keep i := by
  induction items using List.reverseRecOn generalizing k item with
  | nil => simp [pick_nil]
  | append_singleton items last ih =>
    by_cases kept : keep items.length
    · rw [pick_snoc_kept items last kept, getElem?_snoc, ih, pick_length]
      constructor
      · rintro (⟨i, kept, lookup, rfl⟩ | ⟨rfl, rfl⟩)
        · exact ⟨i, kept, (getElem?_snoc items last item i).mpr (Or.inl lookup), rfl⟩
        · exact ⟨items.length, kept,
            (getElem?_snoc items item item _).mpr (Or.inr ⟨rfl, rfl⟩), rfl⟩
      · rintro ⟨i, kept, lookup, rfl⟩
        rcases (getElem?_snoc items last item i).mp lookup with old | ⟨rfl, rfl⟩
        · exact Or.inl ⟨i, kept, old, rfl⟩
        · exact Or.inr ⟨rfl, rfl⟩
    · rw [pick_snoc_dropped items last kept, ih]
      constructor
      · rintro ⟨i, kept, lookup, rfl⟩
        exact ⟨i, kept, (getElem?_snoc items last item i).mpr (Or.inl lookup), rfl⟩
      · rintro ⟨i, keeps, lookup, rfl⟩
        rcases (getElem?_snoc items last item i).mp lookup with old | ⟨rfl, rfl⟩
        · exact ⟨i, keeps, old, rfl⟩
        · exact absurd keeps kept

/-- A kept item is found at its number. -/
theorem pick_getElem? {keep : Nat → Prop} (items : List α) {i : Nat} (kept : keep i) :
    (pick keep items)[number keep i]? = items[i]? := by
  cases lookup : items[i]? with
  | some item => exact (pick_getElem?_iff keep items _ item).mpr ⟨i, kept, lookup, rfl⟩
  | none =>
    have outside : items.length ≤ i := List.getElem?_eq_none_iff.mp lookup
    apply List.getElem?_eq_none
    rw [pick_length]
    exact number_mono keep outside

/-- What is kept past the end does not matter. -/
theorem pick_congr {keep other : Nat → Prop} (items : List α)
    (same : ∀ j < items.length, (keep j ↔ other j)) : pick keep items = pick other items := by
  induction items using List.reverseRecOn with
  | nil => rfl
  | append_singleton items last ih =>
    have size : (items ++ [last]).length = items.length + 1 := by simp
    have before := ih (fun j lt => same j (by omega))
    have here := same items.length (by omega)
    by_cases kept : keep items.length
    · rw [pick_snoc_kept items last kept, pick_snoc_kept items last (here.mp kept), before]
    · rw [pick_snoc_dropped items last kept,
        pick_snoc_dropped items last (fun o => kept (here.mpr o)), before]

/-- What stands at dropped positions does not matter. -/
theorem pick_congr_items {keep : Nat → Prop} {items items' : List α}
    (same : ∀ i, keep i → items[i]? = items'[i]?) : pick keep items = pick keep items' := by
  have listed (k : Nat) (item : α) :
      (pick keep items)[k]? = some item ↔ (pick keep items')[k]? = some item := by
    rw [pick_getElem?_iff, pick_getElem?_iff]
    exact exists_congr fun i => and_congr_right fun kept => by rw [same i kept]
  exact List.ext_getElem? fun k => Option.ext (listed k)

/-- When everything is kept the list stays as it is. -/
theorem pick_all {keep : Nat → Prop} (items : List α) (kept : ∀ j < items.length, keep j) :
    pick keep items = items := by
  induction items using List.reverseRecOn with
  | nil => rfl
  | append_singleton items last ih =>
    have size : (items ++ [last]).length = items.length + 1 := by simp
    rw [pick_snoc_kept items last (kept _ (by omega)), ih (fun j lt => kept j (by omega))]

end Pick

/-! ## Compactions -/

variable {ν : Type u} [Wired ν] {β : Type v}

/-- Keep some nodes and read every reference through its representative. -/
noncomputable def compact (keep : Nat → Prop) (rep : Nat → Nat) (nodes : List ν) : List ν :=
  (pick keep nodes).map (rewire (fun x => number keep (rep x)))

/-- The representative of what a kept node reads is kept, and comes earlier. -/
def Closed (keep : Nat → Prop) (rep : Nat → Nat) (nodes : List ν) : Prop :=
  ∀ (i : Nat) (node : ν), nodes[i]? = some node → keep i →
    ∀ x ∈ inputs node, keep (rep x) ∧ rep x < i

/-- As many nodes are left as are kept. -/
theorem compact_length (keep : Nat → Prop) (rep : Nat → Nat) (nodes : List ν) :
    (compact keep rep nodes).length = number keep nodes.length := by
  rw [compact, List.length_map, pick_length]

/-- A kept node is found at its number, with its inputs moved to the numbers of
their representatives. -/
theorem compact_getElem? {keep : Nat → Prop} (rep : Nat → Nat) (nodes : List ν) {i : Nat}
    (kept : keep i) : (compact keep rep nodes)[number keep i]? =
      nodes[i]?.map (rewire (fun x => number keep (rep x))) := by
  rw [compact, List.getElem?_map, pick_getElem? nodes kept]

/-- Every node that is left comes from a kept one. -/
theorem compact_lookup {keep : Nat → Prop} {rep : Nat → Nat} {nodes : List ν} {k : Nat}
    {node : ν} (lookup : (compact keep rep nodes)[k]? = some node) :
    ∃ i source, keep i ∧ nodes[i]? = some source ∧ k = number keep i ∧
      node = rewire (fun x => number keep (rep x)) source := by
  rw [compact, List.getElem?_map] at lookup
  obtain ⟨source, picked, rfl⟩ := Option.map_eq_some_iff.mp lookup
  obtain ⟨i, kept, found, position⟩ := (pick_getElem?_iff keep nodes k source).mp picked
  exact ⟨i, source, kept, found, position, rfl⟩

/-- A kept node that reads kept nodes before it does so after the others are
dropped. -/
theorem compact_topological {keep : Nat → Prop} {rep : Nat → Nat} {nodes : List ν}
    (closed : Closed keep rep nodes) : Topological (compact keep rep nodes) := by
  intro k node lookup x member
  obtain ⟨i, source, kept, found, rfl, rfl⟩ := compact_lookup lookup
  rw [inputs_rewire] at member
  obtain ⟨read, present, rfl⟩ := List.mem_map.mp member
  obtain ⟨keeps, earlier⟩ := closed i source found kept read present
  exact number_lt keeps earlier

/-- When representatives have the values of what they stand for, the kept nodes
have their old values at their new numbers. -/
theorem compact_valuation {f : ν → List β → Option β} {keep : Nat → Prop} {rep : Nat → Nat}
    {nodes : List ν} {vals : List β}
    (blind : ∀ (m : Nat → Nat) (node : ν), f (rewire m node) = f node)
    (valuation : Valuation f nodes vals) (closed : Closed keep rep nodes)
    (faithful : ∀ (i : Nat) (node : ν), nodes[i]? = some node → keep i →
      ∀ x ∈ inputs node, vals[rep x]? = vals[x]?) :
    Valuation f (compact keep rep nodes) (pick keep vals) := by
  refine ⟨by rw [pick_length, compact_length, valuation.length], fun k node lookup => ?_⟩
  obtain ⟨i, source, kept, found, rfl, rfl⟩ := compact_lookup lookup
  rw [pick_getElem? vals kept, valuation.value i source found, evalNode, evalNode, blind,
    inputs_rewire]
  congr 1
  rw [gather, gather, List.mapM_map]
  apply Enumerate.mapM_congr
  intro x member
  rw [Function.comp_apply, pick_getElem? vals (closed i source found kept x member).1]
  exact (faithful i source found kept x member).symm

/-- Two ways to keep nodes leave one list when they keep the same and number the
inputs alike. -/
theorem compact_congr {keep other : Nat → Prop} {rep rep' : Nat → Nat} (nodes : List ν)
    (kept : ∀ i < nodes.length, (keep i ↔ other i))
    (same : ∀ (i : Nat) (node : ν), nodes[i]? = some node → keep i →
      ∀ x ∈ inputs node, number keep (rep x) = number other (rep' x)) :
    compact keep rep nodes = compact other rep' nodes := by
  rw [compact, compact, ← pick_congr nodes kept]
  apply List.map_congr_left
  intro node member
  obtain ⟨k, lookup⟩ := List.mem_iff_getElem?.mp member
  obtain ⟨i, keeps, found, _⟩ := (pick_getElem?_iff keep nodes k node).mp lookup
  exact rewire_congr _ _ node (same i node found keeps)

/-- Keeping everything changes nothing. -/
theorem compact_all {keep : Nat → Prop} (nodes : List ν) (topological : Topological nodes)
    (kept : ∀ i < nodes.length, keep i) : compact keep id nodes = nodes := by
  rw [compact, pick_all nodes kept]
  conv_rhs => rw [← List.map_id nodes]
  apply List.map_congr_left
  intro node member
  obtain ⟨i, lookup⟩ := List.mem_iff_getElem?.mp member
  refine (rewire_congr _ id node ?_).trans (rewire_id node)
  intro x present
  exact number_all (fun j lt => kept j (lt.trans ((topological i node lookup x present).trans
    (lookup_bound lookup))))

/-! ## Quotients -/

section Quotient

variable (r : Nat → Nat → Prop)

/-- The first member of a class. -/
noncomputable def leader (i : Nat) : Nat := sInf {j | r j i}

/-- The first member of its class. -/
def IsLeader (i : Nat) : Prop := leader r i = i

/-- The position of a class in the quotient. -/
noncomputable def place (i : Nat) : Nat := number (IsLeader r) (leader r i)

/-- The first node of every class, over the classes it reads. -/
noncomputable def quotient (nodes : List ν) : List ν := compact (IsLeader r) (leader r) nodes

variable {r}

/-- A leader leads itself. -/
theorem IsLeader.leader_eq {i : Nat} (leads : IsLeader r i) : leader r i = i := leads

/-- The leader is in the class. -/
theorem leader_related (equivalence : Equivalence r) (i : Nat) : r (leader r i) i :=
  Nat.sInf_mem (show ({j | r j i} : Set Nat).Nonempty from ⟨i, equivalence.refl i⟩)

/-- No member comes before the leader. -/
theorem leader_le_of_related {i j : Nat} (related : r j i) : leader r i ≤ j :=
  Nat.sInf_le (show j ∈ {j | r j i} from related)

/-- The leader of a node is not after it. -/
theorem leader_le (equivalence : Equivalence r) (i : Nat) : leader r i ≤ i :=
  leader_le_of_related (equivalence.refl i)

/-- One leader means one class. -/
theorem leader_eq_iff (equivalence : Equivalence r) {i j : Nat} :
    leader r i = leader r j ↔ r i j := by
  constructor
  · intro same
    exact equivalence.trans (equivalence.symm (leader_related equivalence i))
      (same ▸ leader_related equivalence j)
  · intro related
    apply Nat.le_antisymm
    · exact leader_le_of_related
        (equivalence.trans (leader_related equivalence j) (equivalence.symm related))
    · exact leader_le_of_related (equivalence.trans (leader_related equivalence i) related)

/-- The leader of a node leads itself. -/
theorem leader_isLeader (equivalence : Equivalence r) (i : Nat) : IsLeader r (leader r i) :=
  (leader_eq_iff equivalence).mpr (leader_related equivalence i)

/-- One place means one class. -/
theorem place_eq_iff (equivalence : Equivalence r) {i j : Nat} :
    place r i = place r j ↔ r i j := by
  rw [← leader_eq_iff equivalence]
  constructor
  · exact number_injective (leader_isLeader equivalence i) (leader_isLeader equivalence j)
  · intro same
    rw [place, place, same]

/-- The place of a leader is its number among the leaders. -/
theorem place_of_leader {i : Nat} (leads : IsLeader r i) :
    place r i = number (IsLeader r) i := by
  rw [place, leads.leader_eq]

/-- What a leader reads has its leader before it. -/
theorem quotient_closed (equivalence : Equivalence r) {nodes : List ν}
    (topological : Topological nodes) : Closed (IsLeader r) (leader r) nodes := by
  intro i node lookup _ x member
  exact ⟨leader_isLeader equivalence x,
    (leader_le equivalence x).trans_lt (topological i node lookup x member)⟩

/-- Merging nodes of equal values keeps every value at its place. -/
theorem valuation_quotient (equivalence : Equivalence r) {f : ν → List β → Option β}
    {nodes : List ν} {vals : List β}
    (blind : ∀ (m : Nat → Nat) (node : ν), f (rewire m node) = f node)
    (topological : Topological nodes) (valuation : Valuation f nodes vals)
    (faithful : ∀ i j, i < nodes.length → j < nodes.length → r i j → vals[i]? = vals[j]?) :
    Valuation f (quotient r nodes) (pick (IsLeader r) vals) ∧
      ∀ i < nodes.length, (pick (IsLeader r) vals)[place r i]? = vals[i]? := by
  have leads {i : Nat} (inside : i < nodes.length) : vals[leader r i]? = vals[i]? :=
    faithful _ i ((leader_le equivalence i).trans_lt inside) inside (leader_related equivalence i)
  constructor
  · refine compact_valuation blind valuation (quotient_closed equivalence topological) ?_
    intro i node lookup _ x member
    exact leads ((topological i node lookup x member).trans (lookup_bound lookup))
  · intro i inside
    rw [place, pick_getElem? vals (leader_isLeader equivalence i)]
    exact leads inside

/-- Leaders below a bound depend only on the classes below it. -/
theorem leader_congr {other : Nat → Nat → Prop} (equivalence : Equivalence r)
    (equivalence' : Equivalence other) {bound : Nat}
    (same : ∀ i < bound, ∀ j < bound, (r i j ↔ other i j)) {i : Nat} (inside : i < bound) :
    leader r i = leader other i := by
  have bound_of {s : Nat → Nat → Prop} (e : Equivalence s) : leader s i < bound :=
    (leader_le e i).trans_lt inside
  apply Nat.le_antisymm
  · exact leader_le_of_related ((same _ (bound_of equivalence') i inside).mpr
      (leader_related equivalence' i))
  · exact leader_le_of_related ((same _ (bound_of equivalence) i inside).mp
      (leader_related equivalence i))

/-- So do the places of classes, and with them the quotient. -/
theorem place_congr {other : Nat → Nat → Prop} (equivalence : Equivalence r)
    (equivalence' : Equivalence other) {bound : Nat}
    (same : ∀ i < bound, ∀ j < bound, (r i j ↔ other i j)) {i : Nat} (inside : i < bound) :
    place r i = place other i := by
  have leaders {j : Nat} (before : j < bound) : leader r j = leader other j :=
    leader_congr equivalence equivalence' same before
  rw [place, place, leaders inside]
  refine number_congr (fun j before => ?_)
  have below := before.trans ((leader_le equivalence' i).trans_lt inside)
  rw [IsLeader, IsLeader, leaders below]

/-- Equivalences that agree on the nodes have one quotient. -/
theorem quotient_congr {other : Nat → Nat → Prop} (equivalence : Equivalence r)
    (equivalence' : Equivalence other) {nodes : List ν} (topological : Topological nodes)
    (same : ∀ i < nodes.length, ∀ j < nodes.length, (r i j ↔ other i j)) :
    quotient r nodes = quotient other nodes := by
  refine compact_congr nodes (fun i inside => ?_) (fun i node lookup _ x member => ?_)
  · rw [IsLeader, IsLeader, leader_congr equivalence equivalence' same inside]
  · exact place_congr equivalence equivalence' same
      ((topological i node lookup x member).trans (lookup_bound lookup))

/-- Of two nested equivalences with equally many classes, neither relates more. -/
theorem finer_of_number {coarse : Nat → Nat → Prop} (equivalence : Equivalence r)
    (equivalence' : Equivalence coarse) {bound : Nat}
    (finer : ∀ i < bound, ∀ j < bound, r i j → coarse i j)
    (count : number (IsLeader coarse) bound = number (IsLeader r) bound) {i j : Nat}
    (inside : i < bound) (inside' : j < bound) (related : coarse i j) : r i j := by
  have nested : ∀ k < bound, IsLeader coarse k → IsLeader r k := by
    intro k before leads
    have le : leader r k < bound := (leader_le equivalence k).trans_lt before
    refine Nat.le_antisymm (leader_le equivalence k) ?_
    have first := leader_le_of_related (finer _ le k before (leader_related equivalence k))
    rwa [leads.leader_eq] at first
  have leads := (number_nested nested).2 count
  have same {k : Nat} (before : k < bound) : leader coarse k = leader r k := by
    have le : leader r k < bound := (leader_le equivalence k).trans_lt before
    have moved := (leader_eq_iff equivalence').mpr
      (finer _ le k before (leader_related equivalence k))
    rw [← moved]
    exact leads _ le (leader_isLeader equivalence k)
  rw [← leader_eq_iff equivalence, ← same inside, ← same inside']
  exact (leader_eq_iff equivalence').mpr related

end Quotient

/-! ## Reachability -/

/-- Reachable from the roots by reading inputs. -/
inductive Reaches (nodes : List ν) (roots : List Nat) : Nat → Prop
  | root {i : Nat} : i ∈ roots → Reaches nodes roots i
  | input {i x : Nat} {node : ν} : Reaches nodes roots i → nodes[i]? = some node →
      x ∈ inputs node → Reaches nodes roots x

/-- Only nodes of the graph are reached. -/
theorem Reaches.bound {nodes : List ν} {roots : List Nat} (topological : Topological nodes)
    (inside : ∀ o ∈ roots, o < nodes.length) {i : Nat} (reached : Reaches nodes roots i) :
    i < nodes.length := by
  cases reached with
  | root member => exact inside i member
  | input _ lookup member => exact (topological _ _ lookup i member).trans (lookup_bound lookup)

/-- What a reached node reads is reached. -/
theorem reaches_closed {nodes : List ν} (topological : Topological nodes) (roots : List Nat) :
    Closed (Reaches nodes roots) id nodes :=
  fun i node lookup reached x member =>
    ⟨reached.input lookup member, topological i node lookup x member⟩

/-- More roots reach more. -/
theorem Reaches.mono {nodes : List ν} {roots more : List Nat} (within : ∀ o ∈ roots, o ∈ more)
    {i : Nat} (reached : Reaches nodes roots i) : Reaches nodes more i := by
  induction reached with
  | root member => exact .root (within _ member)
  | input _ lookup member ih => exact ih.input lookup member

/-- What is reached depends on the reached nodes only. -/
theorem reaches_congr {nodes nodes' : List ν} {roots : List Nat}
    (same : ∀ i, Reaches nodes roots i → nodes[i]? = nodes'[i]?) :
    Reaches nodes roots = Reaches nodes' roots := by
  funext i
  refine propext ⟨fun reached => ?_, fun reached => ?_⟩
  · induction reached with
    | root member => exact .root member
    | input earlier lookup member ih => exact ih.input (same _ earlier ▸ lookup) member
  · induction reached with
    | root member => exact .root member
    | input _ lookup member ih => exact ih.input ((same _ ih).trans lookup) member

/-- So arenas that agree on the reached nodes are compacted to the same nodes. -/
theorem compact_reached_congr {nodes nodes' : List ν} {roots : List Nat}
    (same : ∀ i, Reaches nodes roots i → nodes[i]? = nodes'[i]?) :
    compact (Reaches nodes roots) id nodes = compact (Reaches nodes' roots) id nodes' := by
  rw [compact, compact, ← reaches_congr same, pick_congr_items same]

/-- A value depends only on the nodes that its own node reaches. -/
theorem Reaches.value_eq {f : ν → List β → Option β} {nodes nodes' : List ν} {vals vals' : List β}
    {roots : List Nat} (topological : Topological nodes) (valuation : Valuation f nodes vals)
    (valuation' : Valuation f nodes' vals')
    (same : ∀ i, Reaches nodes roots i → nodes[i]? = nodes'[i]?) {i : Nat}
    (reached : Reaches nodes roots i) (inside : i < nodes.length) : vals[i]? = vals'[i]? := by
  induction i using Nat.strong_induction_on with
  | h i ih =>
    obtain ⟨node, lookup⟩ := lookup_exists inside
    rw [valuation.value i node lookup, valuation'.value i node (same i reached ▸ lookup), evalNode,
      evalNode]
    congr 1
    refine Enumerate.mapM_congr _ _ _ (fun x member => ?_)
    have earlier := topological i node lookup x member
    exact ih x earlier (reached.input lookup member) (earlier.trans inside)

/-- The nodes kept for being reached are reached in what is kept. -/
theorem compact_reaches {nodes : List ν} {roots : List Nat} {i : Nat}
    (reached : Reaches nodes roots i) :
    Reaches (compact (Reaches nodes roots) id nodes) (roots.map (number (Reaches nodes roots)))
      (number (Reaches nodes roots) i) := by
  induction reached with
  | root member => exact .root (List.mem_map_of_mem member)
  | @input i x node reached lookup member ih =>
    have stored := @compact_getElem? ν _ (Reaches nodes roots) id nodes i reached
    rw [lookup] at stored
    exact ih.input stored (by
      rw [inputs_rewire]
      exact List.mem_map_of_mem member)

/-- Each position that is left is the number of a kept one. -/
theorem compact_surjective {keep : Nat → Prop} {rep : Nat → Nat} {nodes : List ν} {k : Nat}
    (inside : k < (compact keep rep nodes).length) :
    ∃ i, keep i ∧ i < nodes.length ∧ number keep i = k := by
  have picked : k < (pick keep nodes).length := by rwa [compact, List.length_map] at inside
  obtain ⟨i, kept, found, rfl⟩ :=
    (pick_getElem?_iff keep nodes k _).mp (List.getElem?_eq_getElem picked)
  obtain ⟨bound, _⟩ := List.getElem?_eq_some_iff.mp found
  exact ⟨i, kept, bound, rfl⟩

end Dag
