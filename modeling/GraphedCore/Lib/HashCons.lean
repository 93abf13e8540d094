import GraphedCore.Lib.Congruence
import GraphedCore.Lib.Table
import GraphedCore.Lib.Term
import Mathlib.SetTheory.Cardinal.Finite

/-!
# Hash-consing computes a quotient

A hash-consing pass walks a graph, rereads every node through the map built so
far, and appends it only when no equal node is stored. Its arena is at every
moment the quotient of the prefix it has read, and its map sends a node to the
place of its class. What is left to each pass is to say when a lookup hits.
-/

namespace Dag

universe u v

open Wired

variable {ν : Type u} [Wired ν] {α : Type v} {r : Nat → Nat → Prop}

/-- A new leader comes last in the quotient, over the places of its inputs. -/
theorem quotient_snoc_leader {nodes : List ν} (last : ν) (leads : IsLeader r nodes.length) :
    quotient r (nodes ++ [last]) = quotient r nodes ++ [rewire (place r) last] := by
  rw [quotient, compact, pick_snoc_kept nodes last leads, List.map_append]
  rfl

/-- A new follower adds nothing. -/
theorem quotient_snoc_follower {nodes : List ν} (last : ν) (follows : ¬ IsLeader r nodes.length) :
    quotient r (nodes ++ [last]) = quotient r nodes := by
  rw [quotient, compact, pick_snoc_dropped nodes last follows]
  rfl

/-- The quotient of the nodes before grows by the leader at a position. -/
theorem quotient_take_leader {nodes : List ν} {i : Nat} {node : ν}
    (lookup : nodes[i]? = some node) (leads : IsLeader r i) :
    quotient r (nodes.take (i + 1)) = quotient r (nodes.take i) ++ [rewire (place r) node] := by
  obtain ⟨split, length⟩ := take_succ_snoc lookup
  rw [split, quotient_snoc_leader node (by rwa [length])]

/-- It stays as it is at a follower. -/
theorem quotient_take_follower {nodes : List ν} {i : Nat} {node : ν}
    (lookup : nodes[i]? = some node) (follows : ¬ IsLeader r i) :
    quotient r (nodes.take (i + 1)) = quotient r (nodes.take i) := by
  obtain ⟨split, length⟩ := take_succ_snoc lookup
  rw [split, quotient_snoc_follower node (by rwa [length])]

/-- The quotient has one node for each leader. -/
theorem quotient_length (nodes : List ν) :
    (quotient r nodes).length = number (IsLeader r) nodes.length := compact_length _ _ nodes

/-- A stored node is the node of a leader that has been read. -/
theorem quotient_take_lookup {nodes : List ν} {i k : Nat} {item : ν}
    (lookup : (quotient r (nodes.take i))[k]? = some item) :
    ∃ l source, l < i ∧ IsLeader r l ∧ nodes[l]? = some source ∧ k = place r l ∧
      item = rewire (place r) source := by
  obtain ⟨l, source, leads, found, rfl, rfl⟩ := compact_lookup lookup
  obtain ⟨before, present⟩ : l < i ∧ nodes[l]? = some source := by
    rw [List.getElem?_take] at found
    split at found
    · exact ⟨by assumption, found⟩
    · cases found
  exact ⟨l, source, before, leads, present, (place_of_leader leads).symm, rfl⟩

/-- Every leader that has been read is stored at its place. -/
theorem quotient_take_stored {nodes : List ν} {i l : Nat} {source : ν} (before : l < i)
    (leads : IsLeader r l) (lookup : nodes[l]? = some source) :
    (quotient r (nodes.take i))[place r l]? = some (rewire (place r) source) := by
  have stored := @compact_getElem? ν _ (IsLeader r) (leader r) (nodes.take i) l leads
  rw [place_of_leader leads, quotient, stored, List.getElem?_take, if_pos before, lookup]
  rfl

/-- The class of a node is stored as the first of its members. -/
theorem quotient_stored (equivalence : Equivalence r) {nodes : List ν} {i : Nat} {source : ν}
    (found : nodes[leader r i]? = some source) :
    (quotient r nodes)[place r i]? = some (rewire (place r) source) := by
  have kept := quotient_take_stored (lookup_bound found) (leader_isLeader equivalence i) found
  rwa [List.take_length, (place_eq_iff equivalence).mpr (leader_related equivalence i)] at kept

/-- The place of a fresh leader is the end of the arena. -/
theorem place_fresh {nodes : List ν} {i : Nat} (inside : i < nodes.length) (leads : IsLeader r i) :
    place r i = (quotient r (nodes.take i)).length := by
  rw [place_of_leader leads, quotient_length, List.length_take, Nat.min_eq_left inside.le]

/-- A node related to an earlier one does not lead its class, and has its
place. -/
theorem follower_of_related (equivalence : Equivalence r) {i j : Nat} (before : j < i)
    (related : r j i) : ¬ IsLeader r i ∧ place r i = place r j := by
  refine ⟨?_, (place_eq_iff equivalence).mpr (equivalence.symm related)⟩
  intro leads
  have le : leader r i ≤ j := leader_le_of_related related
  rw [leads.leader_eq] at le
  exact Nat.not_lt_of_ge le before

/-- A node that does not lead its class has an earlier leader. -/
theorem leader_of_follower (equivalence : Equivalence r) {i : Nat} (follows : ¬ IsLeader r i) :
    leader r i < i ∧ IsLeader r (leader r i) ∧ r (leader r i) i :=
  ⟨lt_of_le_of_ne (leader_le equivalence i) follows, leader_isLeader equivalence i,
    leader_related equivalence i⟩

/-- Inputs have one list of places exactly when they are related one by one. -/
theorem map_place_eq_iff (equivalence : Equivalence r) (xs ys : List Nat) :
    xs.map (place r) = ys.map (place r) ↔ List.Forall₂ r xs ys := by
  induction xs generalizing ys with
  | nil => cases ys <;> simp
  | cons x xs ih =>
    cases ys with
    | nil => simp
    | cons y ys =>
      rw [List.map_cons, List.map_cons, List.cons.injEq, place_eq_iff equivalence, ih,
        List.forall₂_cons]

/-- As many places as classes. -/
theorem number_leaders (equivalence : Equivalence r) (n : Nat) :
    number (IsLeader r) n = Nat.card (Quot (fun i j : Fin n => r i j)) := by
  have below (i : Fin n) : place r i < number (IsLeader r) n :=
    number_lt (leader_isLeader equivalence i) ((leader_le equivalence i).trans_lt i.2)
  have respects (i j : Fin n) (related : r i j) :
      (⟨place r i, below i⟩ : Fin (number (IsLeader r) n)) = ⟨place r j, below j⟩ :=
    Fin.ext ((place_eq_iff equivalence).mpr related)
  have bijective : Function.Bijective (Quot.lift _ respects) := by
    constructor
    · intro a b
      induction a using Quot.ind with
      | mk i =>
        induction b using Quot.ind with
        | mk j =>
          intro same
          exact Quot.sound ((place_eq_iff equivalence).mp (Fin.mk.inj same))
    · intro ⟨k, inside⟩
      have positions := pick_length (IsLeader r) (List.range n)
      rw [List.length_range] at positions
      obtain ⟨item, picked⟩ := lookup_exists
        (show k < (pick (IsLeader r) (List.range n)).length by rwa [positions])
      obtain ⟨i, leads, found, rfl⟩ := (pick_getElem?_iff _ _ _ _).mp picked
      have small : i < n := by simpa using lookup_bound found
      exact ⟨Quot.mk _ ⟨i, small⟩, Fin.ext (place_of_leader leads)⟩
  rw [Nat.card_eq_of_bijective _ bijective, Nat.card_fin]

/-- Each position of the quotient is the place of a node. -/
theorem place_surjective {nodes : List ν} {k : Nat} (inside : k < (quotient r nodes).length) :
    ∃ i, i < nodes.length ∧ place r i = k := by
  obtain ⟨i, leads, bound, position⟩ := compact_surjective inside
  exact ⟨i, bound, (place_of_leader leads).trans position⟩

/-- What is mapped to a pair is a pair. -/
theorem map_pair {f : Nat → Nat} {xs : List Nat} {a b : Nat} (mapped : xs.map f = [a, b]) :
    ∃ x y, xs = [x, y] ∧ f x = a ∧ f y = b := by
  cases xs with
  | nil => cases mapped
  | cons x rest =>
    obtain ⟨first, others⟩ := List.cons.inj mapped
    obtain ⟨y, rfl, second⟩ := List.map_eq_singleton_iff.mp others
    exact ⟨x, y, rfl, first, second⟩

/-! ## Congruence without rules -/

section Plain

variable {label : ν → α}

/-- Congruence alone: no label commutes and none is dropped. -/
def plainRules (label : ν → α) (blind : ∀ f node, label (rewire f node) = label node) :
    Rules ν α where
  label := label
  commutes _ := False
  drops _ := False
  label_rewire := blind

/-- Plainly congruent nodes are twins without a swap. -/
theorem plain_alike {blind : ∀ f node, label (rewire f node) = label node} {nodes : List ν}
    (topological : Topological nodes) {i j : Nat} {node : ν} (lookup : nodes[i]? = some node)
    (related : Least (plainRules label blind) nodes i j) :
    ∃ other, nodes[j]? = some other ∧ label node = label other ∧
      List.Forall₂ (Least (plainRules label blind) nodes) (inputs node) (inputs other) := by
  have free (k : Nat) : ¬ Collapsed (plainRules label blind) (fun _ _ => True) nodes k := by
    rintro ⟨_, _, _, drops, _⟩
    exact drops
  obtain ⟨found, other, first, second, labels, straight | ⟨commutes, _⟩⟩ :=
    (related.twin topological (free i) (free j)).alike lookup
  · obtain rfl := Option.some.inj (lookup.symm.trans first)
    exact ⟨other, second, labels, straight⟩
  · exact commutes.elim

/-- Distinct nodes of which none was dropped, and none commuted into another, are
not congruent. -/
theorem cong_discrete {rules : Rules ν α} {fired : Nat → Nat → Prop} {nodes : List ν}
    (undropped : ∀ (i a : Nat) (node : ν), nodes[i]? = some node →
      rules.drops (rules.label node) → ¬ fired i a)
    (uncommuted : ∀ (i j : Nat) (node other : ν), nodes[i]? = some node → nodes[j]? = some other →
      rules.label node = rules.label other → rules.commutes (rules.label node) → i = j)
    (distinct : Distinct rules.label nodes) {i j : Nat} (related : Cong rules fired nodes i j) :
    i = j := by
  induction related with
  | refl => rfl
  | symm _ ih => exact ih.symm
  | trans _ _ ih ih' => exact ih.trans ih'
  | congr first second labels lengths _ ih =>
    refine distinct _ _ _ _ first second labels (List.ext_getElem lengths ?_)
    intro k inside inside'
    exact ih k _ _ (List.getElem?_eq_getElem inside) (List.getElem?_eq_getElem inside')
  | swap first second labels commutes => exact uncommuted _ _ _ _ first second labels commutes
  | drop lookup drops _ did => exact absurd did (undropped _ _ _ lookup drops)

/-- Distinct nodes are not plainly congruent. -/
theorem plain_discrete {blind : ∀ f node, label (rewire f node) = label node} {nodes : List ν}
    (distinct : Distinct label nodes) {i j : Nat}
    (related : Least (plainRules label blind) nodes i j) : i = j :=
  cong_discrete (fun _ _ _ _ => False.elim) (fun _ _ _ _ _ _ _ => False.elim) distinct related

/-- Plain congruence is equality of trees: nodes of one tree have the same label
over inputs of pairwise one tree, by induction on the node. -/
theorem least_iff_termAt {blind : ∀ f node, label (rewire f node) = label node} {nodes : List ν}
    (topological : Topological nodes) {i j : Nat} (inside : i < nodes.length)
    (inside' : j < nodes.length) :
    Least (plainRules label blind) nodes i j ↔ termAt label nodes i = termAt label nodes j := by
  obtain ⟨terms, valuation⟩ := terms_exist label topological
  rw [termAt_eq topological valuation, termAt_eq topological valuation]
  have valid : Validates (plainRules label blind) (termNode label) := {
    label := fun node other labels => by
      funext args
      rw [termNode, termNode, show label node = label other from labels]
    commutes := fun _ _ _ => False.elim
    drops := fun _ _ => False.elim }
  refine ⟨Cong.value valid valuation, ?_⟩
  induction i using Nat.strong_induction_on generalizing j with
  | _ i ih =>
    intro same
    obtain ⟨node, first⟩ := lookup_exists inside
    obtain ⟨other, second⟩ := lookup_exists inside'
    obtain ⟨labels, reads⟩ := valuation.same_term first second same
    obtain ⟨lengths, agree⟩ := List.forall₂_iff_get.mp reads
    refine .of_inputs first second labels (List.forall₂_iff_get.mpr ⟨lengths, ?_⟩)
    intro k left right
    have before := topological i node first _ (List.get_mem _ ⟨k, left⟩)
    have before' := topological j other second _ (List.get_mem _ ⟨k, right⟩)
    exact ih _ before (before.trans inside) (before'.trans inside') (agree k left right)

/-- Merging nodes of one tree keeps every tree, at the place of its node. -/
theorem termAt_quotient (equivalence : Equivalence r)
    (blind : ∀ f node, label (rewire f node) = label node) {nodes : List ν}
    (topological : Topological nodes) (one : ∀ i j, i < nodes.length → j < nodes.length →
      r i j → termAt label nodes i = termAt label nodes j) {i : Nat} (inside : i < nodes.length) :
    termAt label (quotient r nodes) (place r i) = termAt label nodes i := by
  obtain ⟨terms, valuation⟩ := terms_exist label topological
  have unread (m : Nat → Nat) (node : ν) :
      termNode label (rewire m node) = termNode label node := by
    funext args
    rw [termNode, termNode, blind]
  have earlier : Topological (quotient r nodes) :=
    compact_topological (quotient_closed equivalence topological)
  obtain ⟨kept, same⟩ := valuation_quotient equivalence unread topological valuation
    (fun i j left right related => by
      rw [← termAt_eq topological valuation, ← termAt_eq topological valuation]
      exact one i j left right related)
  rw [termAt_eq earlier kept, termAt_eq topological valuation, same i inside]

/-- A quotient by a congruence has distinct nodes. -/
theorem quotient_distinct (equivalence : Equivalence r)
    (blind : ∀ f node, label (rewire f node) = label node) {nodes : List ν}
    (congruence : ∀ (i j : Nat) (node other : ν), nodes[i]? = some node →
      nodes[j]? = some other → label node = label other →
      List.Forall₂ r (inputs node) (inputs other) → r i j) :
    Distinct label (quotient r nodes) := by
  intro i j node other first second labels reads
  obtain ⟨k, source, leads, found, rfl, rfl⟩ := compact_lookup first
  obtain ⟨l, target, leads', found', rfl, rfl⟩ := compact_lookup second
  rw [blind, blind] at labels
  rw [inputs_rewire, inputs_rewire] at reads
  have related : r k l := congruence k l source target found found' labels
    ((map_place_eq_iff equivalence _ _).mp reads)
  have places := (place_eq_iff equivalence).mpr related
  rwa [place_of_leader leads, place_of_leader leads'] at places

end Plain

/-! ## Congruence in a quotient -/

section Pullback

variable {rules rules' : Rules ν α} {fired fired' : Nat → Nat → Prop} {nodes : List ν}

/-- A node that is congruent to a node of the graph is a node of the graph. -/
theorem Cong.bound_iff (topological : Topological nodes) {i j : Nat}
    (related : Cong rules fired nodes i j) : i < nodes.length ↔ j < nodes.length := by
  induction related with
  | refl => rfl
  | symm _ ih => exact ih.symm
  | trans _ _ ih ih' => exact ih.trans ih'
  | congr first second => exact iff_of_true (lookup_bound first) (lookup_bound second)
  | swap first second => exact iff_of_true (lookup_bound first) (lookup_bound second)
  | @drop i a node lookup _ single =>
    have earlier := topological i node lookup a (by simp [single])
    exact iff_of_true (lookup_bound lookup) (earlier.trans (lookup_bound lookup))

/-- What congruence merges in a quotient by related nodes was related before:
every step is made between the first members of the classes. The rules of the
quotient may be fewer. -/
theorem cong_of_quotient (equivalence : Equivalence r) (topological : Topological nodes)
    (sound : ∀ i j, i < nodes.length → j < nodes.length → r i j → Cong rules fired nodes i j)
    (label : rules'.label = rules.label)
    (commutes : ∀ a, rules'.commutes a → rules.commutes a ∧ ∀ i j, fired i j)
    (drops : ∀ a, rules'.drops a → rules.drops a ∧ ∀ i j, fired i j) {k l : Nat}
    (related : Cong rules' fired' (quotient r nodes) k l) :
    ∀ i j, i < nodes.length → j < nodes.length → place r i = k → place r j = l →
      Cong rules fired nodes i j := by
  have earlier := compact_topological (quotient_closed equivalence topological)
  have onto_leader {i : Nat} (inside : i < nodes.length) : Cong rules fired nodes i (leader r i) :=
    sound _ _ inside ((leader_le equivalence i).trans_lt inside)
      (equivalence.symm (leader_related equivalence i))
  have stored {i : Nat} {node : ν} (inside : i < nodes.length)
      (lookup : (quotient r nodes)[place r i]? = some node) :
      ∃ source, nodes[leader r i]? = some source ∧ node = rewire (place r) source := by
    obtain ⟨source, found⟩ := lookup_exists ((leader_le equivalence i).trans_lt inside)
    exact ⟨source, found, Option.some.inj (lookup.symm.trans (quotient_stored equivalence found))⟩
  induction related with
  | refl k =>
    intro i j inside inside' first second
    exact sound i j inside inside' ((place_eq_iff equivalence).mp (first.trans second.symm))
  | symm _ ih =>
    intro i j inside inside' first second
    exact (ih j i inside' inside second first).symm
  | @trans k m l before _ ih ih' =>
    rintro i j inside inside' rfl rfl
    have bound : place r i < (quotient r nodes).length := by
      rw [quotient_length]
      exact number_lt (leader_isLeader equivalence i) ((leader_le equivalence i).trans_lt inside)
    obtain ⟨h, middle, rfl⟩ := place_surjective ((before.bound_iff earlier).mp bound)
    exact (ih i h inside middle rfl rfl).trans (ih' h j middle inside' rfl rfl)
  | @congr k l node other first second labels lengths _ ih =>
    rintro i j inside inside' rfl rfl
    obtain ⟨source, found, rfl⟩ := stored inside first
    obtain ⟨target, found', rfl⟩ := stored inside' second
    rw [label, rules.label_rewire, rules.label_rewire] at labels
    rw [inputs_rewire, inputs_rewire, List.length_map, List.length_map] at lengths
    refine (onto_leader inside).trans (.trans ?_ (onto_leader inside').symm)
    refine .congr found found' labels lengths ?_
    intro p x y left right
    have readX := (topological _ source found x (List.mem_of_getElem? left)).trans
      (lookup_bound found)
    have readY := (topological _ target found' y (List.mem_of_getElem? right)).trans
      (lookup_bound found')
    refine ih p (place r x) (place r y) ?_ ?_ x y readX readY rfl rfl
    · rw [inputs_rewire, List.getElem?_map, left]
      rfl
    · rw [inputs_rewire, List.getElem?_map, right]
      rfl
  | @swap k l a b c d node other first second labels commute left right _ _ _ ih ih' =>
    rintro i j inside inside' rfl rfl
    obtain ⟨source, found, rfl⟩ := stored inside first
    obtain ⟨target, found', rfl⟩ := stored inside' second
    rw [label, rules.label_rewire, rules.label_rewire] at labels
    rw [label, rules.label_rewire] at commute
    obtain ⟨commutes', fires⟩ := commutes _ commute
    rw [inputs_rewire] at left right
    obtain ⟨a', b', reads, rfl, rfl⟩ := map_pair left
    obtain ⟨c', d', reads', rfl, rfl⟩ := map_pair right
    have earlierX {x : Nat} (member : x ∈ inputs source) : x < nodes.length :=
      (topological _ source found x member).trans (lookup_bound found)
    have earlierY {y : Nat} (member : y ∈ inputs target) : y < nodes.length :=
      (topological _ target found' y member).trans (lookup_bound found')
    refine (onto_leader inside).trans (.trans ?_ (onto_leader inside').symm)
    exact .swap found found' labels commutes' reads reads'
      (ih a' d' (earlierX (by simp [reads])) (earlierY (by simp [reads'])) rfl rfl)
      (ih' b' c' (earlierX (by simp [reads])) (earlierY (by simp [reads'])) rfl rfl) (fires _ _)
  | @drop k a node lookup dropped single _ =>
    rintro i j inside inside' rfl second
    obtain ⟨source, found, rfl⟩ := stored inside lookup
    rw [label, rules.label_rewire] at dropped
    obtain ⟨dropped', fires⟩ := drops _ dropped
    rw [inputs_rewire] at single
    obtain ⟨a', reads, rfl⟩ := List.map_eq_singleton_iff.mp single
    have read := (topological _ source found a' (by simp [reads])).trans (lookup_bound found)
    have same := sound _ _ read inside' ((place_eq_iff equivalence).mp second.symm)
    exact (onto_leader inside).trans (.trans (.drop found dropped' reads (fires _ _)) same)

end Pullback

/-! ## Reachability in a quotient -/

section Classes

variable {rules : Rules ν α} {fired : Nat → Nat → Prop} {nodes : List ν} {roots : List Nat}

/-- The class of a node that did not collapse is stored as its first member, which
has the label of the node and, up to a swap and the classes, its inputs. -/
theorem leader_alike (equivalence : Equivalence r) (topological : Topological nodes)
    (same : ∀ i < nodes.length, ∀ j < nodes.length, (r i j ↔ Cong rules fired nodes i j))
    {i : Nat} {node : ν} (lookup : nodes[i]? = some node)
    (root : ¬ Collapsed rules fired nodes i) :
    ∃ source, nodes[leader r i]? = some source ∧
      (quotient r nodes)[place r i]? = some (rewire (place r) source) ∧
      rules.label node = rules.label source ∧
      (List.Forall₂ (Cong rules fired nodes) (inputs node) (inputs source) ∨
        rules.commutes (rules.label node) ∧ ∃ a b c d, inputs node = [a, b] ∧
          inputs source = [c, d] ∧ Cong rules fired nodes a d ∧ Cong rules fired nodes b c) := by
  have bound := lookup_bound lookup
  have first := (leader_le equivalence i).trans_lt bound
  have leads : leader r i = leader (Cong rules fired nodes) i :=
    leader_congr equivalence cong_equivalence same bound
  have root' : ¬ Collapsed rules fired nodes (leader r i) :=
    leads ▸ leader_not_collapsed topological i
  have related := (same _ first i bound).mp (leader_related equivalence i)
  obtain ⟨found, source, present, stored, labels, shape⟩ :=
    (related.symm.twin topological root root').alike lookup
  obtain rfl := Option.some.inj (lookup.symm.trans present)
  exact ⟨source, stored, quotient_stored equivalence stored, labels, shape⟩

/-- A node that no rule applies to keeps its label and its inputs in the
quotient. -/
theorem quotient_inert (equivalence : Equivalence r) (topological : Topological nodes)
    (same : ∀ i < nodes.length, ∀ j < nodes.length, (r i j ↔ Cong rules fired nodes i j))
    {i : Nat} {node : ν} (lookup : nodes[i]? = some node)
    (undropped : ¬ rules.drops (rules.label node))
    (uncommuted : ¬ rules.commutes (rules.label node)) :
    ∃ kept, (quotient r nodes)[place r i]? = some kept ∧ rules.label kept = rules.label node ∧
      inputs kept = (inputs node).map (place r) := by
  have root : ¬ Collapsed rules fired nodes i := by
    rintro ⟨other, _, found, drops, _⟩
    obtain rfl := Option.some.inj (lookup.symm.trans found)
    exact undropped drops
  obtain ⟨source, stored, kept, labels, straight | ⟨commutes, _⟩⟩ :=
    leader_alike equivalence topological same lookup root
  · refine ⟨_, kept, by rw [rules.label_rewire, labels], ?_⟩
    have bound := lookup_bound lookup
    have first := (leader_le equivalence i).trans_lt bound
    have listed := (List.forall₂_and_left _ _).mpr
      ⟨fun x (member : x ∈ inputs node) => member, straight⟩
    have listed' := (List.forall₂_and_left _ _).mpr
      ⟨fun y (member : y ∈ inputs source) => member, listed.flip⟩
    rw [inputs_rewire, map_place_eq_iff equivalence]
    refine listed'.imp ?_
    rintro y x ⟨readY, readX, related⟩
    exact (same y ((topological _ source stored y readY).trans first) x
      ((topological i node lookup x readX).trans bound)).mpr related.symm
  · exact absurd commutes uncommuted

/-- The quotient by a congruence keeps what it merges reachable. -/
theorem quotient_reaches (equivalence : Equivalence r) (topological : Topological nodes)
    (same : ∀ i < nodes.length, ∀ j < nodes.length, (r i j ↔ Cong rules fired nodes i j))
    {i : Nat} (reached : Reaches nodes roots i) :
    Reaches (quotient r nodes) (roots.map (place r)) (place r i) := by
  induction reached with
  | root member => exact .root (List.mem_map_of_mem member)
  | @input i x node reached lookup member ih =>
    have bound := lookup_bound lookup
    have earlier := (topological i node lookup x member).trans bound
    by_cases collapsed : Collapsed rules fired nodes i
    · obtain ⟨other, a, found, _, single, onto⟩ := collapsed
      obtain rfl := Option.some.inj (lookup.symm.trans found)
      obtain rfl : x = a := by simpa [single] using member
      rwa [(place_eq_iff equivalence).mpr ((same i bound x earlier).mpr onto)] at ih
    · obtain ⟨source, stored, kept, _, shape⟩ :=
        leader_alike equivalence topological same lookup collapsed
      obtain ⟨y, reads, merged⟩ : ∃ y ∈ inputs source, Cong rules fired nodes x y := by
        rcases shape with straight | ⟨_, a, b, c, d, left, right, ad, bc⟩
        · obtain ⟨k, position, rfl⟩ := List.getElem_of_mem member
          obtain ⟨lengths, pairs⟩ := List.forall₂_iff_get.mp straight
          exact ⟨_, List.get_mem _ _, pairs k position (lengths ▸ position)⟩
        · rw [left] at member
          rcases List.mem_pair.mp member with rfl | rfl
          · exact ⟨d, by simp [right], ad⟩
          · exact ⟨c, by simp [right], bc⟩
      have inside := (topological _ source stored y reads).trans
        ((leader_le equivalence i).trans_lt bound)
      rw [(place_eq_iff equivalence).mpr ((same x earlier y inside).mpr merged)]
      refine ih.input kept ?_
      rw [inputs_rewire]
      exact List.mem_map_of_mem reads

end Classes

/-! ## Trivial quotients -/

/-- Nothing is related to an earlier node. -/
def Discrete (r : Nat → Nat → Prop) (n : Nat) : Prop :=
  ∀ i j, i < n → j < n → r i j → i = j

/-- Among nodes of which no two are related everyone leads. -/
theorem Discrete.leads (equivalence : Equivalence r) {n : Nat} (discrete : Discrete r n) {i : Nat}
    (inside : i < n) : IsLeader r i :=
  discrete _ i ((leader_le equivalence i).trans_lt inside) inside (leader_related equivalence i)

/-- So everyone stays in place. -/
theorem Discrete.place (equivalence : Equivalence r) {n : Nat} (discrete : Discrete r n) {i : Nat}
    (inside : i < n) : place r i = i := by
  rw [place_of_leader (discrete.leads equivalence inside)]
  exact number_all (fun j before => discrete.leads equivalence (before.trans inside))

/-- And the quotient is the graph. -/
theorem Discrete.quotient (equivalence : Equivalence r) {nodes : List ν}
    (topological : Topological nodes) (discrete : Discrete r nodes.length) :
    quotient r nodes = nodes := by
  refine Eq.trans ?_ (@compact_all ν _ (IsLeader r) nodes topological
    (fun i inside => discrete.leads equivalence inside))
  refine compact_congr nodes (fun _ _ => Iff.rfl) ?_
  intro i node lookup _ x member
  have inside := (topological i node lookup x member).trans (lookup_bound lookup)
  rw [(discrete.leads equivalence inside).leader_eq, id]

end Dag
