import GraphedCore.Dsu
import GraphedCore.Lib.Compact

/-!
# The union-find represents a partition

A parent is an earlier or equal member of the same class, and only the first
member of a class is its own parent. So a walk along parents goes down and ends at
the first member. Path compression redirects walked nodes to that member, and a
union makes the smaller of two first members the parent of the larger.
-/

namespace GraphedCore

open Dag

namespace Dsu

/-- The parents of a partition of `0, …, n - 1`: a parent is in the class and not
after its child, and roots lead their classes. -/
structure Represents (r : Nat → Nat → Prop) (n : Nat) (parent : List Nat) : Prop where
  equivalence : Equivalence r
  length : parent.length = n
  parents : ∀ i < n, ∃ p, parent[i]? = some p ∧ p ≤ i ∧ r p i ∧ (p = i ↔ IsLeader r i)

/-- In the new forest every node is its own parent, and every class a single
node. -/
theorem represents_new (n : Nat) : Represents Eq n (new n).parent where
  equivalence := ⟨fun _ => rfl, Eq.symm, Eq.trans⟩
  length := List.length_range
  parents i inside := by
    refine ⟨i, by simp [new, inside], le_rfl, rfl, iff_of_true rfl ?_⟩
    exact leader_related ⟨fun _ => rfl, Eq.symm, Eq.trans⟩ i

variable {r : Nat → Nat → Prop} {n : Nat} {parent : List Nat}

/-- Members of one class have one leader. -/
theorem leader_of_related (equivalence : Equivalence r) {i j : Nat} (related : r i j) :
    leader r i = leader r j :=
  (leader_eq_iff equivalence).mpr related

/-- The walk to the root needs no more fuel than the node it starts from, for
parents are not after their children. -/
theorem Represents.root (represents : Represents r n parent) (fuel i : Nat) (inside : i < n)
    (enough : i ≤ fuel) : Dsu.root parent fuel i = some (leader r i) := by
  induction fuel generalizing i with
  | zero =>
    obtain ⟨p, found, le, _, self⟩ := represents.parents i inside
    have same : p = i := by omega
    rw [Dsu.root, found]
    simp only [same, if_true]
    rw [(self.mp same).leader_eq]
  | succ fuel ih =>
    obtain ⟨p, found, le, related, self⟩ := represents.parents i inside
    rw [Dsu.root, found]
    by_cases same : p = i
    · simp only [same, if_true]
      rw [(self.mp same).leader_eq]
    · simp only [same, if_false]
      rw [ih p (by omega) (by omega), leader_of_related represents.equivalence related]

/-- A walked node may be redirected to the first member of its class, which is the
root of its walk. -/
theorem Represents.redirect (represents : Represents r n parent) (i : Nat) :
    Represents r n (parent.set i (leader r i)) where
  equivalence := represents.equivalence
  length := by rw [List.length_set, represents.length]
  parents j inside := by
    by_cases same : i = j
    · subst same
      refine ⟨leader r i, ?_, leader_le represents.equivalence i,
        leader_related represents.equivalence i, Iff.rfl⟩
      rw [List.getElem?_set_self (represents.length.symm ▸ inside)]
    · rw [List.getElem?_set_ne same]
      exact represents.parents j inside

/-- Compression redirects the nodes on a walk one by one, and each redirection
keeps the partition. -/
theorem Represents.compress (represents : Represents r n parent) (fuel i top : Nat)
    (inside : i < n) (enough : i ≤ fuel) (root : top = leader r i) :
    ∃ parent', Dsu.compress top fuel parent i = some parent' ∧ Represents r n parent' := by
  induction fuel generalizing i parent with
  | zero =>
    obtain ⟨p, found, le, _, self⟩ := represents.parents i inside
    have same : p = i := by omega
    exact ⟨parent, by rw [Dsu.compress, found]; simp [same], represents⟩
  | succ fuel ih =>
    obtain ⟨p, found, le, related, self⟩ := represents.parents i inside
    by_cases same : p = i
    · exact ⟨parent, by rw [Dsu.compress, found]; simp [same], represents⟩
    · obtain ⟨parent', walked, kept⟩ := ih (represents.redirect i) p (by omega) (by omega)
        (root.trans (leader_of_related represents.equivalence related).symm)
      refine ⟨parent', ?_, kept⟩
      rw [Dsu.compress, found]
      simpa [same, root] using (root ▸ walked)

/-- `find` answers the first member of the class and keeps the partition, though
it changes parents. -/
theorem Represents.find {dsu : Dsu} (represents : Represents r n dsu.parent) {i : Nat}
    (inside : i < n) :
    ∃ dsu', dsu.find i = some (leader r i, dsu') ∧ Represents r n dsu'.parent := by
  have length := represents.length
  have walked := represents.root dsu.parent.length i inside (by omega)
  obtain ⟨parent', compressed, kept⟩ :=
    represents.compress dsu.parent.length i (leader r i) inside (by omega) rfl
  exact ⟨⟨parent'⟩, by simp [Dsu.find, walked, compressed], kept⟩

/-- Two classes become one, and all others stay. -/
def Joined (r : Nat → Nat → Prop) (a b i j : Nat) : Prop :=
  r i j ∨ (r i a ∧ r b j) ∨ (r i b ∧ r a j)

/-- Joining two classes leaves classes. -/
theorem joined_equivalence (equivalence : Equivalence r) (a b : Nat) :
    Equivalence (Joined r a b) where
  refl i := Or.inl (equivalence.refl i)
  symm {i j} := by
    rintro (same | ⟨left, right⟩ | ⟨left, right⟩)
    · exact Or.inl (equivalence.symm same)
    · exact Or.inr (Or.inr ⟨equivalence.symm right, equivalence.symm left⟩)
    · exact Or.inr (Or.inl ⟨equivalence.symm right, equivalence.symm left⟩)
  trans {i j k} := by
    have swap {x y : Nat} (h : r x y) : r y x := equivalence.symm h
    have comp {x y z : Nat} (h : r x y) (h' : r y z) : r x z := equivalence.trans h h'
    rintro (same | ⟨left, right⟩ | ⟨left, right⟩) (same' | ⟨left', right'⟩ | ⟨left', right'⟩)
    · exact Or.inl (comp same same')
    · exact Or.inr (Or.inl ⟨comp same left', right'⟩)
    · exact Or.inr (Or.inr ⟨comp same left', right'⟩)
    · exact Or.inr (Or.inl ⟨left, comp right same'⟩)
    · exact Or.inl (comp left (comp (comp (swap left') (swap right)) right'))
    · exact Or.inl (comp left right')
    · exact Or.inr (Or.inr ⟨left, comp right same'⟩)
    · exact Or.inl (comp left right')
    · exact Or.inl (comp left (comp (comp (swap left') (swap right)) right'))

/-- Joining a class with itself changes nothing. -/
theorem joined_same (equivalence : Equivalence r) {a b : Nat} (related : r a b) :
    Joined r a b = r := by
  funext i j
  refine propext ⟨?_, Or.inl⟩
  rintro (same | ⟨left, right⟩ | ⟨left, right⟩)
  · exact same
  · exact equivalence.trans (equivalence.trans left related) right
  · exact equivalence.trans (equivalence.trans left (equivalence.symm related)) right

/-- A leader of the joined partition was a leader, and not the larger one
joined. -/
theorem joined_isLeader (equivalence : Equivalence r) {a b : Nat} (leadsB : IsLeader r b)
    (less : a < b) (i : Nat) :
    IsLeader (Joined r a b) i ↔ IsLeader r i ∧ i ≠ b := by
  have joined := joined_equivalence equivalence a b
  constructor
  · intro leads
    constructor
    · have le : leader (Joined r a b) i ≤ leader r i :=
        leader_le_of_related (Or.inl (leader_related equivalence i))
      rw [leads.leader_eq] at le
      exact Nat.le_antisymm (leader_le equivalence i) le
    · rintro rfl
      have le : leader (Joined r a i) i ≤ a :=
        leader_le_of_related (Or.inr (Or.inl ⟨equivalence.refl a, equivalence.refl i⟩))
      rw [leads.leader_eq] at le
      exact Nat.not_lt_of_ge le less
  · rintro ⟨leads, other⟩
    apply Nat.le_antisymm (leader_le joined i)
    have smallest {x y : Nat} (leads : IsLeader r y) (related : r x y) : y ≤ x := by
      have le := leader_le_of_related related
      rwa [leads.leader_eq] at le
    rcases leader_related joined i with same | ⟨left, right⟩ | ⟨left, right⟩
    · exact smallest leads same
    · have same : b = i := Nat.le_antisymm
        (by simpa [leadsB.leader_eq] using
          (leader_le_of_related (equivalence.symm right) : leader r b ≤ i))
        (smallest leads right)
      exact absurd same.symm other
    · have least := smallest leadsB left
      have here := smallest leads right
      omega

/-- `union` joins two classes. -/
theorem Represents.union {dsu : Dsu} (represents : Represents r n dsu.parent) {a b : Nat}
    (insideA : a < n) (insideB : b < n) :
    ∃ dsu', dsu.union a b = some dsu' ∧ Represents (Joined r a b) n dsu'.parent := by
  have equivalence := represents.equivalence
  obtain ⟨first, foundA, kept⟩ := represents.find insideA
  obtain ⟨second, foundB, kept'⟩ := kept.find insideB
  by_cases same : leader r a = leader r b
  · refine ⟨second, by simp [Dsu.union, foundA, foundB, same], ?_⟩
    rwa [joined_same equivalence ((leader_eq_iff equivalence).mp same)]
  · have leaders : Joined r a b =
        Joined r (min (leader r a) (leader r b)) (max (leader r a) (leader r b)) := by
      funext i j
      have toA (x : Nat) : r x a ↔ r x (leader r a) :=
        ⟨fun h => equivalence.trans h (equivalence.symm (leader_related equivalence a)),
          fun h => equivalence.trans h (leader_related equivalence a)⟩
      have toB (x : Nat) : r x b ↔ r x (leader r b) :=
        ⟨fun h => equivalence.trans h (equivalence.symm (leader_related equivalence b)),
          fun h => equivalence.trans h (leader_related equivalence b)⟩
      have fromA (x : Nat) : r a x ↔ r (leader r a) x :=
        ⟨fun h => equivalence.symm ((toA x).mp (equivalence.symm h)),
          fun h => equivalence.symm ((toA x).mpr (equivalence.symm h))⟩
      have fromB (x : Nat) : r b x ↔ r (leader r b) x :=
        ⟨fun h => equivalence.symm ((toB x).mp (equivalence.symm h)),
          fun h => equivalence.symm ((toB x).mpr (equivalence.symm h))⟩
      rcases Nat.lt_or_gt_of_ne same with less | less
      · rw [min_eq_left less.le, max_eq_right less.le, Joined, Joined, toA, fromB, toB, fromA]
      · rw [min_eq_right less.le, max_eq_left less.le, Joined, Joined, toA, fromB, toB, fromA]
        exact propext (or_congr_right Or.comm)
    have high : IsLeader r (max (leader r a) (leader r b)) := by
      rcases max_choice (leader r a) (leader r b) with pick | pick <;> rw [pick]
      · exact leader_isLeader equivalence a
      · exact leader_isLeader equivalence b
    have less : min (leader r a) (leader r b) < max (leader r a) (leader r b) := by omega
    have bound : max (leader r a) (leader r b) < n := by
      have leA := leader_le equivalence a
      have leB := leader_le equivalence b
      omega
    refine ⟨⟨second.parent.set (max (leader r a) (leader r b)) (min (leader r a) (leader r b))⟩,
      by simp [Dsu.union, foundA, foundB, same], ?_⟩
    rw [leaders]
    refine ⟨joined_equivalence equivalence _ _, by rw [List.length_set, kept'.length], ?_⟩
    intro i inside
    by_cases here : max (leader r a) (leader r b) = i
    · subst here
      refine ⟨_, List.getElem?_set_self (kept'.length.symm ▸ inside), less.le, ?_, ?_⟩
      · exact Or.inr (Or.inl ⟨equivalence.refl _, equivalence.refl _⟩)
      · rw [joined_isLeader equivalence high less]
        exact iff_of_false less.ne (fun both => both.2 rfl)
    · obtain ⟨p, found, le, related, self⟩ := kept'.parents i inside
      refine ⟨p, by rw [List.getElem?_set_ne here, found], le, Or.inl related, ?_⟩
      rw [joined_isLeader equivalence high less, self]
      exact ⟨fun leads => ⟨leads, fun same => here same.symm⟩, And.left⟩

end Dsu

end GraphedCore
