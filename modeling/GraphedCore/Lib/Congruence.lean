import GraphedCore.Lib.Compact

/-!
# Congruence of graph nodes under two kinds of rule

Nodes carry labels. Two nodes are congruent when their labels agree and their
inputs are pairwise congruent. On top of this, a commuting label relates two
nodes whose two inputs are congruent after swapping, and a dropping label relates
a node to its single input. Each rule instance counts only if it fired, so the
relation also describes a rewriting that stopped early.

The structure theorem reads a derivation back: a class consists of nodes that
were dropped onto an earlier member, and of nodes that agree in label and, up to
a swap, in the classes of their inputs. Everything else here follows from it.
-/

namespace Dag

universe u v w

open Wired

/-- The labels of nodes, and the labels the rules apply to. -/
structure Rules (ν : Type u) [Wired ν] (α : Type v) where
  label : ν → α
  commutes : α → Prop
  drops : α → Prop
  label_rewire : ∀ (f : Nat → Nat) (node : ν), label (rewire f node) = label node

variable {ν : Type u} [Wired ν] {α : Type v} {β : Type w}

/-- The congruence generated by the rule instances that fired. -/
inductive Cong (rules : Rules ν α) (fired : Nat → Nat → Prop) (nodes : List ν) :
    Nat → Nat → Prop
  | refl (i : Nat) : Cong rules fired nodes i i
  | symm {i j : Nat} : Cong rules fired nodes i j → Cong rules fired nodes j i
  | trans {i j k : Nat} : Cong rules fired nodes i j → Cong rules fired nodes j k →
      Cong rules fired nodes i k
  | congr {i j : Nat} {node other : ν} : nodes[i]? = some node → nodes[j]? = some other →
      rules.label node = rules.label other → (inputs node).length = (inputs other).length →
      (∀ (k x y : Nat), (inputs node)[k]? = some x → (inputs other)[k]? = some y →
        Cong rules fired nodes x y) →
      Cong rules fired nodes i j
  | swap {i j a b c d : Nat} {node other : ν} : nodes[i]? = some node →
      nodes[j]? = some other → rules.label node = rules.label other →
      rules.commutes (rules.label node) → inputs node = [a, b] → inputs other = [c, d] →
      Cong rules fired nodes a d → Cong rules fired nodes b c → fired i j →
      Cong rules fired nodes i j
  | drop {i a : Nat} {node : ν} : nodes[i]? = some node → rules.drops (rules.label node) →
      inputs node = [a] → fired i a → Cong rules fired nodes i a

/-- Every rule instance fires: the least congruence closed under the rules. -/
def Least (rules : Rules ν α) (nodes : List ν) : Nat → Nat → Prop :=
  Cong rules (fun _ _ => True) nodes

variable {rules : Rules ν α} {fired : Nat → Nat → Prop} {nodes : List ν}

/-- Congruence is closed under the laws of an equivalence by its own rules. -/
theorem cong_equivalence : Equivalence (Cong rules fired nodes) :=
  ⟨.refl, .symm, .trans⟩

/-- So is the least congruence. -/
theorem least_equivalence : Equivalence (Least rules nodes) := cong_equivalence

/-- Nodes of one label over congruent inputs are congruent. -/
theorem Cong.of_inputs {i j : Nat} {node other : ν} (first : nodes[i]? = some node)
    (second : nodes[j]? = some other) (labels : rules.label node = rules.label other)
    (pairs : List.Forall₂ (Cong rules fired nodes) (inputs node) (inputs other)) :
    Cong rules fired nodes i j := by
  refine .congr first second labels pairs.length_eq ?_
  intro k x y left right
  obtain ⟨_, related⟩ := List.forall₂_iff_get.mp pairs
  obtain ⟨inside, rfl⟩ := List.getElem?_eq_some_iff.mp left
  obtain ⟨inside', rfl⟩ := List.getElem?_eq_some_iff.mp right
  exact related k inside inside'

/-- Firing fewer rules relates fewer nodes. -/
theorem Cong.mono {more : Nat → Nat → Prop} (weaker : ∀ i j, fired i j → more i j) {i j : Nat}
    (related : Cong rules fired nodes i j) : Cong rules more nodes i j := by
  induction related with
  | refl i => exact .refl i
  | symm _ ih => exact .symm ih
  | trans _ _ ih ih' => exact .trans ih ih'
  | congr first second labels lengths _ ih => exact .congr first second labels lengths ih
  | swap first second labels commutes left right _ _ did ih ih' =>
    exact .swap first second labels commutes left right ih ih' (weaker _ _ did)
  | drop lookup drops single did => exact .drop lookup drops single (weaker _ _ did)

/-- Whatever was fired, the pairs that it relates are in the least congruence. -/
theorem Cong.least {i j : Nat} (related : Cong rules fired nodes i j) : Least rules nodes i j :=
  related.mono (fun _ _ _ => True.intro)

/-! ## Soundness -/

/-- Node functions under which the rules are equations. -/
structure Validates (rules : Rules ν α) (f : ν → List β → Option β) : Prop where
  label : ∀ node other, rules.label node = rules.label other → f node = f other
  commutes : ∀ node a b, rules.commutes (rules.label node) → f node [a, b] = f node [b, a]
  drops : ∀ node a, rules.drops (rules.label node) → f node [a] = some a

/-- Congruent nodes have equal values under every such interpretation. -/
theorem Cong.value {f : ν → List β → Option β} {vals : List β} (valid : Validates rules f)
    (valuation : Valuation f nodes vals) {i j : Nat} (related : Cong rules fired nodes i j) :
    vals[i]? = vals[j]? := by
  induction related with
  | refl i => rfl
  | symm _ ih => exact ih.symm
  | trans _ _ ih ih' => exact ih.trans ih'
  | @congr i j node other first second labels lengths _ ih =>
    rw [valuation.value i node first, valuation.value j other second, evalNode, evalNode,
      valid.label node other labels]
    congr 1
    have reads : (inputs node).map (fun x => vals[x]?) = (inputs other).map (fun x => vals[x]?) := by
      apply List.ext_getElem (by simp [lengths])
      intro k inside inside'
      simp only [List.length_map] at inside inside'
      simp only [List.getElem_map]
      exact ih k _ _ (List.getElem?_eq_getElem inside) (List.getElem?_eq_getElem inside')
    cases read : gather vals (inputs node) with
    | some args =>
      symm
      rw [gather, Enumerate.mapM_eq_some_iff, ← reads]
      exact (Enumerate.mapM_eq_some_iff _ _ _).mp read
    | none =>
      cases read' : gather vals (inputs other) with
      | none => rfl
      | some args =>
        have succeeds : gather vals (inputs node) = some args := by
          rw [gather, Enumerate.mapM_eq_some_iff, reads]
          exact (Enumerate.mapM_eq_some_iff _ _ _).mp read'
        simp [succeeds] at read
  | @swap i j a b c d node other first second labels commutes left right _ _ _ ih ih' =>
    rw [valuation.value i node first, valuation.value j other second, evalNode, evalNode,
      valid.label node other labels, left, right]
    simp only [gather, List.mapM_cons, List.mapM_nil, ih, ih']
    cases vals[d]? <;> cases vals[c]? <;> simp [valid.commutes other _ _ (labels ▸ commutes)]
  | @drop i a node lookup drops single _ =>
    rw [valuation.value i node lookup, evalNode, single]
    simp only [gather, List.mapM_cons, List.mapM_nil]
    cases vals[a]? <;> simp [valid.drops node _ drops]

/-! ## The structure of a class -/

/-- A node that a fired drop, or one congruent to it, identified with its
input. -/
def Collapsed (rules : Rules ν α) (fired : Nat → Nat → Prop) (nodes : List ν) (i : Nat) : Prop :=
  ∃ node a, nodes[i]? = some node ∧ rules.drops (rules.label node) ∧ inputs node = [a] ∧
    Cong rules fired nodes i a

/-- Follow collapsed nodes to their inputs. -/
inductive RootOf (rules : Rules ν α) (fired : Nat → Nat → Prop) (nodes : List ν) :
    Nat → Nat → Prop
  | here {i : Nat} : ¬ Collapsed rules fired nodes i → RootOf rules fired nodes i i
  | onto {i a r : Nat} {node : ν} : nodes[i]? = some node → rules.drops (rules.label node) →
      inputs node = [a] → Cong rules fired nodes i a → RootOf rules fired nodes a r →
      RootOf rules fired nodes i r

/-- Same label, and inputs pairwise congruent, possibly after a swap. -/
def Alike (rules : Rules ν α) (fired : Nat → Nat → Prop) (nodes : List ν) (i j : Nat) : Prop :=
  ∃ node other, nodes[i]? = some node ∧ nodes[j]? = some other ∧
    rules.label node = rules.label other ∧
    (List.Forall₂ (Cong rules fired nodes) (inputs node) (inputs other) ∨
      rules.commutes (rules.label node) ∧ ∃ a b c d, inputs node = [a, b] ∧
        inputs other = [c, d] ∧ Cong rules fired nodes a d ∧ Cong rules fired nodes b c)

/-- Being alike goes both ways. -/
theorem Alike.symm {i j : Nat} (alike : Alike rules fired nodes i j) :
    Alike rules fired nodes j i := by
  obtain ⟨node, other, first, second, labels, pairs | ⟨commutes, a, b, c, d, left, right, ad, bc⟩⟩ :=
    alike
  · exact ⟨other, node, second, first, labels.symm,
      Or.inl (pairs.flip.imp (fun _ _ related => related.symm))⟩
  · exact ⟨other, node, second, first, labels.symm,
      Or.inr ⟨labels ▸ commutes, c, d, a, b, right, left, bc.symm, ad.symm⟩⟩

/-- A list that is related to a pair is a pair. -/
theorem forall₂_pair {R : Nat → Nat → Prop} {xs : List Nat} {a b : Nat}
    (pairs : List.Forall₂ R xs [a, b]) : ∃ x y, xs = [x, y] ∧ R x a ∧ R y b := by
  cases pairs with
  | cons first rest =>
    cases rest with
    | cons second rest =>
      cases rest
      exact ⟨_, _, rfl, first, second⟩

/-- Item by item, a transitive relation is transitive on lists. -/
theorem forall₂_trans (R : Nat → Nat → Prop) (transitive : ∀ a b c, R a b → R b c → R a c)
    {xs ys zs : List Nat} (first : List.Forall₂ R xs ys) (second : List.Forall₂ R ys zs) :
    List.Forall₂ R xs zs := by
  induction first generalizing zs with
  | nil =>
    cases second
    exact .nil
  | cons related _ ih =>
    cases second with
    | cons related' rest => exact .cons (transitive _ _ _ related related') (ih rest)

/-- Being alike is passed on. A commuted pair after a commuted pair is a straight
one. -/
theorem Alike.trans {i j k : Nat} (first : Alike rules fired nodes i j)
    (second : Alike rules fired nodes j k) : Alike rules fired nodes i k := by
  obtain ⟨node, middle, lookup, lookupMiddle, labels, left⟩ := first
  obtain ⟨same, other, lookupSame, lookupOther, labels', right⟩ := second
  obtain rfl : same = middle := Option.some.inj (lookupSame.symm.trans lookupMiddle)
  refine ⟨node, other, lookup, lookupOther, labels.trans labels', ?_⟩
  rcases left with pairs | ⟨commutes, a, b, c, d, leftInputs, middleInputs, ad, bc⟩
  · rcases right with pairs' | ⟨commutes', c, d, e, f, middleInputs, rightInputs, cf, de⟩
    · exact Or.inl (forall₂_trans (Cong rules fired nodes) (fun _ _ _ => Cong.trans) pairs pairs')
    · rw [middleInputs] at pairs
      obtain ⟨a, b, leftInputs, ac, bd⟩ := forall₂_pair pairs
      exact Or.inr ⟨labels ▸ commutes', a, b, e, f, leftInputs, rightInputs,
        ac.trans cf, bd.trans de⟩
  · rcases right with pairs' | ⟨_, c', d', e, f, middleInputs', rightInputs, cf, de⟩
    · rw [middleInputs] at pairs'
      obtain ⟨e, f, rightInputs, ec, fd⟩ :=
        forall₂_pair (pairs'.flip.imp (fun _ _ related => Cong.symm related))
      exact Or.inr ⟨commutes, a, b, e, f, leftInputs, rightInputs, ad.trans fd.symm,
        bc.trans ec.symm⟩
    · rw [middleInputs] at middleInputs'
      obtain ⟨rfl, rfl⟩ : c = c' ∧ d = d' := by simpa using middleInputs'
      rw [leftInputs, rightInputs]
      exact Or.inl (.cons (ad.trans de) (.cons (bc.trans cf) .nil))

/-- Nodes of one label over congruent inputs are alike without a rule. -/
theorem Alike.cong_of_straight {i j : Nat} {node other : ν} (first : nodes[i]? = some node)
    (second : nodes[j]? = some other) (labels : rules.label node = rules.label other)
    (pairs : List.Forall₂ (Cong rules fired nodes) (inputs node) (inputs other)) :
    Alike rules fired nodes i j :=
  ⟨node, other, first, second, labels, Or.inl pairs⟩

/-- Every node has a root, and not after it: a collapsed node reads an earlier
one. -/
theorem root_exists (topological : Topological nodes) (i : Nat) :
    ∃ r, RootOf rules fired nodes i r ∧ r ≤ i := by
  induction i using Nat.strong_induction_on with
  | _ i ih =>
    by_cases collapsed : Collapsed rules fired nodes i
    · obtain ⟨node, a, lookup, drops, single, related⟩ := collapsed
      have earlier : a < i := topological i node lookup a (by simp [single])
      obtain ⟨r, root, le⟩ := ih a earlier
      exact ⟨r, .onto lookup drops single related root, le.trans earlier.le⟩
    · exact ⟨i, .here collapsed, le_rfl⟩

/-- A node has one root, since a collapsed node has one input. -/
theorem RootOf.unique {i r s : Nat} (first : RootOf rules fired nodes i r)
    (second : RootOf rules fired nodes i s) : r = s := by
  induction first with
  | here free =>
    cases second with
    | here => rfl
    | onto lookup drops single related _ => exact absurd ⟨_, _, lookup, drops, single, related⟩ free
  | onto lookup drops single related _ ih =>
    cases second with
    | here free => exact absurd ⟨_, _, lookup, drops, single, related⟩ free
    | onto lookup' _ single' _ root' =>
      obtain rfl := Option.some.inj (lookup.symm.trans lookup')
      obtain rfl : _ = _ := List.singleton_injective (single.symm.trans single')
      exact ih root'

/-- Same node, or alike nodes. -/
def Twin (rules : Rules ν α) (fired : Nat → Nat → Prop) (nodes : List ν) (i j : Nat) : Prop :=
  i = j ∨ Alike rules fired nodes i j

/-- Being twins goes both ways. -/
theorem Twin.symm {i j : Nat} (twin : Twin rules fired nodes i j) : Twin rules fired nodes j i := by
  rcases twin with rfl | alike
  · exact Or.inl rfl
  · exact Or.inr alike.symm

/-- Being twins is passed on. -/
theorem Twin.trans {i j k : Nat} (first : Twin rules fired nodes i j)
    (second : Twin rules fired nodes j k) : Twin rules fired nodes i k := by
  rcases first with rfl | alike
  · exact second
  · rcases second with rfl | alike'
    · exact Or.inr alike
    · exact Or.inr (alike.trans alike')

/-- Two nodes with equal labels and congruent inputs collapse together. -/
theorem Collapsed.congr {i j : Nat} {node other : ν} (first : nodes[i]? = some node)
    (second : nodes[j]? = some other) (labels : rules.label node = rules.label other)
    (pairs : List.Forall₂ (Cong rules fired nodes) (inputs node) (inputs other)) {a : Nat}
    (single : inputs node = [a]) (related : Cong rules fired nodes i a) :
    ∃ b, inputs other = [b] ∧ Cong rules fired nodes a b ∧ Cong rules fired nodes j b := by
  have both : Cong rules fired nodes i j := .of_inputs first second labels pairs
  rw [single] at pairs
  cases others : inputs other with
  | nil =>
    rw [others] at pairs
    cases pairs
  | cons b rest =>
    rw [others] at pairs
    obtain ⟨ab, none⟩ := List.forall₂_cons.mp pairs
    cases none
    exact ⟨b, rfl, ab, both.symm.trans (related.trans ab)⟩

/-- Congruent nodes have twin roots. Induct on the derivation. A congruence step
either collapses on both sides, and then its inputs decide, or on neither. A swap
has two inputs and cannot collapse; a drop that fired always does. -/
theorem Cong.twin_roots (topological : Topological nodes) {i j : Nat}
    (related : Cong rules fired nodes i j) :
    ∀ r s, RootOf rules fired nodes i r → RootOf rules fired nodes j s →
      Twin rules fired nodes r s := by
  induction related with
  | refl i =>
    intro r s first second
    exact Or.inl (first.unique second)
  | symm _ ih =>
    intro r s first second
    exact (ih s r second first).symm
  | @trans i j k _ _ ih ih' =>
    intro r s first second
    obtain ⟨m, middle, _⟩ : ∃ m, RootOf rules fired nodes j m ∧ m ≤ j := root_exists topological j
    exact (ih r m first middle).trans (ih' m s middle second)
  | @congr i j node other lookup lookup' labels lengths pointwise ih =>
    intro r s first second
    have pairs : List.Forall₂ (Cong rules fired nodes) (inputs node) (inputs other) := by
      refine List.forall₂_iff_get.mpr ⟨lengths, fun k inside inside' => ?_⟩
      exact pointwise k _ _ (List.getElem?_eq_getElem inside) (List.getElem?_eq_getElem inside')
    cases first with
    | onto lookupSame drops single collapse root =>
      obtain rfl := Option.some.inj (lookup.symm.trans lookupSame)
      obtain ⟨b, single', _, collapse'⟩ :=
        Collapsed.congr lookup lookup' labels pairs single collapse
      cases second with
      | onto lookupSame' _ singleSame _ root' =>
        obtain rfl := Option.some.inj (lookup'.symm.trans lookupSame')
        obtain rfl : _ = _ := List.singleton_injective (single'.symm.trans singleSame)
        exact ih 0 _ _ (by simp [single]) (by simp [single']) r s root root'
      | here free => exact absurd ⟨_, _, lookup', labels ▸ drops, single', collapse'⟩ free
    | here free =>
      cases second with
      | here => exact Or.inr (.cong_of_straight lookup lookup' labels pairs)
      | onto lookupSame' drops single collapse _ =>
        obtain rfl := Option.some.inj (lookup'.symm.trans lookupSame')
        obtain ⟨a, single', _, collapse'⟩ := Collapsed.congr lookup' lookup labels.symm
          (pairs.flip.imp (fun _ _ related => Cong.symm related)) single collapse
        exact absurd ⟨_, _, lookup, labels ▸ drops, single', collapse'⟩ free
  | @swap i j a b c d node other lookup lookup' labels commutes left right ad bc did _ _ =>
    intro r s first second
    cases first with
    | onto lookupSame _ single _ _ =>
      obtain rfl := Option.some.inj (lookup.symm.trans lookupSame)
      simp [left] at single
    | here =>
      cases second with
      | onto lookupSame _ single _ _ =>
        obtain rfl := Option.some.inj (lookup'.symm.trans lookupSame)
        simp [right] at single
      | here =>
        exact Or.inr ⟨node, other, lookup, lookup', labels,
          Or.inr ⟨commutes, a, b, c, d, left, right, ad, bc⟩⟩
  | @drop i a node lookup drops single did =>
    intro r s first second
    have collapsed : RootOf rules fired nodes i s :=
      .onto lookup drops single (.drop lookup drops single did) second
    exact Or.inl (first.unique collapsed)

/-- Congruent nodes that did not collapse are twins. -/
theorem Cong.twin (topological : Topological nodes) {i j : Nat}
    (related : Cong rules fired nodes i j) (first : ¬ Collapsed rules fired nodes i)
    (second : ¬ Collapsed rules fired nodes j) : Twin rules fired nodes i j :=
  related.twin_roots topological i j (.here first) (.here second)

/-- The first member of a class did not collapse: its input would be earlier. -/
theorem leader_not_collapsed (topological : Topological nodes) (i : Nat) :
    ¬ Collapsed rules fired nodes (leader (Cong rules fired nodes) i) := by
  rintro ⟨node, a, lookup, _, single, related⟩
  have earlier := topological _ node lookup a (by simp [single])
  have member : Cong rules fired nodes a i :=
    related.symm.trans (leader_related cong_equivalence i)
  exact Nat.not_lt_of_ge (leader_le_of_related member) earlier

/-- A list of inputs is congruent to itself. -/
theorem cong_forall₂_refl (ids : List Nat) : List.Forall₂ (Cong rules fired nodes) ids ids :=
  List.forall₂_same.mpr (fun i _ => .refl i)

/-- Twins that are nodes are alike, since a node is alike to itself. -/
theorem Twin.alike {i j : Nat} (twin : Twin rules fired nodes i j) {node : ν}
    (lookup : nodes[i]? = some node) : Alike rules fired nodes i j := by
  rcases twin with rfl | alike
  · exact .cong_of_straight lookup lookup rfl (cong_forall₂_refl _)
  · exact alike

/-! ## Graphs that simulate each other -/

section Bisimulation

variable {ν' : Type u} [Wired ν'] {α' : Type v} {rules' : Rules ν' α'} {nodes' : List ν'}

/-- Related nodes carry corresponding labels and read pairwise related nodes. -/
structure Bisimulation (rules : Rules ν α) (rules' : Rules ν' α') (nodes : List ν)
    (nodes' : List ν') (R : Nat → Nat → Prop) : Prop where
  step : ∀ i i', R i i' → ∃ node node', nodes[i]? = some node ∧ nodes'[i']? = some node' ∧
    List.Forall₂ R (inputs node) (inputs node')
  label : ∀ i i' j j' node node' other other', R i i' → R j j' → nodes[i]? = some node →
    nodes'[i']? = some node' → nodes[j]? = some other → nodes'[j']? = some other' →
    (rules.label node = rules.label other ↔ rules'.label node' = rules'.label other')
  commutes : ∀ i i' node node', R i i' → nodes[i]? = some node → nodes'[i']? = some node' →
    (rules.commutes (rules.label node) ↔ rules'.commutes (rules'.label node'))
  drops : ∀ i i' node node', R i i' → nodes[i]? = some node → nodes'[i']? = some node' →
    (rules.drops (rules.label node) ↔ rules'.drops (rules'.label node'))

/-- A bisimulation can be read from either side. -/
theorem Bisimulation.flip {R : Nat → Nat → Prop}
    (bisimulation : Bisimulation rules rules' nodes nodes' R) :
    Bisimulation rules' rules nodes' nodes (fun i' i => R i i') where
  step i' i related := by
    obtain ⟨node, node', lookup, lookup', pairs⟩ := bisimulation.step i i' related
    exact ⟨node', node, lookup', lookup, pairs.flip⟩
  label i' i j' j node' node other' other first second lookup' lookup found' found :=
    (bisimulation.label i i' j j' node node' other other' first second lookup lookup' found
      found').symm
  commutes i' i node' node related lookup' lookup :=
    (bisimulation.commutes i i' node node' related lookup lookup').symm
  drops i' i node' node related lookup' lookup :=
    (bisimulation.drops i i' node node' related lookup lookup').symm

/-- A collapsed node hands the question to its input on both sides. -/
theorem Bisimulation.onto {R : Nat → Nat → Prop}
    (bisimulation : Bisimulation rules rules' nodes nodes' R) {i i' : Nat} (related : R i i')
    (collapsed : Collapsed rules (fun _ _ => True) nodes i) :
    ∃ a a' node, nodes[i]? = some node ∧ a ∈ inputs node ∧ R a a' ∧ Least rules nodes i a ∧
      Least rules' nodes' i' a' := by
  obtain ⟨node, a, lookup, drops, single, same⟩ := collapsed
  obtain ⟨found, node', lookupFound, lookup', pairs⟩ := bisimulation.step i i' related
  obtain rfl := Option.some.inj (lookup.symm.trans lookupFound)
  rw [single] at pairs
  cases others : inputs node' with
  | nil =>
    rw [others] at pairs
    cases pairs
  | cons a' rest =>
    rw [others] at pairs
    obtain ⟨below, none⟩ := List.forall₂_cons.mp pairs
    cases none
    have drops' := (bisimulation.drops i i' node node' related lookup lookup').mp drops
    exact ⟨a, a', node, lookup, by simp [single], below, same,
      .drop lookup' drops' others True.intro⟩

/-- Related nodes of one graph are congruent when their partners are. The
induction is on the sum of the positions, since a collapsed node is followed to an
earlier one. -/
theorem Bisimulation.least {R : Nat → Nat → Prop}
    (bisimulation : Bisimulation rules rules' nodes nodes' R) (topological : Topological nodes) :
    ∀ (total i i' j j' : Nat), i + j = total → R i i' → R j j' → Least rules nodes i j →
      Least rules' nodes' i' j' := by
  intro total
  induction total using Nat.strong_induction_on with
  | _ total ih =>
    intro i i' j j' size first second related
    by_cases collapsed : Collapsed rules (fun _ _ => True) nodes i
    · obtain ⟨a, a', node, lookup, member, below, same, same'⟩ := bisimulation.onto first collapsed
      have earlier := topological i node lookup a member
      exact same'.trans (ih (a + j) (by omega) a a' j j' rfl below second (same.symm.trans related))
    by_cases collapsed' : Collapsed rules (fun _ _ => True) nodes j
    · obtain ⟨a, a', node, lookup, member, below, same, same'⟩ := bisimulation.onto second collapsed'
      have earlier := topological j node lookup a member
      exact (ih (i + a) (by omega) i i' a a' rfl first below (related.trans same)).trans same'.symm
    -- neither side collapsed, so labels agree and the inputs decide
    obtain ⟨node, node', lookup, lookup', pairs⟩ := bisimulation.step i i' first
    obtain ⟨other, other', found, found', pairs'⟩ := bisimulation.step j j' second
    obtain ⟨same, same', lookupSame, foundSame, labels, shape⟩ :=
      (related.twin topological collapsed collapsed').alike lookup
    obtain rfl := Option.some.inj (lookup.symm.trans lookupSame)
    obtain rfl := Option.some.inj (found.symm.trans foundSame)
    have labels' := (bisimulation.label i i' j j' node node' other other' first second lookup
      lookup' found found').mp labels
    have below {x y x' y' : Nat} (readX : x ∈ inputs node) (readY : y ∈ inputs other)
        (relX : R x x') (relY : R y y') (rel : Least rules nodes x y) :
        Least rules' nodes' x' y' := by
      have earlierX := topological i node lookup x readX
      have earlierY := topological j other found y readY
      exact ih (x + y) (by omega) x x' y y' rfl relX relY rel
    rcases shape with straight | ⟨commutes, a, b, c, d, left, right, ad, bc⟩
    · refine .of_inputs lookup' found' labels' (List.forall₂_iff_get.mpr ⟨?_, ?_⟩)
      · rw [← pairs.length_eq, ← pairs'.length_eq, straight.length_eq]
      · intro k inside inside'
        obtain ⟨lengthX, relX⟩ := List.forall₂_iff_get.mp pairs
        obtain ⟨lengthY, relY⟩ := List.forall₂_iff_get.mp pairs'
        obtain ⟨_, rel⟩ := List.forall₂_iff_get.mp straight
        exact below (List.get_mem _ _) (List.get_mem _ _) (relX k (lengthX ▸ inside) inside)
          (relY k (lengthY ▸ inside') inside') (rel k (lengthX ▸ inside) (lengthY ▸ inside'))
    · have commutes' := (bisimulation.commutes i i' node node' first lookup lookup').mp commutes
      rw [left] at pairs
      rw [right] at pairs'
      obtain ⟨a', b', left', aa, bb⟩ := forall₂_pair pairs.flip
      obtain ⟨c', d', right', cc, dd⟩ := forall₂_pair pairs'.flip
      exact .swap lookup' found' labels' commutes' left' right'
        (below (by simp [left]) (by simp [right]) aa dd ad)
        (below (by simp [left]) (by simp [right]) bb cc bc) True.intro

/-- Least congruence is a matter of what nodes unfold to, so a bisimulation
preserves and reflects it. Induct on the sum of the two positions. -/
theorem Bisimulation.least_iff {R : Nat → Nat → Prop}
    (bisimulation : Bisimulation rules rules' nodes nodes' R) (topological : Topological nodes)
    (topological' : Topological nodes') {i i' j j' : Nat} (first : R i i') (second : R j j') :
    Least rules nodes i j ↔ Least rules' nodes' i' j' :=
  ⟨bisimulation.least topological _ i i' j j' rfl first second,
    bisimulation.flip.least topological' _ i' i j' j rfl first second⟩

/-- What corresponding roots reach corresponds. -/
theorem Bisimulation.reaches {R : Nat → Nat → Prop}
    (bisimulation : Bisimulation rules rules' nodes nodes' R) {roots roots' : List Nat}
    (pairs : List.Forall₂ R roots roots') {i : Nat} (reached : Reaches nodes roots i) :
    ∃ i', R i i' ∧ Reaches nodes' roots' i' := by
  induction reached with
  | root member =>
    obtain ⟨i', member', related⟩ := Enumerate.forall₂_partner pairs member
    exact ⟨i', related, .root member'⟩
  | @input i x node _ lookup member ih =>
    obtain ⟨i', related, reached'⟩ := ih
    obtain ⟨found, node', present, lookup', reads⟩ := bisimulation.step i i' related
    obtain rfl := Option.some.inj (lookup.symm.trans present)
    obtain ⟨x', member', related'⟩ := Enumerate.forall₂_partner reads member
    exact ⟨x', related', reached'.input lookup' member'⟩

/-- A node that collapsed corresponds to nodes that collapsed. -/
theorem Bisimulation.collapsed {R : Nat → Nat → Prop}
    (bisimulation : Bisimulation rules rules' nodes nodes' R) {i i' : Nat} (related : R i i')
    (collapsed : Collapsed rules (fun _ _ => True) nodes i) :
    Collapsed rules' (fun _ _ => True) nodes' i' := by
  obtain ⟨node, a, lookup, drops, single, _⟩ := collapsed
  obtain ⟨found, node', present, lookup', pairs⟩ := bisimulation.step i i' related
  obtain rfl := Option.some.inj (lookup.symm.trans present)
  rw [single] at pairs
  obtain ⟨a', rest, _, none, shape⟩ := List.forall₂_cons_left_iff.mp pairs
  obtain rfl := List.forall₂_nil_left_iff.mp none
  have drops' := (bisimulation.drops i i' node node' related lookup lookup').mp drops
  exact ⟨node', a', lookup', drops', shape, .drop lookup' drops' shape True.intro⟩

end Bisimulation

end Dag
