import Mathlib.Logic.Relation
import Mathlib.Order.Bounds.Basic
import GraphedCore.UnionFind

/-!
# Runs of the union-find

A run is a sequence of unions and finds over nodes below a bound. Its unions generate an
equivalence, and at every moment the parents represent it: also between two turns of the
compressing loop, which replaces a link to an earlier member of a class by a link to the
first. So a root depends on the pairs that were unioned, and not on their order.
-/

namespace GraphedCore

open Dag

namespace Dsu

/-- A call of a union-find forest, as fusion makes them. -/
inductive Call where
  | union (a b : Nat)
  | find (x : Nat)

/-- The elements of a call are in range. Fusion calls with positions of nodes. -/
def Call.Within (n : Nat) : Call → Prop
  | .union a b => a < n ∧ b < n
  | .find x => x < n

/-- The pair that a call joins. A lookup joins none. -/
def Call.pair? : Call → Option (Nat × Nat)
  | .union a b => some (a, b)
  | .find _ => none

/-- The pairs that are unioned, in their order. -/
def unioned (calls : List Call) : List (Nat × Nat) := calls.filterMap Call.pair?

/-- A call on the forest. Lookups count too, since they compress. -/
def perform (dsu : Dsu) : Call → Option Dsu
  | .union a b => dsu.union a b
  | .find x => (dsu.find x).map Prod.snd

/-- The calls one after another, from any forest. -/
def run (dsu : Dsu) (calls : List Call) : Option Dsu := calls.foldlM perform dsu

/-- No parent comes after its child. The forest never has a cycle but at its
roots. -/
def Ordered (parent : List Nat) : Prop := ∀ (x p : Nat), parent[x]? = some p → p ≤ x

/-- One turn of the second loop of `find`, from the parents and the walked node to
the next ones. -/
inductive Compressing (r : Nat) : List Nat × Nat → List Nat × Nat → Prop
  | turn {parent : List Nat} {c n : Nat} (link : parent[c]? = some n) (inner : n ≠ c) :
      Compressing r (parent, c) (parent.set c r, n)

/-! ## The generated equivalence -/

/-- The least equivalence that relates the given pairs, whatever their order. -/
def Connected (pairs : List (Nat × Nat)) : Nat → Nat → Prop :=
  Relation.EqvGen (fun a b => (a, b) ∈ pairs)

/-- Being connected by pairs is an equivalence. -/
theorem connected_equivalence (pairs : List (Nat × Nat)) : Equivalence (Connected pairs) :=
  Relation.EqvGen.is_equivalence _

/-- It lies in every equivalence that relates the pairs. -/
theorem connected_le {pairs : List (Nat × Nat)} {r : Nat → Nat → Prop}
    (equivalence : Equivalence r) (related : ∀ a b, (a, b) ∈ pairs → r a b) {i j : Nat}
    (connected : Connected pairs i j) : r i j :=
  equivalence.eqvGen_iff.mp (Relation.EqvGen.mono related i j connected)

/-- More pairs connect no less. -/
theorem connected_mono {pairs more : List (Nat × Nat)} (within : ∀ pair ∈ pairs, pair ∈ more)
    {i j : Nat} (connected : Connected pairs i j) : Connected more i j :=
  Relation.EqvGen.mono (fun a b => within (a, b)) i j connected

/-- Without pairs an element is connected to itself only. -/
theorem connected_nil : Connected [] = Eq := by
  funext i j
  refine propext ⟨connected_le eq_equivalence ?_, ?_⟩
  · exact fun a b member => absurd member List.not_mem_nil
  · rintro rfl
    exact .refl i

/-- One more pair joins two classes. -/
theorem connected_snoc (pairs : List (Nat × Nat)) (a b : Nat) :
    Connected (pairs ++ [(a, b)]) = Joined (Connected pairs) a b := by
  have old := connected_equivalence pairs
  have new := connected_equivalence (pairs ++ [(a, b)])
  have kept {i j : Nat} (connected : Connected pairs i j) : Connected (pairs ++ [(a, b)]) i j :=
    connected_mono (fun _ => List.mem_append_left _) connected
  have last : Connected (pairs ++ [(a, b)]) a b :=
    .rel _ _ (List.mem_append_right _ (List.mem_singleton_self _))
  funext i j
  refine propext ⟨connected_le (joined_equivalence old a b) ?_, ?_⟩
  · intro x y member
    rcases List.mem_append.mp member with earlier | same
    · exact Or.inl (.rel x y earlier)
    · cases List.mem_singleton.mp same
      exact Or.inr (Or.inl ⟨old.refl a, old.refl b⟩)
  · rintro (same | ⟨left, right⟩ | ⟨left, right⟩)
    · exact kept same
    · exact new.trans (kept left) (new.trans last (kept right))
    · exact new.trans (kept left) (new.trans (new.symm last) (kept right))

/-! ## What a represented partition gives -/

section Represented

variable {r : Nat → Nat → Prop} {n : Nat} {parent : List Nat}

/-- In a forest that represents classes parents come first. -/
theorem Represents.ordered (represents : Represents r n parent) : Ordered parent := by
  intro x p found
  have inside : x < n := represents.length ▸ lookup_bound found
  obtain ⟨p', found', le, _⟩ := represents.parents x inside
  obtain rfl := Option.some.inj (found.symm.trans found')
  exact le

/-- The root of an element is the least of its class. -/
theorem Represents.root_eq (represents : Represents r n parent) {x : Nat} (inside : x < n) :
    Dsu.root parent n x = some (leader r x) :=
  represents.root n x inside inside.le

/-- The walked node stays in the class, and the partition is kept. -/
theorem Represents.compressing (represents : Represents r n parent) {c top : Nat}
    (inside : c < n) (leads : leader r c = top) {state : List Nat × Nat}
    (walked : Relation.ReflTransGen (Compressing top) (parent, c) state) :
    Represents r n state.1 ∧ state.2 < n ∧ leader r state.2 = top := by
  induction walked with
  | refl => exact ⟨represents, inside, leads⟩
  | tail _ turn ih =>
    cases turn with
    | turn link inner =>
      obtain ⟨kept, inside', leads'⟩ := ih
      obtain ⟨p, found, le, related, _⟩ := kept.parents _ inside'
      obtain rfl := Option.some.inj (link.symm.trans found)
      refine ⟨leads' ▸ kept.redirect _, le.trans_lt inside', ?_⟩
      exact (leader_of_related kept.equivalence related).trans leads'

end Represented

/-- The loop ends at a root, or takes a turn. -/
theorem compress_cases {r fuel : Nat} {parent parent' : List Nat} {c : Nat}
    (done : compress r fuel parent c = some parent') :
    ∃ next, parent[c]? = some next ∧ (next = c ∧ parent' = parent ∨
      next ≠ c ∧ ∃ less, fuel = less + 1 ∧ compress r less (parent.set c r) next = some parent') := by
  rw [compress.eq_def] at done
  cases link : parent[c]? with
  | none => simp [link] at done
  | some next =>
    refine ⟨next, rfl, ?_⟩
    by_cases same : next = c
    · simp only [link, same, if_true, Option.some.injEq] at done
      exact Or.inl ⟨same, done.symm⟩
    · cases fuel with
      | zero => simp [link, same] at done
      | succ less =>
        simp only [link, same, if_false] at done
        exact Or.inr ⟨same, less, rfl, done⟩

/-- The loop takes turns until it stands at a root. -/
theorem compress_turns {r fuel : Nat} {parent parent' : List Nat} {c : Nat}
    (done : compress r fuel parent c = some parent') :
    ∃ last, Relation.ReflTransGen (Compressing r) (parent, c) (parent', last) ∧
      parent'[last]? = some last := by
  induction fuel generalizing parent c with
  | zero =>
    obtain ⟨next, link, ⟨rfl, rfl⟩ | ⟨_, less, impossible, _⟩⟩ := compress_cases done
    · exact ⟨next, .refl, link⟩
    · cases impossible
  | succ fuel ih =>
    obtain ⟨next, link, ⟨rfl, rfl⟩ | ⟨inner, less, same, rest⟩⟩ := compress_cases done
    · exact ⟨next, .refl, link⟩
    · obtain rfl := Nat.succ.inj same
      obtain ⟨last, walked, stands⟩ := ih rest
      exact ⟨last, .head (.turn link inner) walked, stands⟩

/-! ## Runs -/

/-- One call more after a run of them. -/
theorem run_snoc (dsu : Dsu) (calls : List Call) (call : Call) :
    run dsu (calls ++ [call]) = (run dsu calls).bind (fun dsu => perform dsu call) := by
  rw [run, List.foldlM_append]
  cases ran : run dsu calls with
  | none => rw [run] at ran; simp [ran]
  | some dsu' => rw [run] at ran; simp [ran]

/-- A call keeps that the forest represents what was joined so far, with the new
pair when there is one. A find changes parents and no class. -/
theorem Represents.perform {n : Nat} {dsu : Dsu} {pairs : List (Nat × Nat)}
    (represents : Represents (Connected pairs) n dsu.parent) {call : Call}
    (within : call.Within n) :
    ∃ dsu', dsu.perform call = some dsu' ∧
      Represents (Connected (pairs ++ call.pair?.toList)) n dsu'.parent := by
  cases call with
  | union a b =>
    obtain ⟨dsu', joins, kept⟩ := represents.union within.1 within.2
    rw [← connected_snoc] at kept
    exact ⟨dsu', joins, kept⟩
  | find x =>
    obtain ⟨dsu', found, kept⟩ := represents.find within
    refine ⟨dsu', by rw [Dsu.perform, found]; rfl, ?_⟩
    rwa [Call.pair?, Option.toList_none, List.append_nil]

/-- No run fails, and its parents represent the equivalence of its unions. -/
theorem run_represents {n : Nat} {calls : List Call} (within : ∀ call ∈ calls, call.Within n) :
    ∃ dsu, run (new n) calls = some dsu ∧
      Represents (Connected (unioned calls)) n dsu.parent := by
  induction calls using List.reverseRecOn with
  | nil => exact ⟨new n, rfl, connected_nil ▸ represents_new n⟩
  | append_singleton calls call ih =>
    obtain ⟨dsu, ran, represents⟩ :=
      ih (fun call member => within call (List.mem_append_left _ member))
    obtain ⟨dsu', did, kept⟩ := represents.perform
      (within call (List.mem_append_right _ (List.mem_singleton_self call)))
    refine ⟨dsu', by rw [run_snoc, ran, Option.bind_some, did], ?_⟩
    have pairs : unioned (calls ++ [call]) = unioned calls ++ call.pair?.toList := by
      rw [unioned, List.filterMap_append]
      cases call <;> rfl
    rwa [pairs]

/-- In every state of a run, parents come first, `find` answers the least member
of the class that the unions generate, and the turns of its second loop keep all
roots. Another order of the same unions gives the same roots. -/
theorem run_canonical (n : Nat) (calls : List Call) (within : ∀ call ∈ calls, call.Within n) :
    ∃ dsu, run (new n) calls = some dsu ∧ dsu.parent.length = n ∧ Ordered dsu.parent ∧
      (∀ x < n, ∃ r dsu', dsu.find x = some (r, dsu') ∧
        IsLeast {y | Connected (unioned calls) x y} r ∧
        (∃ last, Relation.ReflTransGen (Compressing r) (dsu.parent, x) (dsu'.parent, last) ∧
          dsu'.parent[last]? = some last) ∧
        ∀ parent c, Relation.ReflTransGen (Compressing r) (dsu.parent, x) (parent, c) →
          Ordered parent ∧ ∀ y < n, root parent n y = root dsu.parent n y) ∧
      ∀ calls', (∀ call ∈ calls', call.Within n) → (unioned calls').Perm (unioned calls) →
        ∃ dsu', run (new n) calls' = some dsu' ∧
          ∀ x < n, (dsu'.find x).map Prod.fst = (dsu.find x).map Prod.fst := by
  obtain ⟨dsu, ran, represents⟩ := run_represents within
  have equivalence := represents.equivalence
  refine ⟨dsu, ran, represents.length, represents.ordered, ?_, ?_⟩
  · intro x inside
    obtain ⟨dsu', found, kept⟩ := represents.find inside
    refine ⟨leader _ x, dsu', found, ⟨?_, ?_⟩, ?_, ?_⟩
    · exact equivalence.symm (leader_related equivalence x)
    · exact fun y connected => leader_le_of_related (equivalence.symm connected)
    · obtain ⟨r, walked, rest⟩ := Option.bind_eq_some_iff.mp found
      obtain ⟨parent, compressed, same⟩ := Option.bind_eq_some_iff.mp rest
      cases same
      exact compress_turns compressed
    · intro parent c walked
      obtain ⟨still, _⟩ := represents.compressing inside rfl walked
      refine ⟨still.ordered, fun y inside' => ?_⟩
      rw [still.root_eq inside', represents.root_eq inside']
  · intro calls' within' same
    obtain ⟨dsu', ran', represents'⟩ := run_represents within'
    refine ⟨dsu', ran', fun x inside => ?_⟩
    obtain ⟨_, found, _⟩ := represents.find inside
    obtain ⟨_, found', _⟩ := represents'.find inside
    have classes : Connected (unioned calls') = Connected (unioned calls) := by
      funext i j
      exact propext ⟨connected_mono fun _ => same.mem_iff.mp,
        connected_mono fun _ => same.mem_iff.mpr⟩
    rw [found, found', classes]
    rfl

/-- A chain of unions, and a find in the middle. -/
theorem run_canonical_of_chain :
    ∃ dsu, run (new 4) [.union 2 3, .find 3, .union 1 2] = some dsu ∧
      ∃ r dsu', dsu.find 3 = some (r, dsu') ∧
        IsLeast {y | Connected (unioned [.union 2 3, .find 3, .union 1 2]) 3 y} r := by
  have within : ∀ call ∈ [Call.union 2 3, .find 3, .union 1 2], call.Within 4 := by
    simp [Call.Within]
  obtain ⟨dsu, ran, _, _, finds, _⟩ :=
    run_canonical 4 [.union 2 3, .find 3, .union 1 2] within
  obtain ⟨r, dsu', found, least, _⟩ := finds 3 (by decide)
  exact ⟨dsu, ran, r, dsu', found, least⟩

end Dsu

end GraphedCore
