import GraphedCore.Stepping

/-!
# Refused steps

A step refuses a node that reads an id the map lacks, and what it consumed before
stays consumed while the work is not counted. It is all or nothing exactly when every
node of the delta reads ids that are mapped by then, or the first node does not.
The watermark and the work are equal after a run exactly when all its steps were of
this kind.
-/

namespace GraphedCore

open Dag

namespace IncrementalReducer

variable {reducer next final : IncrementalReducer} {delta : List NodeKey}

/-- Every node reads ids that are mapped when its turn comes: from earlier deltas,
or from earlier in this one. -/
def Mapped (watermark : Nat) (delta : List NodeKey) : Prop :=
  ∀ k key, delta[k]? = some key → ∀ x ∈ key.inputs, x < watermark + k

/-- The first node reads an id that is not mapped, so nothing is consumed. -/
def RefusedAtOnce (watermark : Nat) (delta : List NodeKey) : Prop :=
  ∃ key, delta[0]? = some key ∧ ∃ x ∈ key.inputs, watermark ≤ x

/-- Nothing is consumed, or all of it. These are the deltas after which map and
work agree. -/
def Whole (watermark : Nat) (delta : List NodeKey) : Prop :=
  Mapped watermark delta ∨ RefusedAtOnce watermark delta

/-- The step returns the length of the delta, by which watermark and work have
grown, or it refuses and leaves the reducer as it was. -/
def AllOrNothing (reducer : IncrementalReducer) (delta : List NodeKey) : Prop :=
  (∃ next, reducer.step delta = some (.ok delta.length, next) ∧
    next.watermark = reducer.watermark + delta.length ∧
    next.totalWork = reducer.totalWork + delta.length) ∨
  ∃ bad, reducer.step delta = some (.error bad, reducer)

/-- Step through deltas, refused or not. A panic ends it. -/
def feed (deltas : List (List NodeKey)) (reducer : IncrementalReducer) :
    Option IncrementalReducer :=
  deltas.foldlM (fun reducer delta => (reducer.step delta).map Prod.snd) reducer

/-! ## One step -/

/-- Ids are translated up to the first one that the map lacks. -/
theorem translate_cases (map ids : List NodeId) :
    ((∀ x ∈ ids, x < map.length) ∧
      ∃ found, translate map ids = .ok found ∧ found.length = ids.length) ∨
    ∃ bad, translate map ids = .error bad ∧ bad.id ∈ ids ∧ map.length ≤ bad.id := by
  induction ids with
  | nil => exact Or.inl ⟨nofun, [], rfl, rfl⟩
  | cons i rest ih =>
    cases lookup : map[i]? with
    | none =>
      refine Or.inr ⟨⟨i⟩, ?_, List.mem_cons_self, List.getElem?_eq_none_iff.mp lookup⟩
      rw [translate, List.mapM_cons, lookup]
      rfl
    | some canon =>
      rcases ih with ⟨inside, found, later, length⟩ | ⟨bad, later, member, beyond⟩
      · refine Or.inl ⟨List.forall_mem_cons.mpr ⟨lookup_bound lookup, inside⟩, canon :: found, ?_,
          congrArg Nat.succ length⟩
        rw [translate] at later ⊢
        rw [List.mapM_cons, lookup, later]
        rfl
      · refine Or.inr ⟨bad, ?_, List.mem_cons_of_mem i member, beyond⟩
        rw [translate] at later ⊢
        rw [List.mapM_cons, lookup, later]
        rfl

/-- A key is canonicalized unless it is an identity op without inputs. -/
theorem canonicalize_total (reducer : IncrementalReducer) {key : NodeKey}
    (fed : IdentityOperator key → key.inputs ≠ []) :
    ∃ answer, reducer.canonicalize key = some answer := by
  by_cases identity : IdentityOperator key
  · obtain ⟨first, rest, inputs⟩ := List.exists_cons_of_ne_nil (fed identity)
    exact ⟨(first, reducer), by rw [canonicalize_first reducer identity, inputs]; rfl⟩
  · cases key with
    | op name params inputs =>
      have other : (NodeKey.op name params inputs).token ∉ identityTokens := fun carried =>
        identity ⟨name, params, inputs, rfl, carried⟩
      simp only [canonicalize, List.contains_iff_mem, other, if_false]
      split
      · split
        · split <;> exact ⟨_, rfl⟩
        · exact ⟨_, rfl⟩
      · exact ⟨_, rfl⟩
    | _ => exact ⟨_, rfl⟩

/-- A delta whose identity ops all have inputs does not panic. -/
theorem consume_total {delta : List NodeKey} (fed : FedIdentities delta)
    (reducer : IncrementalReducer) : ∃ answer, consume delta reducer = some answer := by
  induction delta generalizing reducer with
  | nil => exact ⟨_, rfl⟩
  | cons key rest ih =>
    rw [consume]
    rcases translate_cases reducer.map key.inputs with
      ⟨_, found, translated, length⟩ | ⟨bad, refused, _⟩
    · have fed' : IdentityOperator (key.withInputs found) →
          (key.withInputs found).inputs ≠ [] := by
        intro identity
        have carried := (key.identityOperator_withInputs found).mp identity
        have some_input := List.length_pos_iff.mpr (fed key List.mem_cons_self carried)
        rw [NodeKey.identity_inputs carried, ← List.length_pos_iff, length]
        exact some_input
      obtain ⟨⟨id, next⟩, canonical⟩ := reducer.canonicalize_total fed'
      simp only [translated, canonical, Option.bind_eq_bind, Option.bind_some]
      exact ih (fun other member => fed other (List.mem_cons_of_mem key member)) _
    · exact ⟨_, by rw [refused]⟩

/-- Consuming a delta ends before the first node that reads an id not mapped by
then, and has consumed what comes before it. -/
theorem consume_until {result : Except BadNodeId Unit}
    (done : consume delta reducer = some (result, final)) :
    ∃ k ≤ delta.length, final.watermark = reducer.watermark + k ∧
      (∀ j key, j < k → delta[j]? = some key → ∀ x ∈ key.inputs, x < reducer.watermark + j) ∧
      (k = 0 → final = reducer) ∧
      (result = .ok () ∧ k = delta.length ∨ ∃ bad key, result = .error bad ∧
        delta[k]? = some key ∧ bad.id ∈ key.inputs ∧ reducer.watermark + k ≤ bad.id) := by
  induction delta generalizing reducer with
  | nil =>
    obtain ⟨rfl, rfl⟩ := Prod.mk.inj (Option.some.inj done)
    exact ⟨0, le_rfl, rfl, fun j key impossible => absurd impossible (Nat.not_lt_zero j),
      fun _ => rfl, Or.inl ⟨rfl, rfl⟩⟩
  | cons key rest ih =>
    rw [consume] at done
    rcases translate_cases reducer.map key.inputs with
      ⟨inside, found, translated, _⟩ | ⟨bad, refused, member, beyond⟩
    · simp only [translated, Option.bind_eq_bind, Option.bind_eq_some_iff] at done
      obtain ⟨⟨id, next⟩, canonical, later⟩ := done
      obtain ⟨k, le, watermark, mapped, _, ended⟩ := ih later
      have grown : IncrementalReducer.watermark { next with map := next.map ++ [id] } =
          reducer.watermark + 1 := by
        rw [IncrementalReducer.watermark, List.length_append, canonicalize_map canonical]
        rfl
      simp only [grown] at watermark mapped ended
      refine ⟨k + 1, Nat.succ_le_succ le, by omega, fun j other before lookup x read => ?_,
        fun none => absurd none (Nat.succ_ne_zero k), ?_⟩
      · cases j with
        | zero =>
          obtain rfl := Option.some.inj lookup
          exact inside x read
        | succ j =>
          have bound := mapped j other (Nat.lt_of_succ_lt_succ before) lookup x read
          rwa [Nat.add_assoc, Nat.add_comm 1 j] at bound
      · rcases ended with ⟨ok, all⟩ | ⟨bad, other, error, lookup, member, beyond⟩
        · exact Or.inl ⟨ok, congrArg Nat.succ all⟩
        · exact Or.inr ⟨bad, other, error, lookup, member, by omega⟩
    · rw [refused] at done
      obtain ⟨rfl, rfl⟩ := Prod.mk.inj (Option.some.inj done)
      exact ⟨0, Nat.zero_le _, rfl, fun j other impossible => absurd impossible (Nat.not_lt_zero j),
        fun _ => rfl, Or.inr ⟨bad, key, rfl, rfl, member, beyond⟩⟩

/-- A step ends as consuming does. The work counts a delta that was consumed. -/
theorem step_until {result : Except BadNodeId Nat}
    (done : reducer.step delta = some (result, next)) :
    ∃ k ≤ delta.length, next.watermark = reducer.watermark + k ∧
      (∀ j key, j < k → delta[j]? = some key → ∀ x ∈ key.inputs, x < reducer.watermark + j) ∧
      (result = .ok delta.length ∧ k = delta.length ∧
          next.totalWork = reducer.totalWork + delta.length ∨
        ∃ bad key, result = .error bad ∧ (k = 0 → next = reducer) ∧
          next.totalWork = reducer.totalWork ∧ delta[k]? = some key ∧ bad.id ∈ key.inputs ∧
          reducer.watermark + k ≤ bad.id) := by
  obtain ⟨⟨outcome, final⟩, consumed, done⟩ := Option.bind_eq_some_iff.mp done
  obtain ⟨k, le, watermark, mapped, start, ended⟩ := consume_until consumed
  have work := consume_work consumed
  rcases ended with ⟨rfl, all⟩ | ⟨bad, key, rfl, lookup, member, beyond⟩
  · obtain ⟨rfl, rfl⟩ := Prod.mk.inj (Option.some.inj done)
    exact ⟨k, le, watermark, mapped, Or.inl ⟨rfl, all, congrArg (· + delta.length) work⟩⟩
  · obtain ⟨rfl, rfl⟩ := Prod.mk.inj (Option.some.inj done)
    exact ⟨k, le, watermark, mapped,
      Or.inr ⟨bad, key, rfl, start, work, lookup, member, beyond⟩⟩

/-- Nor does a step over it. -/
theorem step_total (fed : FedIdentities delta) (reducer : IncrementalReducer) :
    ∃ answer, reducer.step delta = some answer := by
  obtain ⟨⟨outcome, final⟩, consumed⟩ := consume_total fed reducer
  cases outcome <;> exact ⟨_, by rw [step, consumed]; rfl⟩

/-- Where the refused node stands tells whether the delta is whole. -/
theorem whole_iff_of_refused {watermark k x : Nat} {key : NodeKey}
    (mapped : ∀ j key, j < k → delta[j]? = some key → ∀ x ∈ key.inputs, x < watermark + j)
    (lookup : delta[k]? = some key) (member : x ∈ key.inputs) (beyond : watermark + k ≤ x) :
    Whole watermark delta ↔ k = 0 := by
  constructor
  · rintro (all | ⟨first, head, y, read, unmapped⟩)
    · exact absurd (all k key lookup x member) (Nat.not_lt_of_ge beyond)
    · by_contra later
      exact absurd (mapped 0 first (Nat.pos_of_ne_zero later) head y read)
        (Nat.not_lt_of_ge unmapped)
  · rintro rfl
    exact Or.inr ⟨key, lookup, x, member, beyond⟩

/-- On a fed delta a step is all or nothing exactly when the delta is whole. -/
theorem allOrNothing_iff (fed : FedIdentities delta) :
    AllOrNothing reducer delta ↔ Whole reducer.watermark delta := by
  obtain ⟨⟨result, next⟩, done⟩ := step_total fed reducer
  obtain ⟨k, _, watermark, mapped, ⟨rfl, all, work⟩ |
    ⟨bad, key, rfl, start, work, lookup, member, beyond⟩⟩ := step_until done
  · have whole : Whole reducer.watermark delta := by
      refine Or.inl (fun j key lookup => mapped j key ?_ lookup)
      rw [all]
      exact lookup_bound lookup
    exact iff_of_true (Or.inl ⟨next, done, all ▸ watermark, work⟩) whole
  · rw [whole_iff_of_refused mapped lookup member beyond]
    constructor
    · rintro (⟨other, again, _⟩ | ⟨other, again⟩)
      · rw [done] at again
        cases again
      · rw [done, Option.some.injEq, Prod.mk.injEq] at again
        rw [again.2] at watermark
        omega
    · intro first
      exact Or.inr ⟨bad, by rw [done, start first]⟩

/-- The work falls behind the watermark by what a refused step consumed. -/
theorem step_balance {result : Except BadNodeId Nat}
    (done : reducer.step delta = some (result, next)) :
    ∃ lost, next.watermark + reducer.totalWork = reducer.watermark + next.totalWork + lost ∧
      (lost = 0 ↔ Whole reducer.watermark delta) := by
  obtain ⟨k, _, watermark, mapped, ⟨_, all, work⟩ |
    ⟨bad, key, _, _, work, lookup, member, beyond⟩⟩ := step_until done
  · refine ⟨0, by omega, iff_of_true rfl (Or.inl (fun j key lookup => mapped j key ?_ lookup))⟩
    rw [all]
    exact lookup_bound lookup
  · exact ⟨k, by omega, (whole_iff_of_refused mapped lookup member beyond).symm⟩

/-! ## Runs -/

/-- Feeding one delta more is feeding it to the reducer that the others lead
to. -/
theorem feed_snoc {deltas : List (List NodeKey)} :
    feed (deltas ++ [delta]) reducer = some final ↔ ∃ middle result,
      feed deltas reducer = some middle ∧ middle.step delta = some (result, final) := by
  have last (middle : IncrementalReducer) :
      [delta].foldlM (fun reducer delta => (reducer.step delta).map Prod.snd) middle =
        (middle.step delta).map Prod.snd := by
    simp
  rw [feed, List.foldlM_append, Option.bind_eq_bind, Option.bind_eq_some_iff]
  refine exists_congr (fun middle => ?_)
  rw [last, Option.map_eq_some_iff]
  constructor
  · rintro ⟨before, ⟨result, _⟩, done, rfl⟩
    exact ⟨result, before, done⟩
  · rintro ⟨result, before, done⟩
    exact ⟨before, _, done, rfl⟩

/-- Every step of the run had a whole delta, seen from the reducer at that
moment. -/
def WholeRun (deltas : List (List NodeKey)) : Prop :=
  ∀ before delta, before ++ [delta] <+: deltas → ∀ middle, feed before new = some middle →
    Whole middle.watermark delta

/-- A run is whole when all steps before the last one are and the last one is. -/
theorem wholeRun_snoc {deltas : List (List NodeKey)} {middle : IncrementalReducer}
    (reached : feed deltas new = some middle) :
    WholeRun (deltas ++ [delta]) ↔ WholeRun deltas ∧ Whole middle.watermark delta := by
  constructor
  · intro run
    refine ⟨fun before other within => ?_, run deltas delta (List.prefix_refl _) middle reached⟩
    exact run before other (within.trans (List.prefix_append _ _))
  · rintro ⟨run, whole⟩ before other within state reached'
    rcases List.prefix_concat_iff.mp within with last | earlier
    · obtain ⟨rfl, rfl⟩ := List.append_singleton_inj.mp last
      obtain rfl := Option.some.inj (reached.symm.trans reached')
      exact whole
    · exact run before other earlier state reached'

/-- The watermark is ahead of the work by what refused steps have consumed, and so
not at all exactly when every step was whole. -/
theorem feed_balance {deltas : List (List NodeKey)} (reached : feed deltas new = some reducer) :
    ∃ lost, reducer.watermark = reducer.totalWork + lost ∧ (lost = 0 ↔ WholeRun deltas) := by
  induction deltas using List.reverseRecOn generalizing reducer with
  | nil =>
    obtain rfl := Option.some.inj reached
    refine ⟨0, rfl, iff_of_true rfl (fun before delta within => ?_)⟩
    exact absurd (List.prefix_nil.mp within) (List.append_ne_nil_of_right_ne_nil _ nofun)
  | append_singleton deltas delta ih =>
    obtain ⟨middle, result, before, done⟩ := feed_snoc.mp reached
    obtain ⟨lost, balance, whole⟩ := ih before
    obtain ⟨more, grown, kept⟩ := step_balance done
    refine ⟨lost + more, by omega, ?_⟩
    rw [Nat.add_eq_zero_iff, whole, kept, wholeRun_snoc before]

/-- In every state that steps reach from a fresh reducer, whether they were
refused or not, the next step is all or nothing exactly when its delta is whole,
and the watermark is the work exactly when every delta so far was. -/
theorem steps_all_or_nothing_iff {deltas : List (List NodeKey)}
    (reached : feed deltas new = some reducer) :
    (∀ delta, FedIdentities delta →
      (AllOrNothing reducer delta ↔ Whole reducer.watermark delta)) ∧
    (reducer.watermark = reducer.totalWork ↔ WholeRun deltas) := by
  obtain ⟨lost, balance, whole⟩ := feed_balance reached
  refine ⟨fun delta fed => allOrNothing_iff fed, ?_⟩
  rw [← whole, balance]
  omega

/-- A source, then an op on an id that was never recorded. The source is consumed
before the refusal. -/
def refusedDelta : List NodeKey := [.source "x" (.new []), .op "pt" (.new []) [7]]

/-- A step that succeeds, and one that refuses its second node. -/
theorem steps_all_or_nothing_iff_of_refused :
    ∃ reducer, feed [[.source "y" (.new [])], refusedDelta] new = some reducer ∧
      (reducer.watermark = reducer.totalWork ↔
        WholeRun [[.source "y" (.new [])], refusedDelta]) := by
  have ran : (feed [[.source "y" (.new [])], refusedDelta] new).isSome := by decide +kernel
  obtain ⟨reducer, reached⟩ := Option.isSome_iff_exists.mp ran
  exact ⟨reducer, reached, (steps_all_or_nothing_iff reached).2⟩

/-- The step refuses the op, and the source stays in the arena, the table and the
map without having been counted. -/
theorem step_keeps_part :
    FedIdentities refusedDelta ∧ ¬ AllOrNothing new refusedDelta ∧
      ∃ next, new.step refusedDelta = some (.error ⟨7⟩, next) ∧
        feed [refusedDelta] new = some next ∧ next.canonicalCount = 1 ∧
        next.canonTable.length = 1 ∧ next.watermark = 1 ∧ next.totalWork = 0 := by
  have fed : FedIdentities refusedDelta := by
    intro key member identity
    rcases List.mem_pair.mp member with rfl | rfl
    · obtain ⟨_, _, _, impossible, _⟩ := identity
      cases impossible
    · exact List.cons_ne_nil _ _
  have stepped : (new : IncrementalReducer).step refusedDelta = some (.error ⟨7⟩,
      ⟨[.source "x" (.new [])], [(.source "x" (.new []), 0)], [0], 0⟩) := by decide +kernel
  refine ⟨fed, ?_, _, stepped, by rw [feed, List.foldlM_cons, stepped]; rfl, rfl, rfl, rfl, rfl⟩
  rintro (⟨next, done, _⟩ | ⟨bad, done⟩)
  · rw [stepped] at done
    cases done
  · rw [stepped] at done
    cases done

end IncrementalReducer

end GraphedCore
