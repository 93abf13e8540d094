import GraphedCore.Operands

/-!
# Concurrent stepping

Threads record into one store while others call `step` and `finalize` on one reducer
that is fed that store. A call on the reducer holds the reducer's lock from before it
reads the watermark until it returns; under it, the snapshot takes the store's lock.
Between any two of these moments other threads may append to the store, and a
finalize call validates its outputs before it has the reducer.

Whatever the interleaving, the reducer is the one that a single step over the
consumed part of the arena gives: no node is skipped, or consumed twice, or read
before its inputs were mapped.
-/

namespace GraphedCore

open Dag Wired

/-! ## The threads -/

namespace Shared

/-- A finalize call whose outputs were validated: `checked` nodes were there then.
The store may grow before it goes on. -/
structure Finalizing where
  outputs : List NodeId
  mode : FusionMode
  checked : Nat

/-- How far a thread is in a call on the reducer. A call is a step, or it is a
finalize call, which steps first. -/
inductive Phase where
  | idle
  | checked (call : Finalizing)
  | holding (call : Option Finalizing) (watermark : Nat)
  | sliced (call : Option Finalizing) (delta : List NodeKey)
  | stepped (call : Finalizing)

/-- What calls on the reducer came to: the answer of a step, the nodes a finalize
call consumed, its answer with the node count it checked against, or a panic. -/
inductive Answer where
  | stepped (result : Except BadNodeId Nat)
  | consumed (count : Nat)
  | finalized (checked : Nat) (result : Except BadNodeId (GraphStore × ReductionReport))
  | panicked

/-- The nodes that steps returned and finalize calls consumed, over all calls. -/
def Answer.total : List Answer → Nat
  | [] => 0
  | .stepped (.ok count) :: rest => count + total rest
  | .consumed count :: rest => count + total rest
  | _ :: rest => total rest

/-- The moments that interleave. A call is cut where it lets go of one lock and
takes another. -/
inductive Moment (τ : Type) where
  | record (call : Call)
  | check (thread : τ) (outputs : Option (List NodeId)) (mode : FusionMode)
  | lock (thread : τ)
  | snapshot (thread : τ)
  | step (thread : τ)
  | finalize (thread : τ) (find : EngineGraph → Nat → Nat)

end Shared

/-- What the threads share, with the phase of each thread and the answers so far.
A panic under the reducer's lock poisons it; the reducer is `none` then. -/
structure Shared (τ : Type) where
  store : GraphStore
  reducer : Option IncrementalReducer
  holder : Option τ
  phase : τ → Shared.Phase
  answers : List Shared.Answer

namespace Shared

variable {τ : Type} [DecidableEq τ]

omit [DecidableEq τ] in
/-- An empty store and a fresh reducer, and no call under way. -/
def start : Shared τ := ⟨.new, some .new, none, fun _ => .idle, []⟩

/-- Move one thread to the next part of its call. -/
def move (shared : Shared τ) (thread : τ) (phase : Phase) : Shared τ :=
  { shared with phase := Function.update shared.phase thread phase }

/-- A call returns, or raises, and gives the reducer back for the next one. -/
def release (shared : Shared τ) (thread : τ) (reducer : IncrementalReducer) (answer : Answer) :
    Shared τ :=
  { shared.move thread .idle with
    reducer := some reducer
    holder := none
    answers := answer :: shared.answers }

/-- A call panics while it holds the reducer, which nobody gets from then on. -/
def poison (shared : Shared τ) (thread : τ) : Shared τ :=
  { shared.move thread .idle with
    reducer := none
    holder := none
    answers := .panicked :: shared.answers }

/-- The first part of `finalize`: explicit outputs are compared with the node
count, and without them the marks are read. -/
def check (shared : Shared τ) (thread : τ) (outputs : Option (List NodeId)) (mode : FusionMode) :
    Shared τ :=
  match outputs with
  | none => shared.move thread (.checked ⟨shared.store.outputs, mode, shared.store.nodeCount⟩)
  | some outs =>
    match outs.find? (fun o => decide (shared.store.nodeCount ≤ o)) with
    | some bad =>
      { shared with answers := .finalized shared.store.nodeCount (.error ⟨bad⟩) :: shared.answers }
    | none => shared.move thread (.checked ⟨outs, mode, shared.store.nodeCount⟩)

/-- Take the reducer and read its watermark. A poisoned lock is a panic. -/
def lock (shared : Shared τ) (thread : τ) (call : Option Finalizing) : Shared τ :=
  match shared.reducer with
  | none => shared.poison thread
  | some reducer =>
    { shared.move thread (.holding call reducer.watermark) with holder := some thread }

/-- Step over the snapshot. A step call returns; a finalize call goes on with the
same reducer. -/
def step (shared : Shared τ) (thread : τ) (reducer : IncrementalReducer)
    (call : Option Finalizing) (delta : List NodeKey) : Shared τ :=
  match reducer.step delta, call with
  | none, _ => shared.poison thread
  | some (.error bad, reducer), none => shared.release thread reducer (.stepped (.error bad))
  | some (.error bad, reducer), some call =>
    shared.release thread reducer (.finalized call.checked (.error bad))
  | some (.ok count, reducer), none => shared.release thread reducer (.stepped (.ok count))
  | some (.ok count, reducer), some call =>
    { shared.move thread (.stepped call) with
      reducer := some reducer
      answers := .consumed count :: shared.answers }

/-- Reduce the canonical arena and rebuild, and give the reducer back. -/
def finalize (shared : Shared τ) (thread : τ) (reducer : IncrementalReducer) (call : Finalizing)
    (find : EngineGraph → Nat → Nat) : Shared τ :=
  match reducer.finalize call.outputs (EggEngine.canonicalize find) call.mode with
  | none => shared.poison thread
  | some (.error bad) => shared.release thread reducer (.finalized call.checked (.error bad))
  | some (.ok red) =>
    match GraphStore.fromReduced red with
    | none => shared.poison thread
    | some result => shared.release thread reducer (.finalized call.checked (.ok result))

/-- One moment, when it can come: a thread moves on from the phase it is in, and
waits while another thread has the reducer. -/
def next (shared : Shared τ) : Moment τ → Option (Shared τ)
  | .record call => some { shared with store := (call.perform shared.store).2 }
  | .check thread outputs mode =>
    match shared.phase thread with
    | .idle => some (shared.check thread outputs mode)
    | _ => none
  | .lock thread =>
    match shared.holder, shared.phase thread with
    | none, .idle => some (shared.lock thread none)
    | none, .checked call => some (shared.lock thread (some call))
    | _, _ => none
  | .snapshot thread =>
    match shared.phase thread with
    | .holding call watermark =>
      some (shared.move thread (.sliced call (shared.store.snapshotFrom watermark)))
    | _ => none
  | .step thread =>
    match shared.phase thread, shared.reducer with
    | .sliced call delta, some reducer => some (shared.step thread reducer call delta)
    | _, _ => none
  | .finalize thread find =>
    match shared.phase thread, shared.reducer with
    | .stepped call, some reducer => some (shared.finalize thread reducer call find)
    | _, _ => none

/-- An interleaving of moments. One that cannot happen gives nothing. -/
def run (shared : Shared τ) (moments : List (Moment τ)) : Option (Shared τ) :=
  moments.foldlM next shared

end Shared

/-! ## Stepping in parts -/

namespace IncrementalReducer

variable {reducer middle final : IncrementalReducer}

/-- A delta that was consumed may be followed by another. How a recording is cut
does not matter to the loop. -/
theorem consume_append {front back : List NodeKey}
    (first : consume front reducer = some (.ok (), middle)) :
    consume (front ++ back) reducer = consume back middle := by
  induction front generalizing reducer with
  | nil =>
    obtain ⟨_, rfl⟩ := Prod.mk.inj (Option.some.inj first)
    rfl
  | cons key rest ih =>
    rw [List.cons_append, consume]
    rw [consume] at first
    cases translated : translate reducer.map key.inputs with
    | error bad =>
      rw [translated] at first
      cases first
    | ok inputs =>
      simp only [translated, Option.bind_eq_bind, Option.bind_eq_some_iff] at first
      obtain ⟨⟨id, next⟩, canonical, later⟩ := first
      simp only [canonical, Option.bind_eq_bind, Option.bind_some]
      exact ih later

/-- A reducer with another count of its work. The count decides nothing else. -/
def withWork (reducer : IncrementalReducer) (work : Nat) : IncrementalReducer :=
  { reducer with totalWork := work }

/-- Hash-consing does not look at the work. -/
theorem hashCons_withWork (reducer : IncrementalReducer) (key : NodeKey) (work : Nat) :
    (reducer.withWork work).hashCons key =
      ((reducer.hashCons key).1, (reducer.hashCons key).2.withWork work) := by
  simp only [hashCons, withWork]
  split <;> rfl

/-- Canonicalizing does not look at the work. -/
theorem canonicalize_withWork (reducer : IncrementalReducer) (key : NodeKey) (work : Nat) :
    (reducer.withWork work).canonicalize key =
      (reducer.canonicalize key).map (fun answer => (answer.1, answer.2.withWork work)) := by
  cases key with
  | op name params inputs =>
    simp only [canonicalize, hashCons_withWork]
    split
    · cases inputs[0]? <;> rfl
    · split
      · split
        · have same (key : NodeKey) (a b : NodeId) : (reducer.withWork work).findSymmetric key a b =
              reducer.findSymmetric key a b := rfl
          rw [same]
          split <;> rfl
        · rfl
      · rfl
  | _ => simp only [canonicalize, hashCons_withWork, Option.map_some]

/-- Consuming does not look at the count of the work, which only a whole step adds
to. -/
theorem consume_withWork (delta : List NodeKey) (reducer : IncrementalReducer) (work : Nat) :
    consume delta (reducer.withWork work) =
      (consume delta reducer).map (fun answer => (answer.1, answer.2.withWork work)) := by
  induction delta generalizing reducer with
  | nil => rfl
  | cons key rest ih =>
    have same : translate (reducer.withWork work).map key.inputs = translate reducer.map key.inputs :=
      rfl
    rw [consume, consume, same]
    cases translate reducer.map key.inputs with
    | error bad => rfl
    | ok inputs =>
      simp only [canonicalize_withWork, Option.bind_eq_bind]
      cases reducer.canonicalize (key.withInputs inputs) with
      | none => rfl
      | some answer => exact ih { answer.2 with map := answer.2.map ++ [answer.1] }

/-- The loop of a step does not count work. -/
theorem consume_work {delta : List NodeKey} {result : Except BadNodeId Unit}
    (done : consume delta reducer = some (result, final)) :
    final.totalWork = reducer.totalWork := by
  have same := consume_withWork delta reducer reducer.totalWork
  change consume delta reducer = _ at same
  rw [done, Option.map_some, Option.some.injEq, Prod.mk.injEq] at same
  rw [same.2]
  rfl

/-- A step consumes its delta, and counts it. The count is added once, after the
last node. -/
theorem step_ok_iff {delta : List NodeKey} {count : Nat} :
    reducer.step delta = some (.ok count, final) ↔ ∃ next,
      consume delta reducer = some (.ok (), next) ∧ count = delta.length ∧
        final = next.withWork (reducer.totalWork + delta.length) := by
  constructor
  · intro done
    simp only [step, Option.bind_eq_bind, Option.bind_eq_some_iff] at done
    obtain ⟨⟨outcome, next⟩, consumed, done⟩ := done
    cases outcome with
    | error bad => cases done
    | ok nothing =>
      obtain ⟨counted, rfl⟩ := Prod.mk.inj (Option.some.inj done)
      refine ⟨next, consumed, (Except.ok.inj counted).symm, ?_⟩
      rw [← consume_work consumed]
      rfl
  · rintro ⟨next, consumed, rfl, rfl⟩
    simp only [step, consumed, Option.bind_eq_bind, Option.bind_some]
    rw [← consume_work consumed]
    rfl

/-- Two steps are one step over both deltas, when each of them is consumed. -/
theorem step_rest {front back : List NodeKey} {count all : Nat}
    (first : reducer.step front = some (.ok count, middle))
    (whole : reducer.step (front ++ back) = some (.ok all, final)) :
    middle.step back = some (.ok back.length, final) := by
  obtain ⟨half, consumed, rfl, rfl⟩ := step_ok_iff.mp first
  obtain ⟨next, together, rfl, rfl⟩ := step_ok_iff.mp whole
  have later : consume back half = some (.ok (), next) :=
    (consume_append consumed).symm.trans together
  refine step_ok_iff.mpr ⟨next.withWork (reducer.totalWork + front.length), ?_, rfl, ?_⟩
  · rw [consume_withWork, later, Option.map_some]
  · show next.withWork _ = next.withWork (reducer.totalWork + front.length + back.length)
    rw [List.length_append, Nat.add_assoc]

/-- A fresh reducer steps over any arena whose identity ops are unary. This is the
reducer that all others are compared with. -/
theorem step_new {arena : List NodeKey} (topological : Topological arena)
    (unary : UnaryIdentities arena) :
    ∃ reducer, new.step arena = some (.ok arena.length, reducer) ∧
      Canonical arena arena.length reducer ∧ reducer.totalWork = arena.length := by
  obtain ⟨next, consumed, canonical⟩ := (canonical_new arena).consume topological unary arena []
    (List.append_nil arena).symm
  rw [Nat.zero_add] at canonical
  refine ⟨next.withWork arena.length, step_ok_iff.mpr ⟨next, consumed, rfl, ?_⟩, ?_, rfl⟩
  · show _ = next.withWork (0 + arena.length)
    rw [Nat.zero_add]
  · exact ⟨canonical.map, canonical.nodes, canonical.table⟩

/-- A reducer that consumed the whole of an arena finalizes any outputs in it, and
the result is rebuilt. -/
theorem finalize_new {arena : List NodeKey} (topological : Topological arena)
    (unary : UnaryIdentities arena)
    (stepped : new.step arena = some (.ok arena.length, reducer)) (find : EngineGraph → Nat → Nat)
    {outs : List NodeId} (inside : ∀ o ∈ outs, o < arena.length) (mode : FusionMode) :
    ∃ red result, reducer.finalize outs (EggEngine.canonicalize find) mode = some (.ok red) ∧
      GraphStore.fromReduced red = some result := by
  obtain ⟨same, again, canonical, _⟩ := step_new topological unary
  obtain rfl : same = reducer := by simpa using again.symm.trans stepped
  have translated := canonical.translate outs inside
  have whole : same.canonNodes = quotient (Least nodeRules arena) arena := by
    rw [canonical.nodes, List.take_length]
  have canonicalTopological : Topological same.canonNodes :=
    whole ▸ compact_topological (quotient_closed least_equivalence topological)
  have canonicalInside : ∀ o ∈ outs.map (place (Least nodeRules arena)),
      o < same.canonNodes.length := by
    intro o member
    obtain ⟨old, requested, rfl⟩ := List.mem_map.mp member
    rw [whole, quotient_length]
    exact place_lt least_equivalence (inside old requested)
  obtain ⟨red, _, reduced, reduces, _, _, _, rebuilt, _⟩ :=
    reduceWithMode_rebuilds find canonicalTopological canonicalInside mode
  exact ⟨red, _, by simp [IncrementalReducer.finalize, translated, reduces], rebuilt⟩

end IncrementalReducer

/-! ## What holds at every moment -/

namespace Shared

variable {τ : Type} {shared : Shared τ} {reducer : IncrementalReducer}

/-- What a thread relies on. Outputs that were in range stay in range; the
watermark that was read is the watermark, since the thread has the reducer; and
the snapshot continues the consumed part of the arena. -/
def Sound (shared : Shared τ) (reducer : IncrementalReducer) (thread : τ) : Phase → Prop
  | .idle => True
  | .checked call => ∀ o ∈ call.outputs, o < shared.store.nodes.length
  | .holding call watermark => shared.holder = some thread ∧ watermark = reducer.watermark ∧
      ∀ c ∈ call, ∀ o ∈ c.outputs, o < shared.store.nodes.length
  | .sliced call delta => shared.holder = some thread ∧
      shared.store.nodes.take reducer.watermark ++ delta <+: shared.store.nodes ∧
      ∀ c ∈ call, ∀ o ∈ c.outputs, o < reducer.watermark + delta.length
  | .stepped call => shared.holder = some thread ∧ ∀ o ∈ call.outputs, o < reducer.watermark

/-- No step fails, and a finalize call fails only on an output that was out of
range when it was checked. -/
def Answer.Sound : Answer → Prop
  | .stepped result => ∃ count, result = .ok count
  | .consumed _ => True
  | .finalized checked result => ∀ bad, result = .error bad → checked ≤ bad.id
  | .panicked => False

/-- The reducer is what one step over the consumed part of the arena gives, and
every thread and every answer is sound. -/
structure Consistent (shared : Shared τ) (reducer : IncrementalReducer) : Prop where
  usable : shared.reducer = some reducer
  interned : shared.store.Interned
  unary : UnaryIdentities shared.store.nodes
  consumed : IncrementalReducer.new.step (shared.store.nodes.take reducer.watermark) =
    some (.ok reducer.watermark, reducer)
  within : reducer.watermark ≤ shared.store.nodes.length
  counted : Answer.total shared.answers = reducer.watermark
  phases : ∀ thread, Sound shared reducer thread (shared.phase thread)
  answered : ∀ answer ∈ shared.answers, answer.Sound

/-- Nothing was recorded, and no thread has begun. -/
theorem consistent_start : Consistent (start : Shared τ) .new where
  usable := rfl
  interned := GraphStore.interned_new
  unary := nofun
  consumed := rfl
  within := Nat.le_refl 0
  counted := rfl
  phases _ := trivial
  answered := nofun

/-- A thread without the reducer relies on nothing but the arena, which only
grows. -/
theorem Sound.elsewhere {thread : τ} {phase : Phase} (sound : Sound shared reducer thread phase)
    (other : shared.holder ≠ some thread) {after : Shared τ}
    (grows : shared.store.nodes <+: after.store.nodes) (next : IncrementalReducer) :
    Sound after next thread phase := by
  cases phase with
  | idle => trivial
  | checked call => exact fun o member => (sound o member).trans_le grows.length_le
  | holding call watermark => exact absurd sound.1 other
  | sliced call delta => exact absurd sound.1 other
  | stepped call => exact absurd sound.1 other

/-- Growing a list keeps its beginning. -/
theorem take_grown {nodes more : List NodeKey} (grows : nodes <+: more) {n : Nat}
    (within : n ≤ nodes.length) : more.take n = nodes.take n := by
  obtain ⟨added, rfl⟩ := grows
  exact List.take_append_of_le_length within

/-- An append leaves what every thread relies on, for it only looked at the nodes
that were there. -/
theorem Sound.grown {thread : τ} {phase : Phase} (sound : Sound shared reducer thread phase)
    (within : reducer.watermark ≤ shared.store.nodes.length) {store : GraphStore}
    (grows : shared.store.nodes <+: store.nodes) :
    Sound { shared with store := store } reducer thread phase := by
  have later {o : NodeId} (before : o < shared.store.nodes.length) : o < store.nodes.length :=
    before.trans_le grows.length_le
  cases phase with
  | idle => trivial
  | checked call => exact fun o member => later (sound o member)
  | holding call watermark =>
    exact ⟨sound.1, sound.2.1, fun c member o requested => later (sound.2.2 c member o requested)⟩
  | sliced call delta =>
    refine ⟨sound.1, ?_, sound.2.2⟩
    rw [take_grown grows within]
    exact sound.2.1.trans grows
  | stepped call => exact sound

/-! ## What every moment keeps -/

variable [DecidableEq τ] {thread : τ} {call : Option Finalizing}

/-- A thread may change its phase when what the new phase says holds. The others
rely on nothing of it. -/
theorem Consistent.moved {phase : Phase} (consistent : Consistent shared reducer)
    (own : Sound shared reducer thread phase) : Consistent (shared.move thread phase) reducer := by
  have kept {other : τ} {p : Phase} (sound : Sound shared reducer other p) :
      Sound (shared.move thread phase) reducer other p := by
    cases p <;> exact sound
  exact ⟨consistent.usable, consistent.interned, consistent.unary, consistent.consumed,
    consistent.within, consistent.counted,
    (Function.forall_update_iff shared.phase (fun other => Sound _ reducer other)).mpr
      ⟨kept own, fun other _ => kept (consistent.phases other)⟩, consistent.answered⟩

omit [DecidableEq τ] in
/-- Recording grows the store behind the reducer's back, and what was consumed
stays a beginning of it. -/
theorem Consistent.record (consistent : Consistent shared reducer) {call : Call}
    (unary : ∀ key, call.key? = some key → IdentityOperator key → key.inputs.length = 1) :
    Consistent { shared with store := (call.perform shared.store).2 } reducer := by
  have grows := (Call.extends_perform shared.store call).nodes
  refine ⟨consistent.usable, Call.interned_perform consistent.interned call, ?_, ?_,
    consistent.within.trans grows.length_le, consistent.counted,
    fun other => (consistent.phases other).grown consistent.within grows, consistent.answered⟩
  · intro key member
    rcases Call.mem_perform_nodes member with old | asked
    · exact consistent.unary key old
    · exact unary key asked
  · rw [take_grown grows consistent.within]
    exact consistent.consumed

/-- A finalize call looks at the outputs before it asks for the reducer. -/
theorem Consistent.check (consistent : Consistent shared reducer) (outputs : Option (List NodeId))
    (mode : FusionMode) : Consistent (shared.check thread outputs mode) reducer := by
  cases outputs with
  | none =>
    have inside : Sound shared reducer thread
        (.checked ⟨shared.store.outputs, mode, shared.store.nodeCount⟩) :=
      consistent.interned.inside
    exact consistent.moved inside
  | some outs =>
    rw [Shared.check]
    cases bad : outs.find? (fun o => decide (shared.store.nodeCount ≤ o)) with
    | none =>
      have inside : Sound shared reducer thread
          (.checked ⟨outs, mode, shared.store.nodeCount⟩) := by
        intro o member
        have known : ¬ shared.store.nodeCount ≤ o := by
          simpa using List.find?_eq_none.mp bad o member
        exact Nat.lt_of_not_le known
      exact consistent.moved inside
    | some o =>
      have outside : shared.store.nodeCount ≤ o := by simpa using List.find?_some bad
      refine ⟨consistent.usable, consistent.interned, consistent.unary, consistent.consumed,
        consistent.within, consistent.counted, consistent.phases, ?_⟩
      intro answer member
      rcases List.mem_cons.mp member with rfl | old
      · rintro _ ⟨⟩
        exact outside
      · exact consistent.answered answer old

omit [DecidableEq τ] in
/-- What the holder of the reducer does is seen by no other thread, since these
are outside of the lock. -/
theorem Consistent.unseen (consistent : Consistent shared reducer) {other : τ}
    (elsewhere : shared.holder ≠ some other) {next : IncrementalReducer} {after : Shared τ}
    (store : after.store = shared.store) : Sound after next other (shared.phase other) :=
  (consistent.phases other).elsewhere elsewhere (store ▸ List.prefix_refl _) next

omit [DecidableEq τ] in
/-- What one thread holds no other one does. -/
theorem held_elsewhere (holder : shared.holder = some thread) {other : τ}
    (different : other ≠ thread) : shared.holder ≠ some other := by
  rw [holder]
  exact fun same => different (Option.some.inj same).symm

/-- A thread that takes the reducer sees its watermark, which no other moves from
then on. -/
theorem Consistent.lock (consistent : Consistent shared reducer) (vacant : shared.holder = none)
    (inside : ∀ c ∈ call, ∀ o ∈ c.outputs, o < shared.store.nodes.length) :
    Consistent (shared.lock thread call) reducer := by
  have free (other : τ) : shared.holder ≠ some other := by
    rw [vacant]
    exact nofun
  have taken : shared.lock thread call =
      { shared.move thread (.holding call reducer.watermark) with holder := some thread } := by
    rw [Shared.lock, consistent.usable]
  rw [taken]
  refine ⟨consistent.usable, consistent.interned, consistent.unary, consistent.consumed,
    consistent.within, consistent.counted, ?_, consistent.answered⟩
  refine (Function.forall_update_iff shared.phase (fun other => Sound _ reducer other)).mpr
    ⟨⟨rfl, rfl, inside⟩, fun other _ => consistent.unseen (free other) rfl⟩

/-- The holder takes what was recorded since the watermark. Recording may go on,
since the store only grows. -/
theorem Consistent.snapshot (consistent : Consistent shared reducer) {watermark : Nat}
    (holds : shared.phase thread = .holding call watermark) :
    Consistent (shared.move thread (.sliced call (shared.store.snapshotFrom watermark)))
      reducer := by
  obtain ⟨holder, rfl, inside⟩ : Sound shared reducer thread (.holding call watermark) :=
    holds ▸ consistent.phases thread
  have delta : shared.store.snapshotFrom reducer.watermark =
      shared.store.nodes.drop reducer.watermark := by
    rw [GraphStore.snapshotFrom, Nat.min_eq_left consistent.within]
  refine consistent.moved ⟨holder, ?_, fun c member o requested => ?_⟩
  · rw [delta, List.take_append_drop]
  · rw [delta, List.length_drop, Nat.add_sub_cancel' consistent.within]
    exact inside c member o requested

/-- The holder steps over its slice, which continues what was consumed. The
reducer is then the one that stepped over both at once. -/
theorem Consistent.step (consistent : Consistent shared reducer) {delta : List NodeKey}
    (sliced : shared.phase thread = .sliced call delta) :
    ∃ next, Consistent (shared.step thread reducer call delta) next := by
  obtain ⟨holder, continues, inside⟩ : Sound shared reducer thread (.sliced call delta) :=
    sliced ▸ consistent.phases thread
  have length : (shared.store.nodes.take reducer.watermark ++ delta).length =
      reducer.watermark + delta.length := by
    rw [List.length_append, List.length_take, Nat.min_eq_left consistent.within]
  have part := List.prefix_iff_eq_take.mp continues
  rw [length] at part
  have topological : Topological (shared.store.nodes.take (reducer.watermark + delta.length)) := by
    exact topological_initial consistent.interned.earlier (List.take_prefix _ _)
  have unary : UnaryIdentities (shared.store.nodes.take (reducer.watermark + delta.length)) :=
    fun key member => consistent.unary key (List.mem_of_mem_take member)
  obtain ⟨next, whole, canonical, _⟩ := IncrementalReducer.step_new topological unary
  rw [← part, length] at whole canonical
  have stepped : reducer.step delta = some (.ok delta.length, next) :=
    IncrementalReducer.step_rest consistent.consumed whole
  have watermark : next.watermark = reducer.watermark + delta.length := by
    rw [IncrementalReducer.watermark, canonical.map, List.length_map, List.length_range]
  have consumed : IncrementalReducer.new.step (shared.store.nodes.take next.watermark) =
      some (.ok next.watermark, next) := by
    rw [watermark, ← part, whole]
  have within : next.watermark ≤ shared.store.nodes.length := by
    rw [watermark, ← length]
    exact continues.length_le
  have counted : delta.length + Answer.total shared.answers = next.watermark := by
    rw [consistent.counted, watermark, Nat.add_comm]
  refine ⟨next, ?_⟩
  cases call with
  | none =>
    have done : shared.step thread reducer none delta =
        shared.release thread next (.stepped (.ok delta.length)) := by
      simp only [Shared.step, stepped]
    rw [done]
    refine ⟨rfl, consistent.interned, consistent.unary, consumed, within, counted, ?_, ?_⟩
    · exact (Function.forall_update_iff shared.phase (fun other => Sound _ next other)).mpr
        ⟨trivial, fun other different =>
          consistent.unseen (held_elsewhere holder different) rfl⟩
    · exact List.forall_mem_cons.mpr ⟨⟨_, rfl⟩, consistent.answered⟩
  | some call =>
    have done : shared.step thread reducer (some call) delta =
        { shared.move thread (.stepped call) with
          reducer := some next
          answers := .consumed delta.length :: shared.answers } := by
      simp only [Shared.step, stepped]
    rw [done]
    refine ⟨rfl, consistent.interned, consistent.unary, consumed, within, counted, ?_, ?_⟩
    · refine (Function.forall_update_iff shared.phase (fun other => Sound _ next other)).mpr
        ⟨⟨holder, fun o member => ?_⟩, fun other different =>
          consistent.unseen (held_elsewhere holder different) rfl⟩
      rw [watermark]
      exact inside call rfl o member
    · exact List.forall_mem_cons.mpr ⟨trivial, consistent.answered⟩

/-- The holder finalizes and gives the reducer back as it was. Nothing is refused,
since its outputs were consumed. -/
theorem Consistent.finalize (consistent : Consistent shared reducer) {call : Finalizing}
    (stepped : shared.phase thread = .stepped call) (find : EngineGraph → Nat → Nat) :
    Consistent (shared.finalize thread reducer call find) reducer := by
  obtain ⟨holder, inside⟩ : Sound shared reducer thread (.stepped call) :=
    stepped ▸ consistent.phases thread
  have length : (shared.store.nodes.take reducer.watermark).length = reducer.watermark := by
    rw [List.length_take, Nat.min_eq_left consistent.within]
  have topological : Topological (shared.store.nodes.take reducer.watermark) :=
    topological_initial consistent.interned.earlier (List.take_prefix _ _)
  have unary : UnaryIdentities (shared.store.nodes.take reducer.watermark) :=
    fun key member => consistent.unary key (List.mem_of_mem_take member)
  have consumed : IncrementalReducer.new.step (shared.store.nodes.take reducer.watermark) =
      some (.ok (shared.store.nodes.take reducer.watermark).length, reducer) := by
    rw [length]
    exact consistent.consumed
  obtain ⟨red, result, finalized, rebuilt⟩ := IncrementalReducer.finalize_new topological unary
    consumed find (fun o member => length.symm ▸ inside o member) call.mode
  have done : shared.finalize thread reducer call find =
      shared.release thread reducer (.finalized call.checked (.ok result)) := by
    simp only [Shared.finalize, finalized, rebuilt]
  rw [done]
  refine ⟨rfl, consistent.interned, consistent.unary, consistent.consumed, consistent.within,
    consistent.counted, ?_, ?_⟩
  · exact (Function.forall_update_iff shared.phase (fun other => Sound _ reducer other)).mpr
      ⟨trivial, fun other different => consistent.unseen (held_elsewhere holder different) rfl⟩
  · exact List.forall_mem_cons.mpr ⟨nofun, consistent.answered⟩

/-- One moment of any thread keeps the whole consistent, by the kinds of
moments. -/
theorem Consistent.next (consistent : Consistent shared reducer) {moment : Moment τ}
    (unary : ∀ call key, moment = .record call → call.key? = some key → IdentityOperator key →
      key.inputs.length = 1) {after : Shared τ} (came : shared.next moment = some after) :
    ∃ reducer', Consistent after reducer' := by
  cases moment with
  | record call =>
    obtain rfl := Option.some.inj came
    exact ⟨reducer, consistent.record (fun key => unary call key rfl)⟩
  | check thread outputs mode =>
    rw [Shared.next] at came
    split at came
    · obtain rfl := Option.some.inj came
      exact ⟨reducer, consistent.check outputs mode⟩
    · cases came
  | lock thread =>
    rw [Shared.next] at came
    split at came
    · obtain rfl := Option.some.inj came
      exact ⟨reducer, consistent.lock (by assumption) nofun⟩
    · rename_i call vacant checked
      obtain rfl := Option.some.inj came
      have inside : Sound shared reducer thread (.checked call) :=
        checked ▸ consistent.phases thread
      refine ⟨reducer, consistent.lock vacant (fun c same => ?_)⟩
      exact Option.some.inj same ▸ inside
    · cases came
  | snapshot thread =>
    rw [Shared.next] at came
    split at came
    · obtain rfl := Option.some.inj came
      exact ⟨reducer, consistent.snapshot (by assumption)⟩
    · cases came
  | step thread =>
    rw [Shared.next, consistent.usable] at came
    split at came
    · rename_i call delta held sliced same
      obtain rfl := Option.some.inj same
      obtain rfl := Option.some.inj came
      exact consistent.step sliced
    · cases came
  | finalize thread find =>
    rw [Shared.next, consistent.usable] at came
    split at came
    · rename_i call held stepped same
      obtain rfl := Option.some.inj same
      obtain rfl := Option.some.inj came
      exact ⟨reducer, consistent.finalize stepped find⟩
    · cases came

/-- Any interleaving keeps the whole consistent, by induction on its moments. -/
theorem Consistent.run (consistent : Consistent shared reducer) {moments : List (Moment τ)}
    (unary : ∀ call key, .record call ∈ moments → call.key? = some key → IdentityOperator key →
      key.inputs.length = 1) {after : Shared τ} (ran : shared.run moments = some after) :
    ∃ reducer', Consistent after reducer' := by
  induction moments generalizing shared reducer with
  | nil =>
    obtain rfl := Option.some.inj ran
    exact ⟨reducer, consistent⟩
  | cons moment rest ih =>
    rw [Shared.run, List.foldlM_cons, Option.bind_eq_bind, Option.bind_eq_some_iff] at ran
    obtain ⟨between, came, later⟩ := ran
    obtain ⟨reducer', middle⟩ := consistent.next
      (fun call key same => unary call key (same ▸ List.mem_cons_self)) came
    exact ih middle (fun call key member => unary call key (List.mem_cons_of_mem moment member))
      later

/-- In every state that any interleaving of recording, stepping and finalizing
reaches, if every recorded op with an identity token has one input: the reducer's
arena, table and map are those of a fresh reducer stepped once over the consumed
part of the store; the watermark is the work done, and is at most the node count;
the nodes that steps returned and finalize calls consumed add up to it; and a
finalize call refuses only outputs that were out of range when it checked. No step
is refused, and nothing panics. -/
theorem stepping_consumes_once (moments : List (Moment τ))
    (unary : ∀ call key, .record call ∈ moments → call.key? = some key → IdentityOperator key →
      key.inputs.length = 1) {shared : Shared τ} (ran : start.run moments = some shared) :
    ∃ reducer fresh : IncrementalReducer, shared.reducer = some reducer ∧
      (∃ count, IncrementalReducer.new.step (shared.store.nodes.take reducer.watermark) =
        some (.ok count, fresh)) ∧
      reducer.canonNodes = fresh.canonNodes ∧ reducer.canonTable = fresh.canonTable ∧
      reducer.map = fresh.map ∧
      reducer.watermark = reducer.totalWork ∧ reducer.totalWork ≤ shared.store.nodeCount ∧
      Answer.total shared.answers = reducer.watermark ∧
      (∀ checked bad, .finalized checked (.error bad) ∈ shared.answers → checked ≤ bad.id) ∧
      (∀ bad, .stepped (.error bad) ∉ shared.answers) ∧ .panicked ∉ shared.answers := by
  obtain ⟨reducer, consistent⟩ := consistent_start.run unary ran
  obtain ⟨next, _, _, worked⟩ := IncrementalReducer.step_ok_iff.mp consistent.consumed
  have length : (shared.store.nodes.take reducer.watermark).length = reducer.watermark := by
    rw [List.length_take, Nat.min_eq_left consistent.within]
  have work : reducer.totalWork = reducer.watermark := by
    rw [length] at worked
    exact (congrArg IncrementalReducer.totalWork worked).trans (Nat.zero_add _)
  refine ⟨reducer, reducer, consistent.usable, ⟨_, consistent.consumed⟩, rfl, rfl, rfl, work.symm,
    work ▸ consistent.within, consistent.counted, ?_, ?_, ?_⟩
  · intro checked bad member
    exact consistent.answered _ member bad rfl
  · intro bad member
    obtain ⟨count, impossible⟩ := consistent.answered _ member
    cases impossible
  · exact fun member => consistent.answered _ member

/-- One thread steps while the store grows, and another finalizes. -/
def sharedMoments : List (Moment Bool) :=
  [.record (.addSource "events" (.new [])), .lock true,
    .record (.addOp "mul" [0] (.new [("scalar", .float 0x3ff0000000000000), ("side", .str "r")])),
    .check false (some [1]) .singleUse, .snapshot true, .record (.addOp "pt" [1] (.new [])),
    .step true, .lock false, .snapshot false, .step false, .finalize false (fun _ i => i)]

/-- After these moments the reducer has consumed the three nodes, each one
once. -/
theorem stepping_consumes_once_of_two :
    ∃ (shared : Shared Bool) (reducer : IncrementalReducer),
      start.run sharedMoments = some shared ∧ shared.reducer = some reducer ∧
        reducer.watermark = 3 ∧ reducer.totalWork = 3 := by
  have unary : ∀ call key, .record call ∈ sharedMoments → call.key? = some key →
      IdentityOperator key → key.inputs.length = 1 := by
    intro call key member asked identity
    simp only [sharedMoments, List.mem_cons, Moment.record.injEq, reduceCtorEq, false_or, or_false,
      List.not_mem_nil] at member
    rcases member with rfl | rfl | rfl
    · obtain rfl := Option.some.inj asked
      obtain ⟨_, _, _, impossible, _⟩ := identity
      cases impossible
    · obtain rfl := Option.some.inj asked
      rfl
    · obtain rfl := Option.some.inj asked
      rfl
  have total : (start.run sharedMoments).map (fun shared => Answer.total shared.answers) = some 3 := by
    decide +kernel
  obtain ⟨shared, ran, counted⟩ := Option.map_eq_some_iff.mp total
  obtain ⟨reducer, _, usable, _, _, _, _, worked, _, watermark, _⟩ :=
    stepping_consumes_once sharedMoments unary ran
  have consumed : reducer.watermark = 3 := watermark.symm.trans counted
  exact ⟨shared, reducer, ran, usable, consumed, worked.symm.trans consumed⟩

end Shared

end GraphedCore
