import Mathlib.Data.List.Sort
import GraphedCore.Lib.OrderedDict
import GraphedCore.Param

/-!
# The execution contract

A partition is a unit of input work: an entry range, or one step of a number of equal
steps whose range is left to the reader. A plan is run in key order by code of the user:
`process`, `combine`, `empty`, the openers and handles of files, the monitor and the text of
an exception. That code reads and changes a state `S` of its own, and may raise an `Exception`,
of the type `E`; an interrupt of the interpreter is none. Of the runner's resources it sees
`open_once` alone.

The world of a run is the user's state, the open handles, and the calls that were made so
far of the user's code.
-/

namespace GraphedCore.Execution

/-- A range of entries of a tree in a file, or a blind step that is resolved once
the file is open. -/
structure Partition where
  uri : String
  tree : String := ""
  entryStart : Int := 0
  entryStop : Int := 0
  blindStep : Option Int := none
  blindNSteps : Option Int := none
deriving DecidableEq

namespace Partition

/-- Step `step` of `nSteps` over a file that is not open yet. A step out of range
is refused with its numbers. -/
def blind (uri tree : String) (step nSteps : Int) : Except String Partition :=
  if nSteps < 1 ∨ ¬ (0 ≤ step ∧ step < nSteps) then
    .error s!"blind partition needs 0 <= step < n_steps, got {step}/{nSteps}"
  else
    .ok { uri := uri, tree := tree, blindStep := some step, blindNSteps := some nSteps }

/-- Whether the range is known only when the file is. -/
def isBlind (x : Partition) : Bool := x.blindStep.isSome

/-- The entry range of a blind partition in a file with the given number of
entries. `none` models the division by zero steps. -/
def resolve (x : Partition) (numEntries : Int) : Option Partition :=
  match x.blindStep, x.blindNSteps with
  | some step, some nSteps =>
    if nSteps = 0 then none
    else some {
      uri := x.uri
      tree := x.tree
      entryStart := (step * numEntries).fdiv nSteps
      entryStop := ((step + 1) * numEntries).fdiv nSteps }
  | _, _ => some x

/-- How many entries the range has. A blind partition has none yet. -/
def nEntries (x : Partition) : Int := max 0 (x.entryStop - x.entryStart)

/-- A short label for a person to read. A monitor is told it with each event. -/
def label (x : Partition) : String := s!"{x.uri}:{x.tree}:{x.entryStart}-{x.entryStop}"

/-- An entry range, or a result of `blind`. These are the partitions that the
constructors of the source give. -/
def Built (x : Partition) : Prop :=
  (x.blindStep = none ∧ x.blindNSteps = none) ∨
    ∃ uri tree step nSteps, blind uri tree step nSteps = .ok x

/-- A blind partition has the default range. -/
theorem blind_fields {uri tree : String} {step nSteps : Int} {x : Partition}
    (made : blind uri tree step nSteps = .ok x) :
    x = ⟨uri, tree, 0, 0, some step, some nSteps⟩ := by
  rw [blind] at made
  split at made
  · cases made
  · exact (Except.ok.inj made).symm

/-- The blind fields are set together, and then the entry range is the default
one. -/
theorem Built.fields {x : Partition} (built : x.Built) :
    (x.blindStep = none ∧ x.blindNSteps = none) ∨
      ∃ step nSteps, x = ⟨x.uri, x.tree, 0, 0, some step, some nSteps⟩ := by
  rcases built with range | ⟨uri, tree, step, nSteps, made⟩
  · exact Or.inl range
  · obtain rfl := blind_fields made
    exact Or.inr ⟨step, nSteps, rfl⟩

end Partition

/-- A partition with the key that orders its run. Keys need not be distinct. -/
structure Task where
  key : Int
  partition : Partition
deriving DecidableEq

/-- What a monitor is told of a task: that it is planned, that it begins, and how
it ends. -/
inductive TaskPhase where
  | submitted
  | started
  | finished
  | errored
deriving DecidableEq

/-- A record of one transition in the life of a task, with the defaults of the
source. -/
structure TaskEvent where
  phase : TaskPhase
  key : Int
  worker : String
  t : F64
  partition : String := ""
  nEntries : Int := 0
  bytesRead : Option Nat := none
  error : Option String := none

/-- Why a run stopped early. The sequential runner never does, so its results have
none. -/
inductive StopReason where
  | exhausted
  | targetEvents
  | precision
  | wallClock
  | errorBudget

/-- The value of a run and how it came about: from how many tasks, and with how
many combinations. -/
structure ExecResult (R : Type) where
  value : R
  nPartitions : Nat
  nCombines : Nat
  stopped : Option StopReason := none

/-! ## The user's code -/

/-- Code of the user: it changes the user's state, and returns or raises. Nothing
else is known of it. -/
abbrev Action (S E α : Type) := S → Except E α × S

/-- A body that may also ask for handles, and go on with what it gets or with what
the opener raised. -/
inductive Script (S E H R : Type) where
  | finish (outcome : Except E R)
  | step (change : S → S) (next : S → Script S E H R)
  | openOnce (uri : String) (opener : String → Action S E H) (next : Except E H → Script S E H R)

/-- What the runner asks of clocks, exceptions and handles. A handle need not have
a `close`. -/
structure Host (S E H : Type) where
  perfCounter : S → F64 × S
  typeName : E → String
  str : E → Action S E String
  close : H → Option (Action S E Unit)

/-- Code of the user that is called at every event. What it raises is dropped. -/
structure Monitor (S E : Type) where
  onTask : TaskEvent → Action S E Unit

/-- The user's code and the tasks it is run on. All three callables share the
user's state. -/
structure Plan (S E H R : Type) where
  process : Partition → Script S E H R
  combine : R → R → Action S E R
  empty : Action S E R
  tasks : List Task := []

/-- A call of the user's code, or of the resources by it. A run is judged by the
list of these. -/
inductive Call (H R : Type) where
  | empty
  | process (partition : Partition)
  | combine (value leaf : R)
  | onTask (event : TaskEvent)
  | openOnce (uri : String)
  | opened (uri : String) (handle : H)
  | close (handle : H)

/-- The open handles, most recently used last, with the bound on them and the
number of openings. -/
structure LocalResources (H : Type) where
  handles : OrderedDict String H := .empty
  maxOpen : Nat := 128
  openCount : Nat := 0

/-- The state of the user's code, the open handles, and every call of the user's
code so far. -/
structure World (S H R : Type) where
  user : S
  resources : LocalResources H
  calls : List (Call H R)

variable {S E H R : Type}

namespace World

/-- Note a call. The model keeps them; the source has no such list. -/
def log (call : Call H R) (world : World S H R) : World S H R :=
  { world with calls := world.calls ++ [call] }

/-- Run code of the user on its state. The resources and the calls stay. -/
def act {α : Type} (code : Action S E α) (world : World S H R) : Except E α × World S H R :=
  ((code world.user).1, { world with user := (code world.user).2 })

/-! ## Resources -/

/-- Close a handle that can be closed; what its `close` raises is dropped. A
handle without a `close` is left alone. -/
def closeHandle (host : Host S E H) (handle : H) (world : World S H R) : World S H R :=
  match host.close handle with
  | none => world
  | some close => ((world.log (.close handle)).act close).2

/-- Drop the least recently used handle, `n` times, and close each. An empty cache
ends it. -/
def evict (host : Host S E H) : Nat → World S H R → World S H R
  | 0, world => world
  | n + 1, world =>
    match world.resources.handles.popFirst with
    | none => world
    | some ((_, evicted), rest) =>
      evict host n
        (closeHandle host evicted { world with resources := { world.resources with handles := rest } })

/-- The open handle of a file, or a new one. What was used longest ago is closed
when there are too many. -/
def openOnce (host : Host S E H) (uri : String) (opener : String → Action S E H)
    (world : World S H R) : Except E H × World S H R :=
  let world := world.log (.openOnce uri)
  match world.resources.handles.get? uri with
  | some handle =>
    (.ok handle, { world with
      resources := { world.resources with handles := world.resources.handles.put uri handle } })
  | none =>
    match world.act (opener uri) with
    | (.error e, world) => (.error e, world)
    | (.ok handle, world) =>
      let world := world.log (.opened uri handle)
      let handles := world.resources.handles.put uri handle
      let world := { world with resources :=
        { world.resources with handles := handles, openCount := world.resources.openCount + 1 } }
      (.ok handle, evict host (handles.entries.length - world.resources.maxOpen) world)

/-- Close every handle, oldest first, and forget them. One that raises does not
keep the others open. -/
def closeAll (host : Host S E H) (world : World S H R) : World S H R :=
  let world := (world.resources.handles.entries.map Prod.snd).foldl
    (fun world handle => closeHandle host handle world) world
  { world with resources := { world.resources with handles := .empty } }

/-- Run a script of the user, which may change its state and ask for files. A
request goes through the resources of the worker. -/
def exec (host : Host S E H) : Script S E H R → World S H R → Except E R × World S H R
  | .finish outcome, world => (outcome, world)
  | .step change next, world =>
    exec host (next world.user) { world with user := change world.user }
  | .openOnce uri opener next, world =>
    exec host (next (openOnce host uri opener world).1) (openOnce host uri opener world).2

end World

/-! ## The sequential runner -/

/-- Hand an event to the monitor, if there is one; what the monitor raises is
dropped. -/
def emitTask (monitor : Option (Monitor S E)) (event : TaskEvent) (world : World S H R) :
    World S H R :=
  match monitor with
  | none => world
  | some monitor => ((world.log (.onTask event)).act (monitor.onTask event)).2

namespace SequentialRunner

/-- What is told of a task. The worker of this runner has a fixed name. -/
def event (phase : TaskPhase) (task : Task) (error : Option String) (t : F64) : TaskEvent where
  phase := phase
  key := task.key
  worker := "seq"
  t := t
  partition := task.partition.label
  nEntries := task.partition.nEntries
  error := error

variable (host : Host S E H) (monitor : Option (Monitor S E)) (plan : Plan S E H R)

/-- Read the clock and emit the event. The clock is read whether or not anyone
listens. -/
def emit (phase : TaskPhase) (task : Task) (error : Option String) (world : World S H R) :
    World S H R :=
  let (t, user) := host.perfCounter world.user
  emitTask monitor (event phase task error t) { world with user := user }

/-- The body of a task up to its partial result. The text of an exception is asked
for before its event is emitted. -/
def attempt (task : Task) (world : World S H R) : Except E R × World S H R :=
  let world := emit host monitor .started task none world
  match World.exec host (plan.process task.partition) (world.log (.process task.partition)) with
  | (.ok leaf, world) => (.ok leaf, world)
  | (.error e, world) =>
    match world.act (host.str e) with
    | (.error e', world) => (.error e', world)
    | (.ok text, world) =>
      (.error e, emit host monitor .errored task (some s!"{host.typeName e}: {text}") world)

/-- The tasks one after another, with the value and their number so far. Combining
is outside of the `try` of a task, so what it raises ends the run without an
event. -/
def work : List Task → R → Nat → World S H R → Except E (ExecResult R) × World S H R
  | [], value, n, world => (.ok { value := value, nPartitions := n, nCombines := n - 1 }, world)
  | task :: rest, value, n, world =>
    match attempt host monitor plan task world with
    | (.error e, world) => (.error e, world)
    | (.ok leaf, world) =>
      match (world.log (.combine value leaf)).act (plan.combine value leaf) with
      | (.error e, world) => (.error e, world)
      | (.ok value, world) => work rest value (n + 1) (emit host monitor .finished task none world)

/-- The tasks in the order of their keys. Tasks of one key keep their order. -/
def ordered (tasks : List Task) : List Task := tasks.insertionSort (fun a b => a.key ≤ b.key)

/-- Every task is submitted before the first one starts, in key order. -/
def submit (tasks : List Task) (world : World S H R) : World S H R :=
  tasks.foldl (fun world task => emit host monitor .submitted task none world) world

/-- The loop over the tasks in key order, from the empty result on. If that
raises, no task was submitted. -/
def body (world : World S H R) : Except E (ExecResult R) × World S H R :=
  match (world.log .empty).act plan.empty with
  | (.error e, world) => (.error e, world)
  | (.ok value, world) =>
    work host monitor plan (ordered plan.tasks) value 0
      (submit host monitor (ordered plan.tasks) world)

/-- The world at the start of a run: nothing is open and nothing was called. -/
def start (user : S) : World S H R := { user := user, resources := {}, calls := [] }

/-- Run a plan. The handles are closed at the end of every run, also of one that
raises. -/
def run (user : S) : Except E (ExecResult R) × World S H R :=
  ((body host monitor plan (start user)).1, (body host monitor plan (start user)).2.closeAll host)

end SequentialRunner

end GraphedCore.Execution
