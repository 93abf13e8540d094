import GraphedCore.Execution

/-!
# The life of a task

The events of a run are read by phase and key. A task is announced, started and ended, in
the order of the keys, as long as every exception comes from `process` and has a text. What
`combine` raises, and what is raised while the text of an exception is made, leaves the task
that was started without an end.
-/

namespace GraphedCore.Execution

/-- What an event says of a task: its phase and the task's key. -/
abbrev Mark := TaskPhase × Int

/-- The mark of a call, when the call tells a monitor of an event. -/
def Call.mark? {H R : Type} : Call H R → Option Mark
  | .onTask event => some (event.phase, event.key)
  | _ => none

/-- The phases and keys of the emitted events, in the order of their emission. -/
def World.marks {S H R : Type} (world : World S H R) : List Mark := world.calls.filterMap Call.mark?

/-! ## The protocol -/

/-- The phases of one key, in their order. Where two tasks share a key it holds
the phases of both. -/
def trail (key : Int) (marks : List Mark) : List TaskPhase :=
  (marks.filter (fun mark => mark.2 = key)).map Prod.fst

/-- The keys of the tasks in the order in which they started. -/
def startedKeys (marks : List Mark) : List Int :=
  (marks.filter (fun mark => mark.1 = .started)).map Prod.snd

/-- The phases that a task ends in: it returned or it raised. -/
def TaskPhase.Final (phase : TaskPhase) : Prop := phase = .finished ∨ phase = .errored

instance (phase : TaskPhase) : Decidable phase.Final := inferInstanceAs (Decidable (_ ∨ _))

/-- Every task goes through the same phases, one task after another. -/
def stamp (phases : List TaskPhase) (tasks : List Task) : List Mark :=
  tasks.flatMap (fun task => phases.map (fun phase => (phase, task.key)))

/-- The life of one task by its phases: submitted once, started at most once and
after that, ended once when started, errored when it failed. -/
structure TaskLife (phases : List TaskPhase) (failed : Prop) : Prop where
  submitted : phases.count .submitted = 1
  startedOnce : phases.count .started ≤ 1
  announced : ∀ before later, phases = before ++ .started :: later → .submitted ∈ before
  ended : ∀ before later, phases = before ++ .started :: later →
    (later.filter (fun phase => phase.Final)).length = 1
  errored : .errored ∈ phases ↔ failed

/-- The lives of all tasks of a run. A run that raises fails on the task that it
started last. -/
structure Lifecycle (tasks : List Task) (marks : List Mark) (raised : Prop) : Prop where
  life : ∀ task ∈ tasks, TaskLife (trail task.key marks)
    (raised ∧ (startedKeys marks).getLast? = some task.key)
  ascending : (startedKeys marks).Pairwise (· < ·)

/-- The order in which tasks are listed does not matter. Only their keys are
looked at. -/
theorem Lifecycle.perm_iff {tasks tasks' : List Task} {marks : List Mark} {raised : Prop}
    (same : tasks.Perm tasks') : Lifecycle tasks marks raised ↔ Lifecycle tasks' marks raised := by
  constructor
  · exact fun lives => ⟨fun task member => lives.life task (same.mem_iff.mpr member), lives.ascending⟩
  · exact fun lives => ⟨fun task member => lives.life task (same.mem_iff.mp member), lives.ascending⟩

namespace TaskLife

variable {failed : Prop}

/-- A trail with one start is cut there in one way only. -/
theorem split_start {phase : TaskPhase} (other : phase ≠ .started) {before later : List TaskPhase}
    (same : [.submitted, .started, phase] = before ++ .started :: later) :
    before = [.submitted] ∧ later = [phase] := by
  rcases before with _ | ⟨first, _ | ⟨second, _ | ⟨third, more⟩⟩⟩
  · cases same
  · cases same
    exact ⟨rfl, rfl⟩
  · cases same
    exact absurd rfl other
  · have length := congrArg List.length same
    simp at length

/-- A task that never started is cut nowhere. -/
theorem no_start {before later : List TaskPhase} : [.submitted] ≠ before ++ .started :: later := by
  intro same
  have started : .started ∈ [TaskPhase.submitted] := same ▸ by simp
  exact absurd started (by decide)

/-- A task that was submitted and never came to its turn. -/
theorem waiting (well : ¬ failed) : TaskLife [.submitted] failed where
  submitted := rfl
  startedOnce := by decide
  announced _ _ same := absurd same no_start
  ended _ _ same := absurd same no_start
  errored := by simp [well]

/-- A task that was started and ended once. It ended in an error exactly when the
run failed there. -/
theorem closed {phase : TaskPhase} (final : phase.Final) (outcome : phase = .errored ↔ failed) :
    TaskLife [.submitted, .started, phase] failed where
  submitted := by rcases final with rfl | rfl <;> rfl
  startedOnce := by rcases final with rfl | rfl <;> decide
  announced before later same := by
    rw [(split_start (by rcases final with rfl | rfl <;> decide) same).1]
    exact List.mem_cons_self
  ended before later same := by
    rw [(split_start (by rcases final with rfl | rfl <;> decide) same).2]
    simp [final]
  errored := by simp [← outcome, eq_comm]

/-- A task that was started and left has not ended. -/
theorem not_left : ¬ TaskLife [.submitted, .started] failed := by
  intro life
  exact absurd (life.ended [.submitted] [] rfl) (by decide)

end TaskLife

/-! ## Phases of many tasks -/

/-- The trail of a task, event by event. -/
theorem trail_append (key : Int) (marks marks' : List Mark) :
    trail key (marks ++ marks') = trail key marks ++ trail key marks' := by
  rw [trail, List.filter_append, List.map_append]
  rfl

/-- The starts, event by event. -/
theorem startedKeys_append (marks marks' : List Mark) :
    startedKeys (marks ++ marks') = startedKeys marks ++ startedKeys marks' := by
  rw [startedKeys, List.filter_append, List.map_append]
  rfl

/-- Events of other tasks leave no trail. -/
theorem trail_stamp_absent {key : Int} {tasks : List Task} (absent : key ∉ tasks.map Task.key)
    (phases : List TaskPhase) : trail key (stamp phases tasks) = [] := by
  rw [trail, List.map_eq_nil_iff, List.filter_eq_nil_iff]
  intro mark member same
  obtain ⟨task, listed, marked⟩ := List.mem_flatMap.mp member
  obtain ⟨phase, _, rfl⟩ := List.mem_map.mp marked
  exact absent (List.mem_map.mpr ⟨task, listed, by simpa using same⟩)

/-- A task of a list without repeated keys has the phases of the list. -/
theorem trail_stamp {tasks : List Task} (distinct : (tasks.map Task.key).Nodup)
    (phases : List TaskPhase) {task : Task} (member : task ∈ tasks) :
    trail task.key (stamp phases tasks) = phases := by
  obtain ⟨before, later, rfl⟩ := List.append_of_mem member
  have split : stamp phases (before ++ task :: later) =
      stamp phases before ++ (stamp phases [task] ++ stamp phases later) := by simp [stamp]
  have own : trail task.key (stamp phases [task]) = phases := by
    simp [trail, stamp, List.filter_map, Function.comp_def]
  rw [List.map_append, List.map_cons, List.nodup_append] at distinct
  obtain ⟨_, fresh, apart⟩ := distinct
  rw [split, trail_append, trail_append, own,
    trail_stamp_absent fun earlier => apart _ earlier _ List.mem_cons_self rfl,
    trail_stamp_absent (List.nodup_cons.mp fresh).1, List.nil_append, List.append_nil]

/-- A phase for each task: only starts are counted as starts. -/
theorem startedKeys_stamp (phase : TaskPhase) (other : phase ≠ .started) (tasks : List Task) :
    startedKeys (stamp [phase] tasks) = [] ∧
      startedKeys (stamp [.started, phase] tasks) = tasks.map Task.key := by
  induction tasks with
  | nil => exact ⟨rfl, rfl⟩
  | cons task rest ih =>
    have split (phases : List TaskPhase) :
        stamp phases (task :: rest) = stamp phases [task] ++ stamp phases rest := by simp [stamp]
    rw [split, split, startedKeys_append, startedKeys_append, ih.1, ih.2]
    simp [startedKeys, stamp, other]

/-! ## What a run emits -/

namespace World

variable {S E H R : Type} {host : Host S E H}

/-- Code of the user sends no event by itself. -/
theorem act_marks {α : Type} (code : Action S E α) (world : World S H R) :
    (world.act code).2.marks = world.marks := rfl

/-- An event is logged with its mark. -/
theorem log_event (event : TaskEvent) (world : World S H R) :
    (world.log (.onTask event)).marks = world.marks ++ [(event.phase, event.key)] := by
  simp [log, marks, Call.mark?]

/-- Only calls of the monitor are events. -/
theorem log_silent {call : Call H R} (silent : call.mark? = none) (world : World S H R) :
    (world.log call).marks = world.marks := by
  simp [log, marks, silent]

/-- Closing a handle is no event. -/
theorem closeHandle_marks (handle : H) (world : World S H R) :
    (closeHandle host handle world).marks = world.marks := by
  rw [closeHandle]
  cases host.close handle with
  | none => rfl
  | some close => exact log_silent rfl world

/-- Nor is dropping handles. -/
theorem evict_marks (n : Nat) (world : World S H R) :
    (evict host n world).marks = world.marks := by
  induction n generalizing world with
  | zero => rfl
  | succ n ih =>
    rw [evict]
    cases world.resources.handles.popFirst with
    | none => rfl
    | some oldest =>
      obtain ⟨⟨_, handle⟩, rest⟩ := oldest
      rw [ih, closeHandle_marks]
      rfl

/-- Nor is asking for a file. -/
theorem openOnce_marks (uri : String) (opener : String → Action S E H) (world : World S H R) :
    (openOnce host uri opener world).2.marks = world.marks := by
  have asked : (world.log (.openOnce uri)).marks = world.marks := log_silent rfl world
  rw [openOnce]
  generalize world.log (.openOnce uri) = world' at asked
  cases world'.resources.handles.get? uri with
  | some handle => exact asked
  | none =>
    have kept := (act_marks (opener uri) world').trans asked
    cases opened : world'.act (opener uri) with
    | mk outcome after =>
      rw [opened] at kept
      cases outcome with
      | error e => exact kept
      | ok handle =>
        simp only [evict_marks]
        exact (log_silent rfl after).trans kept

/-- The user's code emits no events. -/
theorem exec_marks (script : Script S E H R) (world : World S H R) :
    (exec host script world).2.marks = world.marks := by
  induction script generalizing world with
  | finish outcome => rfl
  | step change next ih => exact ih _ _
  | openOnce uri opener next ih => rw [exec, ih, openOnce_marks]

/-- Nor is closing all handles at the end. -/
theorem closeAll_marks (world : World S H R) : (closeAll host world).marks = world.marks := by
  have closed (handles : List H) (world : World S H R) :
      (handles.foldl (fun world handle => closeHandle host handle world) world).marks =
        world.marks := by
    induction handles generalizing world with
    | nil => rfl
    | cons handle rest ih => rw [List.foldl_cons, ih, closeHandle_marks]
  exact closed _ world

end World

namespace SequentialRunner

variable {S E H R : Type} {host : Host S E H} {monitor : Monitor S E} {plan : Plan S E H R}

/-- Telling the monitor leaves one mark, whatever the monitor does. -/
theorem emit_marks (phase : TaskPhase) (task : Task) (error : Option String)
    (world : World S H R) :
    (emit host (some monitor) phase task error world).marks = world.marks ++ [(phase, task.key)] :=
  World.log_event _ _

/-- Submitting leaves one mark for each task, in their order. -/
theorem submit_marks (tasks : List Task) (world : World S H R) :
    (submit host (some monitor) tasks world).marks =
      world.marks ++ stamp [.submitted] tasks := by
  rw [submit]
  induction tasks generalizing world with
  | nil => simp [stamp]
  | cons task rest ih =>
    rw [List.foldl_cons, ih, emit_marks, List.append_assoc]
    rfl

/-! ## Which exceptions leave a task open -/

section Accounting

variable (host monitor plan)

/-- From here on no call of `combine` raises, and an exception of `process` has a
text. -/
def Accounted : List Task → R → World S H R → Prop
  | [], _, _ => True
  | task :: rest, value, world =>
    let world := emit host (some monitor) .started task none world
    match World.exec host (plan.process task.partition) (world.log (.process task.partition)) with
    | (.error e, world) => ∃ text, (world.act (host.str e)).1 = .ok text
    | (.ok leaf, world) =>
      match (world.log (.combine value leaf)).act (plan.combine value leaf) with
      | (.error _, _) => False
      | (.ok value, world) =>
        Accounted rest value (emit host (some monitor) .finished task none world)

/-- `Accounted` at the start of the tasks; `empty` may only raise when there are
none. -/
def RunAccounted (user : S) : Prop :=
  match ((start user : World S H R).log .empty).act plan.empty with
  | (.error _, _) => plan.tasks = []
  | (.ok value, world) =>
    Accounted host monitor plan (ordered plan.tasks) value
      (submit host (some monitor) (ordered plan.tasks) world)

end Accounting

/-- How the tasks of a run come to an end: all returned, one raised and this was
told, or the run was left before the end of a task was told. -/
inductive Ending where
  | returned
  | errored (task : Task) (rest : List Task)
  | abandoned (task : Task) (rest : List Task)

namespace Ending

/-- The tasks that were not finished, the one that ended the run among them. -/
def tasks : Ending → List Task
  | returned => []
  | errored task rest => task :: rest
  | abandoned task rest => task :: rest

/-- The events that are sent between the start of the last task and the end of the
run. -/
def marks : Ending → List Mark
  | returned => []
  | errored task _ => stamp [.started, .errored] [task]
  | abandoned task _ => stamp [.started] [task]

/-- Whether the run ends in an exception. -/
def Raised : Ending → Prop
  | returned => False
  | _ => True

/-- Whether every task that was started is told to have ended. Where combining
raises it is not told. -/
def Settled : Ending → Prop
  | abandoned _ _ => False
  | _ => True

end Ending

section Shape

variable {done rest : List Task} {current task : Task} {phases : List TaskPhase}

/-- The events of a run that does not return: finished tasks and one more, which
may lack its end. -/
def unfinished (done : List Task) (current : Task) (rest : List Task) (phases : List TaskPhase) :
    List Mark :=
  stamp [.submitted] (done ++ current :: rest) ++
    (stamp [.started, .finished] done ++ stamp phases [current])

/-- The trail of each task when the run ends inside of one. Tasks before it are
finished, tasks after it are only submitted, and it has the given phases. -/
theorem trail_unfinished (distinct : ((done ++ current :: rest).map Task.key).Nodup)
    (member : task ∈ done ++ current :: rest) :
    task.key ≠ current.key ∧ (trail task.key (unfinished done current rest phases) =
        [.submitted, .started, .finished] ∨
      trail task.key (unfinished done current rest phases) = [.submitted]) ∨
    task = current ∧ trail task.key (unfinished done current rest phases) = .submitted :: phases := by
  rw [unfinished, trail_append, trail_append, trail_stamp distinct _ member]
  rw [List.map_append, List.map_cons, List.nodup_append] at distinct
  obtain ⟨once, later, apart⟩ := distinct
  have after := (List.nodup_cons.mp later).1
  have absent {key : Int} (other : key ≠ current.key) : trail key (stamp phases [current]) = [] :=
    trail_stamp_absent (by simpa using other) phases
  rcases List.mem_append.mp member with earlier | later
  · have other : task.key ≠ current.key :=
      apart _ (List.mem_map_of_mem earlier) _ List.mem_cons_self
    rw [trail_stamp once _ earlier, absent other]
    exact Or.inl ⟨other, Or.inl rfl⟩
  · have fresh : task.key ∉ done.map Task.key := by
      intro earlier
      refine apart _ earlier task.key ?_ rfl
      rw [← List.map_cons]
      exact List.mem_map_of_mem later
    rw [trail_stamp_absent fresh]
    rcases List.mem_cons.mp later with rfl | last
    · have alone : trail task.key (stamp phases [task]) = phases :=
        @trail_stamp [task] (List.nodup_singleton task.key) _ _ (List.mem_singleton_self task)
      rw [alone]
      exact Or.inr ⟨rfl, rfl⟩
    · have other : task.key ≠ current.key := by
        intro same
        exact after (same ▸ List.mem_map_of_mem last)
      rw [absent other]
      exact Or.inl ⟨other, Or.inr rfl⟩

/-- The tasks that were started are those before the failing one, and this one. -/
theorem startedKeys_errored : startedKeys (unfinished done current rest [.started, .errored]) =
    done.map Task.key ++ [current.key] := by
  rw [unfinished, startedKeys_append, startedKeys_append,
    (startedKeys_stamp .submitted (by decide) _).1, (startedKeys_stamp .finished (by decide) _).2,
    (startedKeys_stamp .errored (by decide) _).2]
  rfl

end Shape

/-- The lives of the tasks are as they should be unless one is left. -/
theorem Ending.lifecycle_iff {done : List Task} {ending : Ending}
    (ascending : ((done ++ ending.tasks).map Task.key).Pairwise (· < ·)) :
    Lifecycle (done ++ ending.tasks) (stamp [.submitted] (done ++ ending.tasks) ++
      (stamp [.started, .finished] done ++ ending.marks)) ending.Raised ↔ ending.Settled := by
  have distinct : ((done ++ ending.tasks).map Task.key).Nodup := ascending.imp Int.ne_of_lt
  cases ending with
  | returned =>
    simp only [tasks, marks, List.append_nil] at ascending distinct ⊢
    refine iff_of_true ⟨fun task member => ?_, ?_⟩ trivial
    · rw [trail_append, trail_stamp distinct _ member, trail_stamp distinct _ member]
      exact .closed (Or.inl rfl) (iff_of_false (by decide) And.left)
    · rwa [startedKeys_append, (startedKeys_stamp .submitted (by decide) _).1,
        (startedKeys_stamp .finished (by decide) _).2]
  | errored current rest =>
    change Lifecycle _ (unfinished done current rest [.started, .errored]) _ ↔ _
    refine iff_of_true ⟨fun task member => ?_, ?_⟩ trivial
    · rw [startedKeys_errored, List.getLast?_concat, Option.some.injEq]
      rcases trail_unfinished distinct member with ⟨other, finished | waiting⟩ | ⟨rfl, errored⟩
      · rw [finished]
        exact .closed (Or.inl rfl) (iff_of_false (by decide) fun failed => other failed.2.symm)
      · rw [waiting]
        exact .waiting fun failed => other failed.2.symm
      · rw [errored]
        exact .closed (Or.inr rfl) (iff_of_true rfl ⟨trivial, rfl⟩)
    · rw [startedKeys_errored]
      refine ascending.sublist ?_
      simp [tasks]
  | abandoned current rest =>
    change Lifecycle _ (unfinished done current rest [.started]) _ ↔ _
    refine iff_of_false (fun lives => ?_) id
    have member : current ∈ done ++ current :: rest := by simp
    have life := lives.life current member
    rcases trail_unfinished distinct member with ⟨other, _⟩ | ⟨_, left⟩
    · exact other rfl
    · rw [left] at life
      exact TaskLife.not_left life

/-- Some tasks are finished, and then the run ends in one of three ways. -/
theorem work_marks (host : Host S E H) (monitor : Monitor S E) (plan : Plan S E H R)
    (tasks : List Task) (value : R) (n : Nat) (world : World S H R) :
    ∃ (done : List Task) (ending : Ending), tasks = done ++ ending.tasks ∧
      (work host (some monitor) plan tasks value n world).2.marks =
        world.marks ++ (stamp [.started, .finished] done ++ ending.marks) ∧
      ((∃ e, (work host (some monitor) plan tasks value n world).1 = .error e) ↔ ending.Raised) ∧
      (Accounted host monitor plan tasks value world ↔ ending.Settled) := by
  induction tasks generalizing value n world with
  | nil => exact ⟨[], .returned, rfl, (List.append_nil _).symm, by simp [work, Ending.Raised], Iff.rfl⟩
  | cons task rest ih =>
    have ran : (World.exec host (plan.process task.partition) ((emit host (some monitor) .started
        task none world).log (.process task.partition))).2.marks =
          world.marks ++ [(.started, task.key)] := by
      rw [World.exec_marks, World.log_silent rfl, emit_marks]
    rw [work, Accounted, attempt]
    cases exec : World.exec host (plan.process task.partition)
      ((emit host (some monitor) .started task none world).log (.process task.partition)) with
    | mk outcome after =>
      rw [exec] at ran
      cases outcome with
      | error e =>
        have kept := (World.act_marks (host.str e) after).trans ran
        cases rendered : after.act (host.str e) with
        | mk text later =>
          rw [rendered] at kept
          simp only [rendered]
          cases text with
          | error e' =>
            exact ⟨[], .abandoned task rest, rfl, kept, by simp [Ending.Raised],
              by simp [Ending.Settled]⟩
          | ok text =>
            refine ⟨[], .errored task rest, rfl, ?_, by simp [Ending.Raised],
              by simp [Ending.Settled]⟩
            simp only [emit_marks, kept, List.append_assoc]
            rfl
      | ok leaf =>
        have kept : ((after.log (.combine value leaf)).act (plan.combine value leaf)).2.marks =
            world.marks ++ [(.started, task.key)] :=
          (World.log_silent rfl after).trans ran
        cases combined : (after.log (.combine value leaf)).act (plan.combine value leaf) with
        | mk total later =>
          rw [combined] at kept
          simp only [combined]
          cases total with
          | error e =>
            exact ⟨[], .abandoned task rest, rfl, kept, by simp [Ending.Raised], Iff.rfl⟩
          | ok total =>
            obtain ⟨done, ending, split, marks, raised, accounted⟩ :=
              ih total (n + 1) (emit host (some monitor) .finished task none later)
            refine ⟨task :: done, ending, by rw [split]; rfl, ?_, raised, accounted⟩
            rw [emit_marks, kept] at marks
            simpa [stamp] using marks

/-- Tasks with distinct keys are run in ascending order. -/
theorem ordered_ascending {tasks : List Task} (distinct : (tasks.map Task.key).Nodup) :
    ((ordered tasks).map Task.key).Pairwise (· < ·) := by
  have perm := List.perm_insertionSort (fun a b : Task => a.key ≤ b.key) tasks
  have total : Std.Total (fun a b : Task => a.key ≤ b.key) := ⟨fun a b => Int.le_total _ _⟩
  have trans : IsTrans Task (fun a b => a.key ≤ b.key) := ⟨fun a b c => Int.le_trans⟩
  have sorted := List.pairwise_insertionSort (fun a b : Task => a.key ≤ b.key) tasks
  have fresh : ((ordered tasks).map Task.key).Nodup := (perm.map Task.key).nodup_iff.mpr distinct
  rw [List.pairwise_map]
  exact (sorted.and (List.pairwise_map.mp fresh)).imp fun pair => Int.lt_iff_le_and_ne.mpr pair

/-- The lives of the tasks are as they should be in exactly the runs that are
accounted for: those in which neither combining nor the text of an exception
raises. This is about the user's code, not about the events. -/
theorem run_lifecycle_iff (host : Host S E H) (monitor : Monitor S E) (plan : Plan S E H R)
    (user : S) (distinct : (plan.tasks.map Task.key).Nodup) :
    Lifecycle plan.tasks (run host (some monitor) plan user).2.marks
        (∃ e, (run host (some monitor) plan user).1 = .error e) ↔
      RunAccounted host monitor plan user := by
  have perm := List.perm_insertionSort (fun a b : Task => a.key ≤ b.key) plan.tasks
  have ascending := ordered_ascending distinct
  simp only [run, World.closeAll_marks]
  rw [← Lifecycle.perm_iff perm, body, RunAccounted]
  have begun : ((((start user : World S H R).log .empty).act plan.empty).2).marks = [] :=
    World.log_silent rfl _
  cases started : ((start user : World S H R).log .empty).act plan.empty with
  | mk outcome world =>
    rw [started] at begun
    cases outcome with
    | error e =>
      change Lifecycle (ordered plan.tasks) world.marks _ ↔ plan.tasks = []
      rw [begun]
      constructor
      · intro lives
        by_contra some_task
        obtain ⟨task, member⟩ := List.exists_mem_of_ne_nil _ some_task
        have life := lives.life task (perm.mem_iff.mpr member)
        exact absurd life.submitted (by simp [trail])
      · intro none
        rw [none]
        exact ⟨nofun, List.Pairwise.nil⟩
    | ok value =>
      obtain ⟨done, ending, split, marks, raised, accounted⟩ := work_marks host monitor plan
        (ordered plan.tasks) value 0 (submit host (some monitor) (ordered plan.tasks) world)
      rw [submit_marks, begun, List.nil_append] at marks
      change Lifecycle (ordered plan.tasks) (work host (some monitor) plan (ordered plan.tasks) value
        0 _).2.marks (∃ e, (work host (some monitor) plan (ordered plan.tasks) value 0 _).1 =
          .error e) ↔ Accounted host monitor plan (ordered plan.tasks) value _
      rw [accounted, raised, marks, split]
      exact Ending.lifecycle_iff (split ▸ ascending)

/-- A host whose clock stands still and whose handles need no closing. -/
def stillHost : Host Unit String Unit where
  perfCounter user := (0, user)
  typeName _ := "TypeError"
  str e user := (.ok e, user)
  close _ := none

/-- A monitor that does nothing, and raises nothing. -/
def stillMonitor : Monitor Unit String where
  onTask _ user := (.ok (), user)

/-- One task whose partial result does not fit the value it is combined with, so
that combining raises. -/
def misfitPlan : Plan Unit String Unit Int where
  process _ := .finish (.ok 1)
  combine _ _ user := (.error "unsupported operand type(s)", user)
  empty user := (.ok 0, user)
  tasks := [⟨0, ⟨"f.root", "Events", 0, 10, none, none⟩⟩]

/-- `combine` raises, and the task has no end, since it is called outside of the
`try`. -/
theorem combine_failure_leaves_task :
    (run stillHost (some stillMonitor) misfitPlan ()).2.marks = [(.submitted, 0), (.started, 0)] ∧
      ¬ Lifecycle misfitPlan.tasks (run stillHost (some stillMonitor) misfitPlan ()).2.marks
        (∃ e, (run stillHost (some stillMonitor) misfitPlan ()).1 = .error e) := by
  refine ⟨rfl, fun lives => ?_⟩
  exact TaskLife.not_left (lives.life _ List.mem_cons_self)

/-- A run whose first task fails is accounted for by its events. -/
theorem run_lifecycle_iff_of_misfit :
    Lifecycle misfitPlan.tasks (run stillHost (some stillMonitor) misfitPlan ()).2.marks
        (∃ e, (run stillHost (some stillMonitor) misfitPlan ()).1 = .error e) ↔
      RunAccounted stillHost stillMonitor misfitPlan () :=
  run_lifecycle_iff stillHost stillMonitor misfitPlan () (by decide)

end SequentialRunner

end GraphedCore.Execution
