import GraphedCore.Deployment
import GraphedCore.Observation
import GraphedCore.Resolve
import GraphedCore.Lib.Tiling

/-!
# What a run computes

When the user's code answers by its arguments alone, a run is a fold over the tasks in the
order of their keys, and the first exception ends it. When moreover the partial result of a
range is the combination of the partial results of its parts, the result of a run does not
depend on how the inputs were cut: into chunks of any size, or into blind steps of any number.
Whatever the user's code does, a file is opened once as long as the handles are not too many.
-/

namespace GraphedCore.Execution

variable {S E H R : Type}

/-! ## A run is a fold -/

/-- The user's code answers by its arguments, whatever its state, the handles and
the calls so far are. The text of an exception can be asked for. -/
structure Steady (host : Host S E H) (plan : Plan S E H R) (leaf : Partition → Except E R)
    (join : R → R → Except E R) (zero : Except E R) : Prop where
  process : ∀ x world, (World.exec host (plan.process x) world).1 = leaf x
  combine : ∀ value part user, (plan.combine value part user).1 = join value part
  empty : ∀ user, (plan.empty user).1 = zero
  shown : ∀ e user, ∃ text, (host.str e user).1 = .ok text

namespace SequentialRunner

variable {host : Host S E H} {plan : Plan S E H R} {leaf : Partition → Except E R}
  {join : R → R → Except E R} {zero : Except E R}

/-- Combine the partial results of the tasks, one after another. The first error
ends it. -/
def folded (leaf : Partition → Except E R) (join : R → R → Except E R) (tasks : List Task)
    (value : R) : Except E R :=
  tasks.foldlM (fun value task => (leaf task.partition).bind (join value)) value

/-- A task yields what the leaf does, whatever the monitor and the handles do. -/
theorem attempt_steady (steady : Steady host plan leaf join zero) (monitor : Option (Monitor S E))
    (task : Task) (world : World S H R) :
    (attempt host monitor plan task world).1 = leaf task.partition := by
  have answers := steady.process task.partition
    ((emit host monitor .started task none world).log (.process task.partition))
  rw [attempt]
  cases ran : World.exec host (plan.process task.partition)
      ((emit host monitor .started task none world).log (.process task.partition)) with
  | mk outcome after =>
    rw [ran] at answers
    cases outcome with
    | ok part => exact answers
    | error e =>
      obtain ⟨text, told⟩ := steady.shown e after.user
      have asked : (after.act (host.str e)).1 = .ok text := told
      dsimp only
      cases described : after.act (host.str e) with
      | mk spelled later =>
        rw [described] at asked
        dsimp only at asked
        rw [asked]
        exact answers

/-- The tasks still to be done, from the value and the number so far. -/
theorem work_steady (steady : Steady host plan leaf join zero) (monitor : Option (Monitor S E))
    (tasks : List Task) (value : R) (n : Nat) (world : World S H R) :
    (work host monitor plan tasks value n world).1 =
      (folded leaf join tasks value).map (fun value =>
        { value := value, nPartitions := n + tasks.length,
          nCombines := n + tasks.length - 1 }) := by
  induction tasks generalizing value n world with
  | nil => rfl
  | cons task rest ih =>
    have tried := attempt_steady steady monitor task world
    rw [work, folded, List.foldlM_cons]
    cases attempted : attempt host monitor plan task world with
    | mk outcome after =>
      rw [attempted] at tried
      dsimp only at tried
      rw [← tried]
      cases outcome with
      | error e => rfl
      | ok part =>
        have joined : ((after.log (.combine value part)).act (plan.combine value part)).1 =
            join value part := steady.combine value part after.user
        dsimp only
        cases combined : (after.log (.combine value part)).act (plan.combine value part) with
        | mk result later =>
          rw [combined] at joined
          dsimp only at joined
          cases result with
          | error e =>
            simp only [Except.bind, ← joined]
            rfl
          | ok next =>
            dsimp only
            rw [ih, List.length_cons]
            simp only [Except.bind, ← joined, Nat.add_assoc, Nat.add_comm 1]
            rfl

/-- A run yields the fold of the leaves in key order, or the first exception on
the way. -/
theorem run_steady (steady : Steady host plan leaf join zero) (monitor : Option (Monitor S E))
    (user : S) : (run host monitor plan user).1 =
      (zero.bind (folded leaf join (ordered plan.tasks))).map (fun value =>
        { value := value, nPartitions := plan.tasks.length,
          nCombines := plan.tasks.length - 1 }) := by
  have started : (((start user : World S H R).log .empty).act plan.empty).1 = zero :=
    steady.empty user
  rw [run, body]
  dsimp only
  cases emptied : ((start user : World S H R).log .empty).act plan.empty with
  | mk outcome world =>
    rw [emptied] at started
    dsimp only at started
    rw [← started]
    cases outcome with
    | error e => rfl
    | ok value =>
      dsimp only
      rw [work_steady steady, Nat.zero_add, show (ordered plan.tasks).length = plan.tasks.length
        from List.length_insertionSort _ _]
      rfl

/-- A run combines the partial results in the order of the keys, from the empty
result on. The first exception of the user's code is what the run raises, provided
that the text of an exception can be made. -/
theorem run_folds (host : Host S E H) (monitor : Option (Monitor S E)) (plan : Plan S E H R)
    {leaf : Partition → Except E R} {join : R → R → Except E R} {zero : Except E R}
    (steady : Steady host plan leaf join zero) (user : S) :
    (run host monitor plan user).1 =
      (zero.bind (folded leaf join (ordered plan.tasks))).map (fun value =>
        { value := value, nPartitions := plan.tasks.length,
          nCombines := plan.tasks.length - 1 }) :=
  run_steady steady monitor user

/-- The lengths of ranges; a range that starts past ten cannot be read. The tasks
are given against their key order. -/
def lengthPlan : Plan Nat String Nat Int where
  process x :=
    .finish (if 10 < x.entryStart then .error "past" else .ok (x.entryStop - x.entryStart))
  combine value part user := (.ok (value + part), user + 1)
  empty user := (.ok 0, user)
  tasks := [⟨7, ⟨"f", "t", 4, 9, none, none⟩⟩, ⟨3, ⟨"f", "t", 0, 4, none, none⟩⟩]

/-- Two tasks whose results are added in the order of their keys. -/
theorem run_folds_of_lengths : (run World.numbering none lengthPlan 0).1 =
    .ok { value := 9, nPartitions := 2, nCombines := 1 } := by
  have steady : Steady World.numbering lengthPlan
      (fun x => if 10 < x.entryStart then .error "past" else .ok (x.entryStop - x.entryStart))
      (fun value part => .ok (value + part)) (.ok 0) :=
    ⟨fun _ _ => rfl, fun _ _ _ => rfl, fun _ => rfl, fun e _ => ⟨e, rfl⟩⟩
  rw [run_folds World.numbering none lengthPlan steady 0]
  rfl

/-- Partial results that are all returned are multiplied up. -/
theorem folded_prod [Monoid R] {leaf : Partition → Except E R} {tasks : List Task} {parts : List R}
    (read : (tasks.map Task.partition).map leaf = parts.map .ok) (value : R) :
    folded leaf (fun value part => .ok (value * part)) tasks value = .ok (value * parts.prod) := by
  induction tasks generalizing parts value with
  | nil =>
    obtain rfl : parts = [] := List.map_eq_nil_iff.mp read.symm
    rw [List.prod_nil, mul_one]
    rfl
  | cons task rest ih =>
    cases parts with
    | nil => cases read
    | cons part later =>
      obtain ⟨first, others⟩ := List.cons.inj read
      rw [folded, List.foldlM_cons, first, List.prod_cons, ← mul_assoc]
      exact ih others (value * part)

end SequentialRunner

/-! ## However the inputs are cut -/

open GraphedCore.Plan (Dataset Chunks Holds partitionDatasets)

/-- The chunks of a dataset follow one another from its start to its end. -/
theorem chunks_tile {dataset : Dataset} {chunkSize start : Int} {parts : List Partition}
    (chunks : Chunks dataset chunkSize start parts) (inside : start ≤ dataset.nEvents) :
    Tiling.Tiles Partition.entryStart Partition.entryStop start dataset.nEvents parts := by
  induction parts generalizing start with
  | nil =>
    have ended : start = dataset.nEvents := by
      by_contra other
      obtain ⟨x, member, _⟩ := chunks.covers start le_rfl (lt_of_le_of_ne inside other)
      cases member
    rw [ended]
    exact .nil _
  | cons x rest ih =>
    obtain ⟨least, bound⟩ := chunks.within x List.mem_cons_self
    have forward := (chunks.sizes x List.mem_cons_self).1
    obtain ⟨follow, ascending⟩ := List.pairwise_cons.mp chunks.ascending
    have starts : x.entryStart = start := by
      obtain ⟨y, member, holds⟩ := chunks.covers start le_rfl (by omega)
      rcases List.mem_cons.mp member with rfl | later
      · exact le_antisymm holds.1 least
      · have apart := (follow y later).trans holds.1
        omega
    have others : Chunks dataset chunkSize x.entryStop rest := {
      names := fun y later => chunks.names y (List.mem_cons_of_mem x later)
      ranges := fun y later => chunks.ranges y (List.mem_cons_of_mem x later)
      within := fun y later =>
        ⟨follow y later, (chunks.within y (List.mem_cons_of_mem x later)).2⟩
      sizes := fun y later => chunks.sizes y (List.mem_cons_of_mem x later)
      ascending := ascending
      covers := fun entry lower upper => by
        obtain ⟨y, member, holds⟩ := chunks.covers entry (by omega) upper
        rcases List.mem_cons.mp member with rfl | later
        · exact absurd holds.2 (not_lt_of_ge lower)
        · exact ⟨y, later, holds⟩ }
    exact .cons starts (starts ▸ forward.le) (ih others bound)

/-- Into chunks of a size, or into a number of steps of files that are not open
yet. -/
inductive Cutting where
  | chunks (size : Int)
  | steps (nSteps : Int)

namespace Cutting

/-- All blind steps of a dataset, or the refusal of the first of them. -/
def blindSteps (nSteps : Int) (dataset : Dataset) : Except String (List Partition) :=
  (List.range nSteps.toNat).mapM
    (fun k : Nat => Partition.blind dataset.uri dataset.tree k nSteps)

/-- The partitions of datasets under a cutting: chunks of a size, or blind steps
of a number. -/
def parts (datasets : List Dataset) : Cutting → Option (Except String (List Partition))
  | .chunks size => partitionDatasets datasets size
  | .steps nSteps => some ((datasets.mapM (blindSteps nSteps)).map List.flatten)

/-- The chunk size or the number of steps is positive, as the source demands. -/
def Positive : Cutting → Prop
  | .chunks size => 1 ≤ size
  | .steps nSteps => 1 ≤ nSteps

end Cutting

/-- A partition of a known file is read as the range it resolves to, and what is
read of a range is what is read of its parts. -/
structure ReadsRanges [Monoid R] (leaf : Partition → Except E R)
    (entries : String → String → Int) (value : String → String → Int → Int → R) : Prop where
  reads : ∀ x y, x.resolve (entries x.uri x.tree) = some y →
    leaf x = .ok (value y.uri y.tree y.entryStart y.entryStop)
  additive : ∀ uri tree, Tiling.Additive (value uri tree)

section Cuttings

variable [Monoid R] {leaf : Partition → Except E R} {entries : String → String → Int}
  {value : String → String → Int → Int → R} {dataset : Dataset}

/-- The partial results of a block of partitions are those of a whole dataset, in
order. -/
def Covers (leaf : Partition → Except E R) (value : String → String → Int → Int → R)
    (dataset : Dataset) (block : List Partition) : Prop :=
  ∃ parts : List R, block.map leaf = parts.map .ok ∧
    parts.prod = value dataset.uri dataset.tree 0 dataset.nEvents

/-- The chunks of a dataset cover it. -/
theorem ReadsRanges.chunks (ranged : ReadsRanges leaf entries value) {chunkSize : Int}
    {block : List Partition} (chunks : Chunks dataset chunkSize 0 block)
    (nonneg : 0 ≤ dataset.nEvents) : Covers leaf value dataset block := by
  refine ⟨block.map (fun x => value dataset.uri dataset.tree x.entryStart x.entryStop), ?_,
    (chunks_tile chunks nonneg).prod (ranged.additive _ _)⟩
  rw [List.map_map]
  apply List.map_congr_left
  intro x member
  obtain ⟨uri, tree⟩ := chunks.names x member
  have whole : x.resolve (entries x.uri x.tree) = some x := by
    rw [Partition.resolve, (chunks.ranges x member).1]
  rw [ranged.reads x x whole, Function.comp_apply, uri, tree]

/-- The blind steps of a dataset cover it, once they are resolved. -/
theorem ReadsRanges.steps (ranged : ReadsRanges leaf entries value) {nSteps : Int}
    (positive : 1 ≤ nSteps) (nonneg : 0 ≤ dataset.nEvents)
    (known : entries dataset.uri dataset.tree = dataset.nEvents) :
    ∃ block, Cutting.blindSteps nSteps dataset = .ok block ∧ Covers leaf value dataset block := by
  have made {k : Nat} (member : k ∈ List.range nSteps.toNat) :
      Partition.blind dataset.uri dataset.tree k nSteps = .ok
        { uri := dataset.uri, tree := dataset.tree, blindStep := some (k : Int),
          blindNSteps := some nSteps } := by
    have below := List.mem_range.mp member
    exact Partition.blind_ok _ _ (Int.natCast_nonneg k) (by omega)
  refine ⟨_, Enumerate.mapM_eq_pure (fun k member => made member), ?_⟩
  refine ⟨(List.range nSteps.toNat).map (fun k : Nat => value dataset.uri dataset.tree
    (Evenly.cut dataset.nEvents nSteps k) (Evenly.cut dataset.nEvents nSteps (k + 1))), ?_, ?_⟩
  · rw [List.map_map, List.map_map]
    apply List.map_congr_left
    intro k member
    have resolved := @Partition.resolve_blind nSteps dataset.nEvents _ _ _ k positive (made member)
    rw [← known] at resolved
    rw [Function.comp_apply, Function.comp_apply, ranged.reads _ _ resolved]
    simp only [Partition.piece, known]
  · have less : (0 : Int) < nSteps := by omega
    have tiles := @Tiling.tiles_range Partition Partition.entryStart Partition.entryStop
      (Evenly.cut dataset.nEvents nSteps)
      (fun k => Evenly.cut_mono less nonneg (Nat.le_succ k))
      (Partition.piece dataset.uri dataset.tree nSteps dataset.nEvents) (fun _ => rfl)
      (fun _ => rfl) nSteps.toNat 0
    have product := tiles.prod (ranged.additive dataset.uri dataset.tree)
    rw [Evenly.cut_zero, Nat.zero_add, Evenly.cut_last less (by omega)] at product
    rw [← product, List.range_eq_range', List.map_map]
    rfl

/-- Blocks that cover their datasets yield the product of the datasets, one block
after another. -/
theorem covers_all {datasets : List Dataset} {blocks : List (List Partition)}
    (covered : List.Forall₂ (Covers leaf value) datasets blocks) :
    ∃ parts : List R, blocks.flatten.map leaf = parts.map .ok ∧
      parts.prod = (datasets.map (fun d => value d.uri d.tree 0 d.nEvents)).prod := by
  induction covered with
  | nil => exact ⟨[], rfl, rfl⟩
  | cons one _ ih =>
    obtain ⟨first, read, product⟩ := one
    obtain ⟨later, reads, products⟩ := ih
    refine ⟨first ++ later, ?_, ?_⟩
    · rw [List.flatten_cons, List.map_append, List.map_append, read, reads]
    · rw [List.prod_append, List.map_cons, List.prod_cons, product, products]

/-- Any cutting yields blocks that cover their datasets: chunks by their ranges,
blind steps by what they resolve to. -/
theorem ReadsRanges.cut (ranged : ReadsRanges leaf entries value) {datasets : List Dataset}
    (known : ∀ d ∈ datasets, 0 ≤ d.nEvents ∧ entries d.uri d.tree = d.nEvents)
    {cutting : Cutting} (positive : cutting.Positive) :
    ∃ blocks, cutting.parts datasets = some (.ok blocks.flatten) ∧
      List.Forall₂ (Covers leaf value) datasets blocks := by
  cases cutting with
  | chunks size =>
    obtain ⟨blocks, cut, chunked⟩ :=
      Plan.partitionDatasetsFrom_complete positive datasets []
    refine ⟨blocks, cut, ?_⟩
    have both := (List.forall₂_and_left _ _).mpr ⟨known, chunked⟩
    exact both.imp (fun d block facts => ranged.chunks facts.2 facts.1.1)
  | steps nSteps =>
    induction datasets with
    | nil => exact ⟨[], rfl, .nil⟩
    | cons dataset rest ih =>
      obtain ⟨nonneg, counted⟩ := known dataset List.mem_cons_self
      obtain ⟨block, made, covers⟩ := ranged.steps positive nonneg counted
      obtain ⟨blocks, cut, covered⟩ := ih (fun d member => known d (List.mem_cons_of_mem _ member))
      refine ⟨block :: blocks, ?_, .cons covers covered⟩
      rw [Cutting.parts, Option.some.injEq] at cut
      cases others : rest.mapM (Cutting.blindSteps nSteps) with
      | error message =>
        rw [others] at cut
        cases cut
      | ok made' =>
        rw [others] at cut
        have same : made'.flatten = blocks.flatten := Except.ok.inj cut
        rw [Cutting.parts, List.mapM_cons, made, others, List.flatten_cons, ← same]
        rfl

/-- The partitions of a cutting, in the order of their keys, are read whole. -/
theorem ReadsRanges.run (ranged : ReadsRanges leaf entries value) {host : Host S E H}
    (monitor : Option (Monitor S E)) {plan : Plan S E H R}
    (steady : Steady host plan leaf (fun value part => .ok (value * part)) (.ok 1))
    {datasets : List Dataset}
    (known : ∀ d ∈ datasets, 0 ≤ d.nEvents ∧ entries d.uri d.tree = d.nEvents)
    {cutting : Cutting} (positive : cutting.Positive) :
    ∃ parts, cutting.parts datasets = some (.ok parts) ∧
      ∀ tasks, (SequentialRunner.ordered tasks).map Task.partition = parts → ∀ user,
        (SequentialRunner.run host monitor { plan with tasks := tasks } user).1.map
            ExecResult.value =
          .ok (datasets.map (fun d => value d.uri d.tree 0 d.nEvents)).prod := by
  obtain ⟨blocks, cut, covered⟩ := ranged.cut known positive
  obtain ⟨parts, read, product⟩ := covers_all covered
  refine ⟨blocks.flatten, cut, fun tasks keyed user => ?_⟩
  have steady' : Steady host { plan with tasks := tasks } leaf
      (fun value part => .ok (value * part)) (.ok 1) :=
    ⟨steady.process, steady.combine, steady.empty, steady.shown⟩
  rw [← keyed] at read
  rw [SequentialRunner.run_steady steady', Except.bind, SequentialRunner.folded_prod read, one_mul,
    product]
  rfl

end Cuttings

/-- A run over datasets multiplies up what is read of them whole, however they are
cut and in whatever order the partitions are submitted under ascending keys.
Reading has to add up over ranges. -/
theorem run_recut [Monoid R] (host : Host S E H) (monitor : Option (Monitor S E))
    (plan : Plan S E H R) {leaf : Partition → Except E R}
    (steady : Steady host plan leaf (fun value part => .ok (value * part)) (.ok 1))
    {entries : String → String → Int} {value : String → String → Int → Int → R}
    (ranged : ReadsRanges leaf entries value) (datasets : List Dataset)
    (known : ∀ d ∈ datasets, 0 ≤ d.nEvents ∧ entries d.uri d.tree = d.nEvents)
    (cutting : Cutting) (positive : cutting.Positive) :
    ∃ parts, cutting.parts datasets = some (.ok parts) ∧
      ∀ tasks, (SequentialRunner.ordered tasks).map Task.partition = parts → ∀ user,
        (SequentialRunner.run host monitor { plan with tasks := tasks } user).1.map
            ExecResult.value =
          .ok (datasets.map (fun d => value d.uri d.tree 0 d.nEvents)).prod :=
  ranged.run monitor steady known positive

/-- The number of entries of a range, in a file of ten entries. Blind steps are
resolved first. -/
def countPlan : Plan Nat String Nat (Multiplicative Int) where
  process x := .finish (match x.resolve 10 with
    | some y => .ok (.ofAdd (y.entryStop - y.entryStart))
    | none => .error "no steps")
  combine value part user := (.ok (value * part), user)
  empty user := (.ok 1, user)

/-- Counting entries, once in chunks of three and once in four blind steps. -/
theorem run_recut_of_count : ∃ parts parts',
    (Cutting.chunks 3).parts [⟨"f", 10, "Events", ""⟩] = some (.ok parts) ∧
      (Cutting.steps 4).parts [⟨"f", 10, "Events", ""⟩] = some (.ok parts') ∧
      ∀ tasks tasks' : List Task, (SequentialRunner.ordered tasks).map Task.partition = parts →
        (SequentialRunner.ordered tasks').map Task.partition = parts' →
        (SequentialRunner.run World.numbering none { countPlan with tasks := tasks } 0).1.map
            ExecResult.value =
          (SequentialRunner.run World.numbering none { countPlan with tasks := tasks' } 5).1.map
            ExecResult.value := by
  have steady : Steady World.numbering countPlan
      (fun x => match x.resolve 10 with
        | some y => .ok (.ofAdd (y.entryStop - y.entryStart))
        | none => .error "no steps")
      (fun value part => .ok (value * part)) (.ok 1) :=
    ⟨fun _ _ => rfl, fun _ _ _ => rfl, fun _ => rfl, fun e _ => ⟨e, rfl⟩⟩
  have ranged : ReadsRanges (E := String)
      (fun x => match x.resolve 10 with
        | some y => .ok (.ofAdd (y.entryStop - y.entryStart))
        | none => .error "no steps")
      (fun _ _ => 10) (fun _ _ start stop => Multiplicative.ofAdd (stop - start)) := by
    refine ⟨fun x y resolved => by simp only [resolved], fun _ _ =>
      ⟨fun a => ?_, fun a b c _ _ => ?_⟩⟩
    · rw [sub_self, ofAdd_zero]
    · rw [← ofAdd_add]
      congr 1
      omega
  have known : ∀ d ∈ [(⟨"f", 10, "Events", ""⟩ : Dataset)], 0 ≤ d.nEvents ∧ 10 = d.nEvents := by
    decide
  obtain ⟨parts, cut, runs⟩ := run_recut World.numbering none countPlan steady ranged _ known
    (.chunks 3) (show (1 : Int) ≤ 3 by decide)
  obtain ⟨parts', cut', runs'⟩ := run_recut World.numbering none countPlan steady ranged _ known
    (.steps 4) (show (1 : Int) ≤ 4 by decide)
  exact ⟨parts, parts', cut, cut', fun tasks tasks' keyed keyed' =>
    (runs tasks keyed 0).trans (runs' tasks' keyed' 5).symm⟩

/-! ## Opening once -/

/-- The uri of a request for a handle, whether it is a hit or not. -/
def Call.requestedUri? : Call H R → Option String
  | .openOnce uri => some uri
  | _ => none

/-- The uri of an opener that returned a handle. -/
def Call.openedUri? : Call H R → Option String
  | .opened uri _ => some uri
  | _ => none

namespace World

variable {host : Host S E H} {world : World S H R}

/-- The files that were asked for, as often as they were. -/
def requestedUris (world : World S H R) : List String := world.calls.filterMap Call.requestedUri?

/-- The files that were opened, as often as they were. -/
def openedUris (world : World S H R) : List String := world.calls.filterMap Call.openedUri?

/-- As long as no more uris were asked for than handles are kept, a uri was opened
at most once, and the handles are those of the opened uris. -/
structure Sparing (world : World S H R) : Prop where
  asked : world.openedUris ⊆ world.requestedUris
  kept : world.requestedUris.dedup.length ≤ world.resources.maxOpen →
    world.openedUris.Nodup ∧ world.cachedUris.Perm world.openedUris

/-- A call that neither asks for a handle nor opens one. Such calls leave the
cache alone. -/
def Plain (call : Call H R) : Prop := call.requestedUri? = none ∧ call.openedUri? = none

/-- Whether files were opened sparingly is a matter of what is held, asked for and
opened. -/
theorem Sparing.of_same {after : World S H R} (sparing : world.Sparing)
    (resources : after.resources = world.resources)
    (requested : after.requestedUris = world.requestedUris)
    (opened : after.openedUris = world.openedUris) : after.Sparing := by
  refine ⟨?_, ?_⟩
  · rw [requested, opened]
    exact sparing.asked
  · rw [requested, opened, cachedUris, resources]
    exact sparing.kept

/-- A plain call asks for no file. -/
theorem requestedUris_log (world : World S H R) {call : Call H R} (plain : Plain call) :
    (world.log call).requestedUris = world.requestedUris := by
  simp [requestedUris, World.log, plain.1]

/-- A plain call opens no file. -/
theorem openedUris_log (world : World S H R) {call : Call H R} (plain : Plain call) :
    (world.log call).openedUris = world.openedUris := by
  simp [openedUris, World.log, plain.2]

/-- Noting a plain call opens nothing. -/
theorem Sparing.log (sparing : world.Sparing) {call : Call H R} (plain : Plain call) :
    (world.log call).Sparing :=
  sparing.of_same rfl (requestedUris_log world plain) (openedUris_log world plain)

/-- Closing is neither asking nor opening. -/
theorem closeHandle_uris (host : Host S E H) (handle : H) (world : World S H R) :
    (closeHandle host handle world).requestedUris = world.requestedUris ∧
      (closeHandle host handle world).openedUris = world.openedUris := by
  have plain : Plain (Call.close handle : Call H R) := ⟨rfl, rfl⟩
  rw [closeHandle]
  cases host.close handle with
  | none => exact ⟨rfl, rfl⟩
  | some close => exact ⟨requestedUris_log world plain, openedUris_log world plain⟩

/-- Dropping handles asks for no file and opens none. -/
theorem evict_uris (host : Host S E H) (n : Nat) (world : World S H R) :
    (evict host n world).requestedUris = world.requestedUris ∧
      (evict host n world).openedUris = world.openedUris := by
  induction n generalizing world with
  | zero => exact ⟨rfl, rfl⟩
  | succ n ih =>
    rw [evict]
    cases world.resources.handles.popFirst with
    | none => exact ⟨rfl, rfl⟩
    | some popped =>
      obtain ⟨⟨uri, handle⟩, rest⟩ := popped
      obtain ⟨requested, opened⟩ := ih (closeHandle host handle
        { world with resources := { world.resources with handles := rest } })
      obtain ⟨requested', opened'⟩ := closeHandle_uris host handle
        { world with resources := { world.resources with handles := rest } }
      exact ⟨requested.trans requested', opened.trans opened'⟩

/-- A request for a handle, as it is seen in the uris. -/
theorem openOnce_uris (host : Host S E H) (uri : String) (opener : String → Action S E H)
    (world : World S H R) :
    let after := (World.openOnce host uri opener world).2
    after.requestedUris = world.requestedUris ++ [uri] ∧
      after.resources.maxOpen = world.resources.maxOpen ∧
      ((∃ handle, world.resources.handles.get? uri = some handle ∧
          after.openedUris = world.openedUris ∧
          after.resources.handles = world.resources.handles.put uri handle) ∨
        (after.openedUris = world.openedUris ∧
          after.resources.handles = world.resources.handles) ∨
        ∃ handle, world.resources.handles.get? uri = none ∧
          after.openedUris = world.openedUris ++ [uri] ∧
          after.resources.handles.entries =
            (world.resources.handles.put uri handle).entries.rtake world.resources.maxOpen) := by
  have asks : (world.log (.openOnce uri)).requestedUris = world.requestedUris ++ [uri] := by
    simp [requestedUris, World.log, Call.requestedUri?]
  have opens : (world.log (.openOnce uri)).openedUris = world.openedUris := by
    simp [openedUris, World.log, Call.openedUri?]
  dsimp only
  rw [World.openOnce]
  dsimp only
  cases found : (world.log (.openOnce uri)).resources.handles.get? uri with
  | some handle => exact ⟨asks, rfl, Or.inl ⟨handle, found, opens, rfl⟩⟩
  | none =>
    cases ran : (world.log (.openOnce uri)).act (opener uri) with
    | mk outcome acted =>
      have same : acted = ((world.log (.openOnce uri)).act (opener uri)).2 := by rw [ran]
      cases outcome with
      | error e =>
        rw [same]
        exact ⟨asks, rfl, Or.inr (Or.inl ⟨opens, rfl⟩)⟩
      | ok handle =>
        dsimp only
        have entered : (acted.log (.opened uri handle)).requestedUris =
              world.requestedUris ++ [uri] ∧
            (acted.log (.opened uri handle)).openedUris = world.openedUris ++ [uri] := by
          rw [same, ← asks, ← opens]
          exact ⟨by simp [requestedUris, World.log, World.act, Call.requestedUri?],
            by simp [openedUris, World.log, World.act, Call.openedUri?, List.filterMap_cons]⟩
        have held : acted.resources = world.resources := by
          rw [same]
          rfl
        obtain ⟨entries, bound, _⟩ := evict_cases host
          ((acted.resources.handles.put uri handle).entries.length - acted.resources.maxOpen)
          { acted.log (.opened uri handle) with resources :=
            { acted.resources with
              handles := acted.resources.handles.put uri handle
              openCount := acted.resources.openCount + 1 } }
        obtain ⟨requested, opened⟩ := evict_uris host
          ((acted.resources.handles.put uri handle).entries.length - acted.resources.maxOpen)
          { acted.log (.opened uri handle) with resources :=
            { acted.resources with
              handles := acted.resources.handles.put uri handle
              openCount := acted.resources.openCount + 1 } }
        refine ⟨requested.trans entered.1, bound.trans ?_,
          Or.inr (Or.inr ⟨handle, found, opened.trans entered.2, entries.trans ?_⟩)⟩
        · exact congrArg (fun resources => resources.maxOpen) held
        · rw [held, List.rtake]

/-- Asking once more shows no fewer uris. -/
theorem dedup_concat_le (uris : List String) (uri : String) :
    uris.dedup.length ≤ (uris ++ [uri]).dedup.length := by
  apply List.Subperm.length_le
  apply (List.nodup_dedup uris).subperm
  intro x member
  rw [List.mem_dedup] at member ⊢
  exact List.mem_append_left _ member

/-- A uri that was opened is cached, so one that is opened now is new, and there
is room for it. -/
theorem Sparing.openOnce (sparing : world.Sparing) (uri : String)
    (opener : String → Action S E H) : (World.openOnce host uri opener world).2.Sparing := by
  obtain ⟨asks, bound, cases⟩ := openOnce_uris host uri opener world
  have asked : world.openedUris ⊆ world.requestedUris ++ [uri] :=
    fun x member => List.mem_append_left _ (sparing.asked member)
  have before (few : (world.requestedUris ++ [uri]).dedup.length ≤ world.resources.maxOpen) :=
    sparing.kept ((dedup_concat_le world.requestedUris uri).trans few)
  rcases cases with
    ⟨handle, found, opens, handles⟩ | ⟨opens, handles⟩ | ⟨handle, absent, opens, entries⟩
  · refine ⟨by rw [asks, opens]; exact asked, ?_⟩
    rw [asks, opens, bound, cachedUris, handles]
    intro few
    obtain ⟨once, kept⟩ := before few
    exact ⟨once, ((OrderedDict.put_perm found).map Prod.fst).trans kept⟩
  · refine ⟨by rw [asks, opens]; exact asked, ?_⟩
    rw [asks, opens, bound, cachedUris, handles]
    exact before
  · have included : world.openedUris ++ [uri] ⊆ world.requestedUris ++ [uri] := by
      intro x member
      rcases List.mem_append.mp member with old | new
      · exact asked old
      · exact List.mem_append_right _ new
    refine ⟨by rw [asks, opens]; exact included, ?_⟩
    rw [asks, opens, bound, cachedUris, entries]
    intro few
    obtain ⟨once, kept⟩ := before few
    have fresh : uri ∉ world.openedUris := by
      intro old
      exact (OrderedDict.get?_eq_none_iff _ uri).mp absent (kept.mem_iff.mpr old)
    have distinct : (world.openedUris ++ [uri]).Nodup := by
      rw [List.nodup_append]
      refine ⟨once, List.nodup_singleton uri, ?_⟩
      rintro x old y new rfl
      exact fresh (List.mem_singleton.mp new ▸ old)
    have keys : ((world.resources.handles.put uri handle).entries.map Prod.fst).Perm
        (world.openedUris ++ [uri]) := by
      rw [OrderedDict.put_entries, OrderedDict.erase_absent absent, List.map_append]
      exact kept.append_right [uri]
    have room : (world.resources.handles.put uri handle).entries.length ≤
        world.resources.maxOpen := by
      have shown : (world.openedUris ++ [uri]).length ≤
          (world.requestedUris ++ [uri]).dedup.length := by
        apply List.Subperm.length_le
        apply distinct.subperm
        intro x member
        exact List.mem_dedup.mpr (included member)
      rw [← List.length_map Prod.fst, keys.length_eq]
      exact shown.trans few
    rw [List.rtake, Nat.sub_eq_zero_of_le room, List.drop_zero]
    exact ⟨distinct, keys⟩

end World

/-! ## What a run keeps -/

/-- A property of worlds that code of the user, calls other than those about
handles, and requests for handles keep. -/
structure Kept (host : Host S E H) (P : World S H R → Prop) : Prop where
  user : ∀ world s, P world → P { world with user := s }
  log : ∀ (world : World S H R) call, World.Plain call → P world → P (world.log call)
  openOnce : ∀ (world : World S H R) uri opener, P world → P (world.openOnce host uri opener).2

namespace Kept

variable {host : Host S E H} {monitor : Option (Monitor S E)} {plan : Plan S E H R}
  {P : World S H R → Prop} {world : World S H R}

/-- Code of the user that touches no handle keeps what is kept by the host. -/
theorem act {α : Type} (kept : Kept host P) (holds : P world) (code : Action S E α) :
    P (world.act code).2 :=
  kept.user world _ holds

/-- A script keeps what its steps keep, by induction on them. It has no other way
to act. -/
theorem exec (kept : Kept host P) (script : Script S E H R) (holds : P world) :
    P (World.exec host script world).2 := by
  induction script generalizing world with
  | finish outcome => exact holds
  | step change next ih => exact ih _ (kept.user world _ holds)
  | openOnce uri opener next ih => exact ih _ (kept.openOnce world uri opener holds)

/-- Sending an event keeps it. -/
theorem emit (kept : Kept host P) (holds : P world) (phase : TaskPhase) (task : Task)
    (error : Option String) :
    P (SequentialRunner.emit host monitor phase task error world) := by
  have timed : P { world with user := (host.perfCounter world.user).2 } := kept.user world _ holds
  cases monitor with
  | none => exact timed
  | some monitor => exact kept.act (kept.log _ _ ⟨rfl, rfl⟩ timed) _

/-- A task keeps it. -/
theorem attempt (kept : Kept host P) (holds : P world) (task : Task) :
    P (SequentialRunner.attempt host monitor plan task world).2 := by
  have started : P (SequentialRunner.emit host monitor .started task none world) :=
    kept.emit holds .started task none
  have ran := kept.exec (plan.process task.partition)
    (kept.log _ (.process task.partition) ⟨rfl, rfl⟩ started)
  rw [SequentialRunner.attempt]
  cases result : World.exec host (plan.process task.partition)
    ((SequentialRunner.emit host monitor .started task none world).log
      (.process task.partition)) with
  | mk outcome after =>
    rw [result] at ran
    cases outcome with
    | ok leaf => exact ran
    | error e =>
      have told := kept.act ran (host.str e)
      cases rendered : after.act (host.str e) with
      | mk text later =>
        rw [rendered] at told
        simp only [rendered]
        cases text with
        | error e' => exact told
        | ok text => exact kept.emit told _ _ _

/-- The loop over the tasks keeps it, by induction on them. -/
theorem work (kept : Kept host P) (tasks : List Task) (value : R) (n : Nat) (holds : P world) :
    P (SequentialRunner.work host monitor plan tasks value n world).2 := by
  induction tasks generalizing value n world with
  | nil => exact holds
  | cons task rest ih =>
    have attempted : P (SequentialRunner.attempt host monitor plan task world).2 :=
      kept.attempt holds task
    rw [SequentialRunner.work]
    cases result : SequentialRunner.attempt host monitor plan task world with
    | mk outcome after =>
      rw [result] at attempted
      cases outcome with
      | error e => exact attempted
      | ok leaf =>
        have combined := kept.act (kept.log _ (.combine value leaf) ⟨rfl, rfl⟩ attempted)
          (plan.combine value leaf)
        cases added : (after.log (.combine value leaf)).act (plan.combine value leaf) with
        | mk outcome later =>
          rw [added] at combined
          simp only [added]
          cases outcome with
          | error e => exact combined
          | ok total => exact ih total (n + 1) (kept.emit combined _ _ _)

/-- Submitting keeps it. -/
theorem submit (kept : Kept host P) (tasks : List Task) (holds : P world) :
    P (SequentialRunner.submit host monitor tasks world) := by
  rw [SequentialRunner.submit]
  induction tasks generalizing world with
  | nil => exact holds
  | cons task rest ih => exact ih (kept.emit holds _ _ _)

/-- What holds at the start of a run holds when its handles are about to be
closed. -/
theorem body (kept : Kept host P) (holds : P world) :
    P (SequentialRunner.body host monitor plan world).2 := by
  have emptied := kept.act (kept.log _ .empty ⟨rfl, rfl⟩ holds) plan.empty
  rw [SequentialRunner.body]
  cases result : (world.log .empty).act plan.empty with
  | mk outcome after =>
    rw [result] at emptied
    cases outcome with
    | error e => exact emptied
    | ok value => exact kept.work _ value 0 (kept.submit _ emptied)

end Kept

end GraphedCore.Execution
