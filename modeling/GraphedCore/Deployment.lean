import GraphedCore.TaskIds

/-!
# Deployments

A plan is compiled once and run on many datasets. A dataset is cut into contiguous
chunks; the loop that cuts it is given a budget of rounds, and `none` models a loop that
does not end within it. The last chunk is the one that is cut short, so the chunks meet
without a gap or an overlap, and no two partitions of a deployment are equal.
-/

namespace GraphedCore.Plan

open Execution

/-- A named input, by reference and length. The length is what the caller says. -/
structure Dataset where
  uri : String
  nEvents : Int
  tree : String := "Events"
  name : String := ""
deriving DecidableEq

/-- The loop over the chunks from `start` on. Each round moves the start, so as
many rounds as entries are enough. -/
def partitionFrom (dataset : Dataset) (chunkSize : Int) : Nat → Int → Option (List Partition)
  | rounds, start =>
    if start < dataset.nEvents then
      match rounds with
      | 0 => none
      | rounds + 1 =>
        let stop := min (start + chunkSize) dataset.nEvents
        (partitionFrom dataset chunkSize rounds stop).map
          ({ uri := dataset.uri, tree := dataset.tree, entryStart := start, entryStop := stop } :: ·)
    else some []

/-- Split a dataset into half-open chunks of at most `chunkSize` entries. A size
that is not positive is refused. -/
def partitionDataset (dataset : Dataset) (chunkSize : Int) :
    Option (Except String (List Partition)) :=
  if chunkSize ≤ 0 then some (.error "chunk_size must be positive")
  else (partitionFrom dataset chunkSize dataset.nEvents.toNat 0).map .ok

/-- Split several datasets, behind the partitions of those before. The first
refusal ends it. -/
def partitionDatasetsFrom (chunkSize : Int) :
    List Dataset → List Partition → Option (Except String (List Partition))
  | [], out => some (.ok out)
  | dataset :: rest, out => do
    match ← partitionDataset dataset chunkSize with
    | .error message => some (.error message)
    | .ok parts => partitionDatasetsFrom chunkSize rest (out ++ parts)

/-- Every dataset is cut, in order, and the pieces are listed one after
another. -/
def partitionDatasets (datasets : List Dataset) (chunkSize : Int) :
    Option (Except String (List Partition)) :=
  partitionDatasetsFrom chunkSize datasets []

namespace DurablePlan

/-- The same computation over other partitions. Nothing else in the plan
changes. -/
def withPartitions (plan : DurablePlan) (partitions : List Partition) : DurablePlan :=
  { plan with partitions := partitions }

/-- The plan over the pieces of one dataset, or the refusal of the chunk size. -/
def forDataset (plan : DurablePlan) (dataset : Dataset) (chunkSize : Int) :
    Option (Except String DurablePlan) :=
  (partitionDataset dataset chunkSize).map (Except.map plan.withPartitions)

/-- The plan over the pieces of several datasets, or the refusal of the chunk
size. -/
def forDatasets (plan : DurablePlan) (datasets : List Dataset) (chunkSize : Int) :
    Option (Except String DurablePlan) :=
  (partitionDatasets datasets chunkSize).map (Except.map plan.withPartitions)

end DurablePlan

/-! ## One dataset -/

/-- An entry of the range of a partition. Ranges are half-open. -/
def Holds (x : Partition) (entry : Int) : Prop := x.entryStart ≤ entry ∧ entry < x.entryStop

/-- The chunks of a dataset from `start` on, each within the dataset, none empty
or too long, in ascending order, and without a gap. -/
structure Chunks (dataset : Dataset) (chunkSize start : Int) (parts : List Partition) : Prop where
  names : ∀ x ∈ parts, x.uri = dataset.uri ∧ x.tree = dataset.tree
  ranges : ∀ x ∈ parts, x.blindStep = none ∧ x.blindNSteps = none
  within : ∀ x ∈ parts, start ≤ x.entryStart ∧ x.entryStop ≤ dataset.nEvents
  sizes : ∀ x ∈ parts, x.entryStart < x.entryStop ∧ x.entryStop - x.entryStart ≤ chunkSize
  ascending : parts.Pairwise (fun x y => x.entryStop ≤ y.entryStart)
  covers : ∀ entry, start ≤ entry → entry < dataset.nEvents → ∃ x ∈ parts, Holds x entry

variable {dataset : Dataset} {chunkSize : Int}

/-- Nothing is left to cut. -/
theorem chunks_nil {start : Int} (done : dataset.nEvents ≤ start) :
    Chunks dataset chunkSize start [] where
  names := nofun
  ranges := nofun
  within := nofun
  sizes := nofun
  ascending := .nil
  covers _ lower upper := absurd (lower.trans_lt upper) (Int.not_lt.mpr done)

/-- A piece of at most the chunk size before the pieces of what is left. -/
theorem Chunks.cons {start stop : Int} {parts : List Partition}
    (chunks : Chunks dataset chunkSize stop parts) (less : start < stop)
    (small : stop - start ≤ chunkSize) (inside : stop ≤ dataset.nEvents) :
    Chunks dataset chunkSize start
      ({ uri := dataset.uri, tree := dataset.tree, entryStart := start, entryStop := stop } ::
        parts) where
  names := List.forall_mem_cons.mpr ⟨⟨rfl, rfl⟩, chunks.names⟩
  ranges := List.forall_mem_cons.mpr ⟨⟨rfl, rfl⟩, chunks.ranges⟩
  within := List.forall_mem_cons.mpr ⟨⟨le_rfl, inside⟩, fun x member =>
    ⟨less.le.trans (chunks.within x member).1, (chunks.within x member).2⟩⟩
  sizes := List.forall_mem_cons.mpr ⟨⟨less, small⟩, chunks.sizes⟩
  ascending := List.pairwise_cons.mpr
    ⟨fun x member => (chunks.within x member).1, chunks.ascending⟩
  covers entry lower upper := by
    by_cases first : entry < stop
    · exact ⟨_, List.mem_cons_self, lower, first⟩
    · obtain ⟨x, member, holds⟩ := chunks.covers entry (Int.not_lt.mp first) upper
      exact ⟨x, List.mem_cons_of_mem _ member, holds⟩

/-- A round takes at least one entry, so a budget of the entries is enough. -/
theorem partitionFrom_complete (positive : 0 < chunkSize) (rounds : Nat) (start : Int)
    (budget : dataset.nEvents ≤ start + rounds) :
    ∃ parts, partitionFrom dataset chunkSize rounds start = some parts ∧
      Chunks dataset chunkSize start parts := by
  induction rounds generalizing start with
  | zero =>
    have done : dataset.nEvents ≤ start := by simpa using budget
    exact ⟨[], by rw [partitionFrom, if_neg (Int.not_lt.mpr done)], chunks_nil done⟩
  | succ rounds ih =>
    by_cases less : start < dataset.nEvents
    · obtain ⟨parts, later, chunks⟩ := ih (min (start + chunkSize) dataset.nEvents) (by omega)
      refine ⟨_, ?_, chunks.cons ?_ ?_ (min_le_right _ _)⟩
      · rw [partitionFrom, if_pos less]
        exact congrArg (Option.map _) later
      · omega
      · omega
    · exact ⟨[], by rw [partitionFrom, if_neg less], chunks_nil (Int.not_lt.mp less)⟩

/-- The loop ends when the chunk size is positive: each round moves the start
forward. The induction is on the entries that are left. -/
theorem partitionDataset_complete (dataset : Dataset) (positive : 0 < chunkSize) :
    ∃ parts, partitionDataset dataset chunkSize = some (.ok parts) ∧
      Chunks dataset chunkSize 0 parts := by
  have budget : dataset.nEvents ≤ 0 + dataset.nEvents.toNat := by omega
  obtain ⟨parts, cut, chunks⟩ := partitionFrom_complete positive dataset.nEvents.toNat 0 budget
  exact ⟨parts, by rw [partitionDataset, if_neg (Int.not_le.mpr positive), cut]; rfl, chunks⟩

/-! ## Several datasets -/

/-- The loop over the datasets, by induction on them, with the pieces that are
listed already. -/
theorem partitionDatasetsFrom_complete (positive : 0 < chunkSize) (datasets : List Dataset)
    (out : List Partition) : ∃ blocks,
      partitionDatasetsFrom chunkSize datasets out = some (.ok (out ++ blocks.flatten)) ∧
      List.Forall₂ (fun dataset block => Chunks dataset chunkSize 0 block) datasets blocks := by
  induction datasets generalizing out with
  | nil => exact ⟨[], by rw [partitionDatasetsFrom, List.flatten_nil, List.append_nil], .nil⟩
  | cons dataset rest ih =>
    obtain ⟨parts, cut, chunks⟩ := partitionDataset_complete dataset positive
    obtain ⟨blocks, later, all⟩ := ih (out ++ parts)
    refine ⟨parts :: blocks, ?_, .cons chunks all⟩
    rw [partitionDatasetsFrom, cut, List.flatten_cons, ← List.append_assoc]
    exact later

/-- Of two partitions the first ends before the second begins, or they are of
different datasets. -/
def Apart (x y : Partition) : Prop :=
  (x.uri, x.tree) ≠ (y.uri, y.tree) ∨ x.entryStop ≤ y.entryStart

/-- Pieces of different datasets differ in the file or the tree, and pieces of one
dataset in their ranges. -/
theorem blocks_apart {datasets : List Dataset} {blocks : List (List Partition)}
    (distinct : datasets.Pairwise (fun d d' => (d.uri, d.tree) ≠ (d'.uri, d'.tree)))
    (chunked : List.Forall₂ (fun dataset block => Chunks dataset chunkSize 0 block) datasets
      blocks) : blocks.flatten.Pairwise Apart := by
  induction chunked with
  | nil => exact .nil
  | @cons dataset block datasets blocks chunks rest ih =>
    obtain ⟨first, others⟩ := List.pairwise_cons.mp distinct
    rw [List.flatten_cons, List.pairwise_append]
    refine ⟨chunks.ascending.imp Or.inr, ih others, fun x here y later => Or.inl ?_⟩
    obtain ⟨block', member, inside⟩ := List.mem_flatten.mp later
    obtain ⟨dataset', known, chunks'⟩ := Enumerate.forall₂_partner rest.flip member
    obtain ⟨uri, tree⟩ := chunks.names x here
    obtain ⟨uri', tree'⟩ := chunks'.names y inside
    rw [uri, tree, uri', tree']
    exact first dataset' known

/-- Two partitions of one dataset that hold one entry stand at one place. -/
theorem holds_once {parts : List Partition} (apart : parts.Pairwise Apart) {k l : Nat}
    {x y : Partition} (first : parts[k]? = some x) (second : parts[l]? = some y)
    (same : (x.uri, x.tree) = (y.uri, y.tree)) {entry : Int} (holds : Holds x entry)
    (holds' : Holds y entry) : k = l := by
  have before {k l : Nat} {x y : Partition} (first : parts[k]? = some x)
      (second : parts[l]? = some y) (same : (x.uri, x.tree) = (y.uri, y.tree))
      (holds : Holds x entry) (holds' : Holds y entry) : ¬ k < l := by
    intro less
    obtain ⟨inside, rfl⟩ := List.getElem?_eq_some_iff.mp first
    obtain ⟨inside', rfl⟩ := List.getElem?_eq_some_iff.mp second
    rcases List.pairwise_iff_getElem.mp apart k l inside inside' less with different | ends
    · exact different same
    · exact absurd (holds.2.trans_le (ends.trans holds'.1)) (lt_irrefl entry)
  have above := before first second same holds holds'
  have below := before second first same.symm holds' holds
  omega

/-- For datasets that differ in uri or tree and a positive chunk size the loop
ends. Each dataset has its chunks, in the order of the datasets; every entry is in
the range of exactly one partition of its dataset; no partition is empty or too
long; and under one plan no two partitions have one task id. -/
theorem partitionDatasets_covers {datasets : List Dataset} {chunkSize : Int}
    (distinct : datasets.Pairwise (fun d d' => (d.uri, d.tree) ≠ (d'.uri, d'.tree)))
    (positive : 1 ≤ chunkSize) :
    ∃ parts blocks, partitionDatasets datasets chunkSize = some (.ok parts) ∧
      parts = blocks.flatten ∧
      List.Forall₂ (fun dataset block => Chunks dataset chunkSize 0 block) datasets blocks ∧
      (∀ dataset ∈ datasets, ∀ entry, 0 ≤ entry → entry < dataset.nEvents →
        ∃! k : Nat, ∃ x, parts[k]? = some x ∧ x.uri = dataset.uri ∧ x.tree = dataset.tree ∧
          Holds x entry) ∧
      (∀ x ∈ parts, x.entryStart < x.entryStop ∧ x.entryStop - x.entryStart ≤ chunkSize) ∧
      ∀ plan : DurablePlan,
        plan.forDatasets datasets chunkSize = some (.ok (plan.withPartitions parts)) ∧
        ∀ lib : Library, Function.Injective lib.sha256 → ∀ (k l : Nat) x y a b, parts[k]? = some x →
          parts[l]? = some y → k ≠ l → plan.taskId lib x = some a →
          plan.taskId lib y = some b → a ≠ b := by
  obtain ⟨blocks, cut, chunked⟩ := partitionDatasetsFrom_complete positive datasets []
  rw [List.nil_append, ← partitionDatasets] at cut
  have apart := blocks_apart distinct chunked
  have owned {x : Partition} (member : x ∈ blocks.flatten) :
      ∃ dataset block, Chunks dataset chunkSize 0 block ∧ x ∈ block := by
    obtain ⟨block, listed, inside⟩ := List.mem_flatten.mp member
    obtain ⟨dataset, _, chunks⟩ := Enumerate.forall₂_partner chunked.flip listed
    exact ⟨dataset, block, chunks, inside⟩
  refine ⟨blocks.flatten, blocks, cut, rfl, chunked, ?_, ?_, ?_⟩
  · intro dataset known entry lower upper
    obtain ⟨block, listed, chunks⟩ := Enumerate.forall₂_partner chunked known
    obtain ⟨x, inside, holds⟩ := chunks.covers entry lower upper
    obtain ⟨uri, tree⟩ := chunks.names x inside
    obtain ⟨k, lookup⟩ := List.mem_iff_getElem?.mp (List.mem_flatten.mpr ⟨block, listed, inside⟩)
    refine ⟨k, ⟨x, lookup, uri, tree, holds⟩, ?_⟩
    rintro l ⟨y, lookup', uri', tree', holds'⟩
    exact holds_once apart lookup' lookup (by rw [uri', tree', uri, tree]) holds' holds
  · intro x member
    obtain ⟨dataset, block, chunks, inside⟩ := owned member
    exact chunks.sizes x inside
  · intro plan
    refine ⟨by rw [DurablePlan.forDatasets, cut]; rfl, ?_⟩
    rintro lib injective k l x y a b first second different done done' rfl
    obtain ⟨_, block, chunks, inside⟩ := owned (List.mem_of_getElem? first)
    obtain ⟨_, block', chunks', inside'⟩ := owned (List.mem_of_getElem? second)
    have parts := (DurablePlan.taskId_parts injective done done').2.2
    obtain rfl := partitionBytes_inj (Or.inl (chunks.ranges x inside))
      (Or.inl (chunks'.ranges y inside')) parts
    have held : Holds x x.entryStart := ⟨le_rfl, (chunks.sizes x inside).1⟩
    exact different (holds_once apart first second rfl held held)

/-- Two datasets of one file, cut by twos. They differ in their trees. -/
def twoTrees : List Dataset := [⟨"a.root", 5, "Events", ""⟩, ⟨"a.root", 3, "Runs", "runs"⟩]

/-- Two trees of one file, cut into pieces of two entries. -/
theorem partitionDatasets_covers_of_two : ∃ parts,
    partitionDatasets twoTrees 2 = some (.ok parts) ∧
      (∃! k : Nat, ∃ x, parts[k]? = some x ∧ x.uri = "a.root" ∧ x.tree = "Runs" ∧ Holds x 2) ∧
      ∀ (k l : Nat) x y a b, parts[k]? = some x → parts[l]? = some y → k ≠ l →
        DurablePlan.hypotPlan.taskId DurablePlan.hypotLibrary x = some a →
        DurablePlan.hypotPlan.taskId DurablePlan.hypotLibrary y = some b → a ≠ b := by
  obtain ⟨parts, _, cut, _, _, covers, _, ids⟩ :=
    @partitionDatasets_covers twoTrees 2 (by decide) (by decide)
  refine ⟨parts, cut, ?_, ?_⟩
  · exact covers ⟨"a.root", 3, "Runs", "runs"⟩ (by decide) 2 (by decide) (by decide)
  · exact (ids DurablePlan.hypotPlan).2 DurablePlan.hypotLibrary (Equiv.injective _)

end GraphedCore.Plan
