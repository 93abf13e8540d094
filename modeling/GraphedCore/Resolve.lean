import GraphedCore.Execution
import GraphedCore.Lib.Enumerate
import GraphedCore.Lib.Evenly

/-!
# Blind partitions tile the file

Step `k` of `n` resolves to the piece between the cuts `k` and `k + 1` of the entries. The
two ends are computed apart from each other, from different products, and still the end of a
step is the start of the next.
-/

namespace GraphedCore.Execution.Partition

open Evenly

/-- All steps over a file, resolved against its number of entries. There is
nothing when one of them is refused. -/
def resolveSteps (uri tree : String) (nSteps numEntries : Int) : Option (List Partition) :=
  (List.range nSteps.toNat).mapM
    (fun k : Nat => (blind uri tree k nSteps).toOption.bind (fun x => x.resolve numEntries))

/-- The entries between two cuts, as a partition with a known range. -/
def piece (uri tree : String) (nSteps numEntries : Int) (k : Nat) : Partition where
  uri := uri
  tree := tree
  entryStart := cut numEntries nSteps k
  entryStop := cut numEntries nSteps (k + 1)

variable {nSteps numEntries : Int}

/-- A blind step within its number of steps is built. -/
theorem blind_ok {step : Int} (uri tree : String) (atLeast : 0 ≤ step) (below : step < nSteps) :
    blind uri tree step nSteps =
      .ok { uri := uri, tree := tree, blindStep := some step, blindNSteps := some nSteps } := by
  rw [blind, if_neg]
  omega

/-- Floor division by a positive number of steps. -/
theorem resolve_blind {x : Partition} (uri tree : String) {k : Nat} (positive : 1 ≤ nSteps)
    (made : blind uri tree k nSteps = .ok x) :
    x.resolve numEntries = some (piece uri tree nSteps numEntries k) := by
  have nonneg : 0 ≤ nSteps := by omega
  obtain rfl := blind_fields made
  simp only [resolve, piece, cut, Int.fdiv_eq_ediv_of_nonneg _ nonneg, Nat.cast_add,
    Nat.cast_one]
  exact if_neg (by omega)

/-- Every step of a file is resolved to its piece, in order. -/
theorem resolveSteps_eq (uri tree : String) (positive : 1 ≤ nSteps) :
    resolveSteps uri tree nSteps numEntries =
      some ((List.range nSteps.toNat).map (piece uri tree nSteps numEntries)) := by
  rw [resolveSteps]
  refine Enumerate.mapM_complete _ _ _ (fun k member => ?_)
  have below : (k : Int) < nSteps := by
    have inside := List.mem_range.mp member
    omega
  have made := blind_ok uri tree (Int.natCast_nonneg k) below
  rw [made]
  exact resolve_blind uri tree positive made

/-- The resolved steps of a file are entry ranges that follow one another from
zero to the number of entries and differ in length by at most one. Each entry is
in exactly one. -/
theorem resolveSteps_tile (uri tree : String) (nSteps numEntries : Int) (positive : 1 ≤ nSteps)
    (nonneg : 0 ≤ numEntries) :
    ∃ ranges, resolveSteps uri tree nSteps numEntries = some ranges ∧
      ranges.length = nSteps.toNat ∧
      (∀ r ∈ ranges, r.uri = uri ∧ r.tree = tree ∧ r.isBlind = false ∧
        r.entryStart ≤ r.entryStop) ∧
      ranges.head?.map entryStart = some 0 ∧
      ranges.getLast?.map entryStop = some numEntries ∧
      (∀ (k : Nat) (r next : Partition), ranges[k]? = some r → ranges[k + 1]? = some next →
        r.entryStop = next.entryStart) ∧
      (∀ r ∈ ranges, ∀ r' ∈ ranges, r.nEntries ≤ r'.nEntries + 1) ∧
      ∀ entry, 0 ≤ entry → entry < numEntries →
        ∃! k : Nat, ∃ r, ranges[k]? = some r ∧ r.entryStart ≤ entry ∧ entry < r.entryStop := by
  obtain ⟨n, rfl⟩ : ∃ n : Nat, nSteps = n + 1 := ⟨(nSteps - 1).toNat, by omega⟩
  have steps : (0 : Int) < n + 1 := by omega
  have ascending {j k : Nat} (le : j ≤ k) := cut_mono steps nonneg le
  have final : cut numEntries (n + 1) (n + 1) = numEntries := cut_last steps rfl
  have found {k : Nat} {r : Partition} :
      ((List.range (n + 1)).map (piece uri tree (n + 1) numEntries))[k]? = some r ↔
        k < n + 1 ∧ piece uri tree (n + 1) numEntries k = r := by
    rw [List.getElem?_map, Option.map_eq_some_iff]
    simp [List.getElem?_eq_some_iff]
  refine ⟨_, resolveSteps_eq uri tree positive, ?_, ?_, ?_, ?_, ?_, ?_, ?_⟩
  · rw [List.length_map, List.length_range]
  all_goals rw [show ((n : Int) + 1).toNat = n + 1 by omega]
  · intro r member
    obtain ⟨k, _, rfl⟩ := List.mem_map.mp member
    exact ⟨rfl, rfl, rfl, ascending (Nat.le_succ k)⟩
  · rw [List.head?_map, List.range_succ_eq_map]
    exact congrArg some cut_zero
  · rw [List.range_succ, List.map_append, List.map_singleton, List.getLast?_concat]
    exact congrArg some final
  · intro k r next first second
    obtain ⟨_, rfl⟩ := found.mp first
    obtain ⟨_, rfl⟩ := found.mp second
    rfl
  · intro r member r' member'
    obtain ⟨j, _, rfl⟩ := List.mem_map.mp member
    obtain ⟨k, _, rfl⟩ := List.mem_map.mp member'
    have even := @cut_even numEntries (n + 1) steps j k
    simp only [nEntries, piece]
    omega
  · intro entry atLeast below
    obtain ⟨k, inside, above, under⟩ :=
      piece_exists (n := n + 1) (cut_zero.trans_le atLeast) (below.trans_eq final.symm)
    refine ⟨k, ⟨_, found.mpr ⟨inside, rfl⟩, above, under⟩, ?_⟩
    rintro j ⟨r, there, above', under'⟩
    obtain ⟨_, rfl⟩ := found.mp there
    exact piece_unique (fun _ _ le => ascending le) above' under' above under

/-- More steps than entries, so that some ranges are empty. -/
theorem resolveSteps_tile_of_seven :
    ∃ ranges, resolveSteps "f" "t" 7 3 = some ranges ∧ ranges.length = 7 ∧
      ∀ entry, 0 ≤ entry → entry < 3 →
        ∃! k : Nat, ∃ r, ranges[k]? = some r ∧ r.entryStart ≤ entry ∧ entry < r.entryStop := by
  obtain ⟨ranges, resolved, length, _, _, _, _, _, once⟩ :=
    resolveSteps_tile "f" "t" 7 3 (by decide) (by decide)
  exact ⟨ranges, resolved, length, once⟩

end GraphedCore.Execution.Partition
