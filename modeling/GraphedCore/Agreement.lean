import GraphedCore.Matching
import GraphedCore.Operands

/-!
# Incremental and one-shot reduction

The incremental reducer keeps the first member of every class of the arena. The
one-shot pipeline drops dead nodes first, and so keeps the first live member. They
agree when the dead nodes do not disturb the live classes: the first members come
in the order of the first live members, read the same classes in the same order,
and carry the same parameters where they are boundaries. That is so when every
live class begins with a live node.
-/

namespace GraphedCore

open Dag Wired

/-- Dead nodes decide neither the order nor the representatives of live classes.
The incremental reducer fixes both when a class is first met, and nodes may die
after that. -/
structure Undisturbed (nodes : List NodeKey) (outs : List NodeId) : Prop where
  order : ∀ i j, Reaches nodes outs i → Reaches nodes outs j →
    (firstLive nodes outs i < firstLive nodes outs j ↔
      leader (Least nodeRules nodes) i < leader (Least nodeRules nodes) j)
  straight : ∀ i key source, Reaches nodes outs i →
    nodes[firstLive nodes outs i]? = some key →
    nodes[leader (Least nodeRules nodes) i]? = some source →
      List.Forall₂ (Least nodeRules nodes) key.inputs source.inputs
  params : ∀ i key source, Reaches nodes outs i →
    nodes[firstLive nodes outs i]? = some key →
    nodes[leader (Least nodeRules nodes) i]? = some source →
      key.isBoundary = true → (∀ l other, Reaches nodes outs l → nodes[l]? = some other →
        other.token = key.token → firstLive nodes outs i ≤ l) →
          key.withInputs [] = source.withInputs []

/-- Live classes that begin with a live node are undisturbed. It is enough that
nothing dies after it was recorded. -/
theorem undisturbed_of_alive {nodes : List NodeKey} {outs : List NodeId}
    (alive : ∀ i, Reaches nodes outs i → Reaches nodes outs (leader (Least nodeRules nodes) i)) :
    Undisturbed nodes outs := by
  have same {i : NodeId} (reached : Reaches nodes outs i) :
      firstLive nodes outs i = leader (Least nodeRules nodes) i := by
    apply Nat.le_antisymm
    · exact firstLive_le (alive i reached) (leader_related least_equivalence i)
    · exact leader_le_of_related (firstLive_spec reached).2
  constructor
  · intro i j reached reached'
    rw [same reached, same reached']
  · intro i key source reached lookup lookup'
    rw [same reached] at lookup
    obtain rfl := Option.some.inj (lookup.symm.trans lookup')
    exact cong_forall₂_refl key.inputs
  · intro i key source reached lookup lookup' _ _
    rw [same reached] at lookup
    obtain rfl := Option.some.inj (lookup.symm.trans lookup')
    rfl

section Canonical

variable {nodes : List NodeKey} {outs : List NodeId} {i k : NodeId}

/-- The canonical arena of an incremental reducer that has consumed these nodes,
whatever the deltas were. -/
noncomputable def canonicalArena (nodes : List NodeKey) : List NodeKey :=
  quotient (Least nodeRules nodes) nodes

/-- Where the canonical arena has the outputs: at the places of their classes. -/
noncomputable def canonicalOutputs (nodes : List NodeKey) (outs : List NodeId) : List NodeId :=
  outs.map (place (Least nodeRules nodes))

/-- The canonical arena holds keys of the arena over other inputs, so it has no
payload and no stage where the arena has none. -/
theorem canonicalArena_plain (plain : ∀ key ∈ nodes, key.IsPlain) :
    ∀ key ∈ canonicalArena nodes, key.IsPlain := by
  intro key member
  obtain ⟨source, present, rfl⟩ := quotient_mem member
  have kind := plain source present
  cases source <;> exact kind

/-- The first member of a class comes after the first members of what it reads. -/
theorem canonicalArena_topological (topological : Topological nodes) :
    Topological (canonicalArena nodes) :=
  compact_topological (quotient_closed least_equivalence topological)

/-- The outputs are in the canonical arena. -/
theorem canonicalOutputs_inside (inside : ∀ o ∈ outs, o < nodes.length) :
    ∀ o ∈ canonicalOutputs nodes outs, o < (canonicalArena nodes).length := by
  intro o member
  obtain ⟨old, present, rfl⟩ := List.mem_map.mp member
  rw [canonicalArena, quotient_length]
  exact place_lt least_equivalence (inside old present)

/-- The canonical arena has no two related nodes. The reducer has merged all that
the rules relate. -/
theorem canonicalArena_discrete (topological : Topological nodes) {j : NodeId}
    (inside : i < nodes.length) (inside' : j < nodes.length)
    (related : Least nodeRules (canonicalArena nodes) (place (Least nodeRules nodes) i)
      (place (Least nodeRules nodes) j)) : Least nodeRules nodes i j :=
  cong_of_quotient least_equivalence topological (fun _ _ _ _ merged => merged)
    (show nodeRules.label = nodeRules.label from rfl)
    (fun _ commutes => ⟨commutes, fun _ _ => True.intro⟩)
    (fun _ drops => ⟨drops, fun _ _ => True.intro⟩) related i j inside inside' rfl rfl

/-- What the canonical outputs reach are the places of the live nodes. A class is
read through its first member, whose inputs are, up to the classes, those of the
first live member. -/
theorem canonicalArena_reached (topological : Topological nodes)
    (inside : ∀ o ∈ outs, o < nodes.length)
    (reached : Reaches (canonicalArena nodes) (canonicalOutputs nodes outs) k) :
    ∃ i, Reaches nodes outs i ∧ place (Least nodeRules nodes) i = k := by
  induction reached with
  | root member =>
    obtain ⟨o, requested, rfl⟩ := List.mem_map.mp member
    exact ⟨o, .root requested, rfl⟩
  | @input k x node _ lookup member ih =>
    obtain ⟨i, live, rfl⟩ := ih
    obtain ⟨first, related⟩ := firstLive_spec live
    obtain ⟨key, found⟩ := lookup_exists (first.bound topological inside)
    obtain ⟨source, stored, kept, _, shape⟩ := leader_alike least_equivalence topological
      (fun _ _ _ _ => Iff.rfl) found (firstLive_not_collapsed topological live)
    rw [(place_eq_iff least_equivalence).mpr related] at kept
    obtain rfl := Option.some.inj (lookup.symm.trans kept)
    rw [inputs_rewire] at member
    obtain ⟨y, reads, rfl⟩ := List.mem_map.mp member
    obtain ⟨x, read, merged⟩ : ∃ x ∈ inputs key, Least nodeRules nodes x y := by
      rcases shape with straight | ⟨_, a, b, c, d, left, right, ad, bc⟩
      · obtain ⟨p, position, rfl⟩ := List.getElem_of_mem reads
        obtain ⟨lengths, pairs⟩ := List.forall₂_iff_get.mp straight
        exact ⟨_, List.get_mem _ ⟨p, lengths ▸ position⟩, pairs p (lengths ▸ position) position⟩
      · rw [right] at reads
        rcases List.mem_pair.mp reads with rfl | rfl
        · exact ⟨b, by simp [left], bc⟩
        · exact ⟨a, by simp [left], ad⟩
    exact ⟨x, first.input found read, (place_eq_iff least_equivalence).mpr merged⟩

/-- A live node and its class in the canonical arena. This is the correspondence
between the two graphs that are reduced. -/
def Canonized (nodes : List NodeKey) (outs : List NodeId) (i k : NodeId) : Prop :=
  Reaches nodes outs i ∧ k = place (Least nodeRules nodes) i

/-- In the canonical arena no two live nodes are congruent, so a live node is the
first of its class. -/
theorem firstLive_canonical (topological : Topological nodes)
    (inside : ∀ o ∈ outs, o < nodes.length) (live : Reaches nodes outs i) :
    firstLive (canonicalArena nodes) (canonicalOutputs nodes outs)
      (place (Least nodeRules nodes) i) = place (Least nodeRules nodes) i := by
  have reached : Reaches (canonicalArena nodes) (canonicalOutputs nodes outs)
      (place (Least nodeRules nodes) i) :=
    quotient_reaches least_equivalence topological (fun _ _ _ _ => Iff.rfl) live
  obtain ⟨first, related⟩ := firstLive_spec reached
  obtain ⟨j, live', position⟩ := canonicalArena_reached topological inside first
  rw [← position] at related ⊢
  exact (place_eq_iff least_equivalence).mpr (canonicalArena_discrete topological
    (live'.bound topological inside) (live.bound topological inside) related)

/-- An undisturbed arena matches its canonical arena, so the two are reduced to
one list. -/
theorem Undisturbed.matching (undisturbed : Undisturbed nodes outs)
    (topological : Topological nodes) (inside : ∀ o ∈ outs, o < nodes.length)
    (plain : ∀ key ∈ nodes, key.IsPlain) :
    Matching nodes outs (canonicalArena nodes) (canonicalOutputs nodes outs)
      (Canonized nodes outs) where
  reached := by
    rintro i _ ⟨live, rfl⟩
    exact ⟨live, quotient_reaches least_equivalence topological (fun _ _ _ _ => Iff.rfl) live⟩
  total i live := ⟨_, live, rfl⟩
  onto k reached := by
    obtain ⟨i, live, rfl⟩ := canonicalArena_reached topological inside reached
    exact ⟨i, live, rfl⟩
  agree := by
    rintro i _ j _ ⟨live, rfl⟩ ⟨live', rfl⟩
    constructor
    · intro related
      rw [(place_eq_iff least_equivalence).mpr related]
      exact .refl _
    · exact canonicalArena_discrete topological (live.bound topological inside)
        (live'.bound topological inside)
  order := by
    rintro i _ j _ ⟨live, rfl⟩ ⟨live', rfl⟩
    rw [firstLive_canonical topological inside live, firstLive_canonical topological inside live',
      place, place, number_lt_iff (leader_isLeader least_equivalence i)]
    exact undisturbed.order i j live live'
  shape := by
    rintro i _ key key' ⟨live, rfl⟩ lookup lookup'
    obtain ⟨first, related⟩ := firstLive_spec live
    obtain ⟨source, stored, kept, operators, _⟩ := leader_alike least_equivalence topological
      (fun _ _ _ _ => Iff.rfl) lookup (firstLive_not_collapsed topological live)
    rw [(leader_eq_iff least_equivalence).mpr related] at stored
    rw [(place_eq_iff least_equivalence).mpr related] at kept
    rw [firstLive_canonical topological inside live] at lookup'
    obtain rfl := Option.some.inj (lookup'.symm.trans kept)
    refine ⟨?_, ?_, ?_⟩
    · rw [NodeKey.token_rewire]
      exact (NodeKey.token_eq_iff (plain key (List.mem_of_getElem? lookup))
        (plain source (List.mem_of_getElem? stored))).mpr operators
    · have reads : (rewire (place (Least nodeRules nodes)) source).inputs =
          source.inputs.map (place (Least nodeRules nodes)) := inputs_rewire _ source
      have pairs := undisturbed.straight i key source live lookup stored
      have listed := (List.forall₂_and_left _ _).mpr
        ⟨fun x (member : x ∈ key.inputs) => first.input lookup member, pairs⟩
      rw [reads, List.forall₂_map_right_iff]
      refine listed.imp ?_
      rintro x y ⟨reached, merged⟩
      exact ⟨reached, ((place_eq_iff least_equivalence).mpr merged).symm⟩
    · intro boundary first
      rw [undisturbed.params i key source live lookup stored boundary first, NodeKey.wired_rewire,
        NodeKey.withInputs_withInputs]
  outputs := by
    rw [canonicalOutputs, List.forall₂_map_right_iff]
    exact List.forall₂_same.mpr (fun o member => ⟨.root member, rfl⟩)

end Canonical

/-! ## Agreement -/

/-- Stepping over the deltas and finalizing returns the nodes and the outputs of
the one-shot reduction, and so the same bytes. -/
def Agree (engine : RewriteEngine) (mode : FusionMode) (nodes : List NodeKey)
    (deltas : List (List NodeKey)) (outs : List NodeId) : Prop :=
  ∃ reducer incremental oneShot, IncrementalReducer.new.steps deltas = some (.ok reducer) ∧
    reducer.finalize outs engine mode = some (.ok incremental) ∧
    reduceWithMode nodes outs engine mode = some oneShot ∧
    incremental.nodes = oneShot.nodes ∧ incremental.outputs = oneShot.outputs

/-- The one-shot pipeline looks at live nodes only, and counts the others. -/
theorem reduceWithMode_trim {nodes : List NodeKey} (topological : Topological nodes)
    {outs : List NodeId} (inside : ∀ o ∈ outs, o < nodes.length) (unary : LiveUnary nodes outs)
    (engine : RewriteEngine) (mode : FusionMode) :
    reduceWithMode (nodes.map NodeKey.trim) outs engine mode =
      reduceWithMode nodes outs engine mode := by
  have same (i : NodeId) (reached : Reaches nodes outs i) := unary.trim_lookup reached
  have inside' : ∀ o ∈ outs, o < (nodes.map NodeKey.trim).length := by simpa using inside
  rw [reduceWithMode, reduceWithMode, deadCodeElimination_eq topological inside,
    deadCodeElimination_eq (trim_topological topological) inside', ← compact_reached_congr same,
    ← reaches_congr same, List.length_map]

/-- What is left of plain keys is plain. -/
theorem trim_plain {nodes : List NodeKey} (plain : ∀ key ∈ nodes, key.IsPlain) :
    ∀ key ∈ nodes.map NodeKey.trim, key.IsPlain := by
  intro node member
  obtain ⟨key, present, rfl⟩ := List.mem_map.mp member
  have kind := plain key present
  rw [NodeKey.trim]
  split
  · cases key <;> exact kind
  · exact kind

/-- The reducer steps over what is left of the keys when an identity op keeps its
first input, and what is left is live where it was and as it was. -/
theorem agree_of_undisturbed {find : EngineGraph → Nat → Nat} (saturates : EggSaturates find)
    {nodes : List NodeKey} (topological : Topological nodes) (plain : ∀ key ∈ nodes, key.IsPlain)
    (fed : FedIdentities nodes) {deltas : List (List NodeKey)} (split : deltas.flatten = nodes)
    {outs : List NodeId} (inside : ∀ o ∈ outs, o < nodes.length) (unary : LiveUnary nodes outs)
    (undisturbed : Undisturbed (nodes.map NodeKey.trim) outs) (mode : FusionMode) :
    Agree (EggEngine.canonicalize find) mode nodes deltas outs := by
  have ordered := trim_topological topological
  have inside' : ∀ o ∈ outs, o < (nodes.map NodeKey.trim).length := by simpa using inside
  have plain' := trim_plain plain
  obtain ⟨reducer, ran, canonical⟩ := IncrementalReducer.canonical_steps ordered (trim_unary fed)
    (show (deltas.map (List.map NodeKey.trim)).flatten = nodes.map NodeKey.trim by
      rw [← List.map_flatten, split])
  have arena : reducer.canonNodes = canonicalArena (nodes.map NodeKey.trim) := by
    rw [canonical.nodes, List.take_length, canonicalArena]
  have translated := canonical.translate outs inside'
  obtain ⟨oneShot, incremental, reduces, reduces', sameNodes, sameOutputs⟩ :=
    (undisturbed.matching ordered inside' plain').reduceWithMode_eq saturates ordered
      (canonicalArena_topological ordered) inside' (canonicalOutputs_inside inside')
      (livePlain_of_plain plain' outs) (livePlain_of_plain (canonicalArena_plain plain') _) mode
  rw [IncrementalReducer.steps_trim_split topological split] at ran
  rw [reduceWithMode_trim topological inside unary] at reduces
  refine ⟨reducer, incremental, oneShot, ran, ?_, reduces, sameNodes, sameOutputs⟩
  rw [canonicalOutputs] at reduces'
  simp only [IncrementalReducer.finalize, translated, arena, reduces', Option.bind_eq_bind,
    Option.bind_some]

/-- Incremental and one-shot reduction of a recorded arena agree, node for node
and output for output, when no identity op is without inputs, those that the
outputs reach have one, and no dead node disturbs the live classes. A dead
identity op of several inputs stands for its first one. -/
theorem incremental_agrees (find : EngineGraph → Nat → Nat) (saturates : EggSaturates find)
    (calls : List Call) (plain : ∀ call ∈ calls, call.IsPlain) (deltas : List (List NodeKey))
    (split : deltas.flatten = (Call.run .new calls).nodes) (outs : List NodeId)
    (inside : ∀ o ∈ outs, o < (Call.run .new calls).nodeCount) (mode : FusionMode)
    (fed : FedIdentities (Call.run .new calls).nodes)
    (unary : LiveUnary (Call.run .new calls).nodes outs)
    (undisturbed : Undisturbed ((Call.run .new calls).nodes.map NodeKey.trim) outs) :
    Agree (EggEngine.canonicalize find) mode (Call.run .new calls).nodes deltas outs :=
  agree_of_undisturbed saturates (Call.interned_run GraphStore.interned_new calls).earlier
    (Call.plain_run plain) fed split inside unary undisturbed mode

/-- The classes of the history, read off the map of a reducer that has stepped
over it. -/
theorem historyNodes_map {i : NodeId} (inside : i < 8) :
    [0, 1, 2, 3, 0, 3, 3, 4][i]? =
      some (place (Least nodeRules (historyNodes.map NodeKey.trim)) i) := by
  have ordered : Topological (historyNodes.map NodeKey.trim) :=
    trim_topological (Call.interned_run GraphStore.interned_new historyCalls).earlier
  have split : [historyNodes.map NodeKey.trim].flatten = historyNodes.map NodeKey.trim := by simp
  have size : (historyNodes.map NodeKey.trim).length = 8 := by decide +kernel
  obtain ⟨reducer, ran, canonical⟩ :=
    IncrementalReducer.canonical_steps ordered (trim_unary historyNodes_fed) split
  have stepped : (IncrementalReducer.new.steps [historyNodes.map NodeKey.trim]).map
      (fun answer => answer.toOption.map IncrementalReducer.map) =
        some (some [0, 1, 2, 3, 0, 3, 3, 4]) := by decide +kernel
  rw [ran] at stepped
  have mapped : reducer.map = [0, 1, 2, 3, 0, 3, 3, 4] := by
    simpa [Except.toOption] using stepped
  rw [← mapped]
  exact canonical.map_getElem? (size ▸ inside)

/-- The classes of live nodes begin with live nodes: the first source comes before
the product, and the first sum before the other two ops of its class. -/
theorem historyNodes_leader {i : NodeId} (reached : Reaches historyNodes [7, 6] i) :
    Reaches historyNodes [7, 6] (leader (Least nodeRules (historyNodes.map NodeKey.trim)) i) := by
  have listed := historyNodes_reached.mp reached
  have below : ∀ i ∈ [0, 2, 3, 5, 6, 7], i < 8 := by decide
  have alive : ∀ i ∈ [0, 2, 3, 5, 6, 7], ∀ l ≤ i,
      [0, 1, 2, 3, 0, 3, 3, 4][l]? = [0, 1, 2, 3, 0, 3, 3, 4][i]? →
        l ∈ [0, 2, 3, 5, 6, 7] := by decide
  have earlier : leader (Least nodeRules (historyNodes.map NodeKey.trim)) i ≤ i :=
    leader_le least_equivalence i
  refine historyNodes_reached.mpr (alive i listed _ earlier ?_)
  rw [historyNodes_map (below i listed), historyNodes_map (earlier.trans_lt (below i listed)),
    (place_eq_iff least_equivalence).mpr (leader_related least_equivalence i)]

/-- The history is stepped over in three deltas and agrees with its one-shot
reduction. The dead product stands for its first operand, and the second sum for
the first. -/
theorem incremental_agrees_of_history :
    Agree (EggEngine.canonicalize saturatedFind) .singleUse historyNodes historyDeltas [7, 6] := by
  have inside : ∀ o ∈ [7, 6], o < historyNodes.length := by decide +kernel
  have same := reaches_congr (fun _ => historyNodes_unary.trim_lookup)
  have alive (i : NodeId) (reached : Reaches (historyNodes.map NodeKey.trim) [7, 6] i) :
      Reaches (historyNodes.map NodeKey.trim) [7, 6]
        (leader (Least nodeRules (historyNodes.map NodeKey.trim)) i) := by
    rw [← same] at reached ⊢
    exact historyNodes_leader reached
  exact incremental_agrees saturatedFind saturatedFind_saturates historyCalls (by decide)
    historyDeltas historyDeltas_flatten [7, 6] inside .singleUse historyNodes_fed historyNodes_unary
    (undisturbed_of_alive alive)

/-- A dead sum of two sources, and the live sum the other way around. The dead one
decides the orientation. -/
def deadTwinCalls : List Call :=
  [.addSource "x" (.new []), .addSource "y" (.new []), .addOp "add" [1, 0] (.new []),
    .addOp "add" [0, 1] (.new [])]

/-- The incremental reducer returns the orientation of the dead sum, and the
one-shot reduction that of the live one. -/
theorem dead_twin_disturbs :
    ¬ Agree (EggEngine.canonicalize saturatedFind) .singleUse (Call.run .new deadTwinCalls).nodes
      [(Call.run .new deadTwinCalls).nodes] [3] := by
  rintro ⟨reducer, incremental, oneShot, ran, finalized, reduces, nodes, _⟩
  have stepped : IncrementalReducer.new.steps [(Call.run .new deadTwinCalls).nodes] =
      some (.ok ⟨[.source "x" (.new []), .source "y" (.new []), .op "add" (.new []) [1, 0]],
        [(.op "add" (.new []) [1, 0], 2), (.source "y" (.new []), 1), (.source "x" (.new []), 0)],
        [0, 1, 2, 2], 4⟩) := by decide +kernel
  obtain rfl : _ = reducer := by simpa using stepped.symm.trans ran
  have dead : deadCodeElimination (Call.run .new deadTwinCalls).nodes [3] =
      some ([.source "x" (.new []), .source "y" (.new []), .op "add" (.new []) [0, 1]], [2]) := by
    decide +kernel
  have dead' : deadCodeElimination
        [.source "x" (.new []), .source "y" (.new []), .op "add" (.new []) [1, 0]] [2] =
      some ([.source "x" (.new []), .source "y" (.new []), .op "add" (.new []) [1, 0]], [2]) := by
    decide +kernel
  -- the live keys differ in token, so the engine returns what it is given
  have recorded := reduceWithMode_of_different saturatedFind_saturates dead (by decide) (by decide)
    (by decide +kernel) (by decide +kernel) .singleUse
  have canonical := reduceWithMode_of_different saturatedFind_saturates dead' (by decide)
    (by decide) (by decide +kernel) (by decide +kernel) .singleUse
  have straight : (reduceWithMode (Call.run .new deadTwinCalls).nodes [3] some .singleUse).map
      (fun red => red.nodes) = some [.source "x" (.new []), .source "y" (.new []),
        .stage [0, 1] [⟨"op|add", [.input 0, .input 1]⟩]] := by decide +kernel
  have swapped : (reduceWithMode
        [.source "x" (.new []), .source "y" (.new []), .op "add" (.new []) [1, 0]] [2] some
        .singleUse).map (fun red => red.nodes) = some [.source "x" (.new []), .source "y" (.new []),
        .stage [1, 0] [⟨"op|add", [.input 0, .input 1]⟩]] := by decide +kernel
  have translated : IncrementalReducer.translate [0, 1, 2, 2] [3] = .ok [2] := rfl
  simp only [IncrementalReducer.finalize, translated, canonical] at finalized
  rw [recorded] at reduces
  rw [reduces, Option.map_some, Option.some.injEq] at straight
  cases ran' : reduceWithMode
      [.source "x" (.new []), .source "y" (.new []), .op "add" (.new []) [1, 0]] [2] some
      .singleUse with
  | none => simp [ran'] at swapped
  | some red =>
    rw [ran', Option.map_some, Option.some.injEq] at swapped
    obtain rfl : red = incremental := by simpa [ran'] using finalized
    rw [swapped, straight] at nodes
    exact absurd nodes (by decide)

end GraphedCore
