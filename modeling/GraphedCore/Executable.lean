import GraphedCore.Meaning
import GraphedCore.Session

/-!
# Executable stages

A stage runs when it has a member to yield and every reference of a member names an
input of the stage or an earlier member. The reader checks references to members and
nothing else, so a decoded stage is executable exactly when its record was.
-/

namespace GraphedCore

open Dag

/-- The reference is found by the member after `before` members of a stage over
`slots` inputs. -/
def StageRef.Within (slots before : Nat) : StageRef → Prop
  | .input slot => slot < slots
  | .member index => index < before

instance (slots before : Nat) (ref : StageRef) : Decidable (ref.Within slots before) :=
  match ref with
  | .input slot => inferInstanceAs (Decidable (slot < slots))
  | .member index => inferInstanceAs (Decidable (index < before))

/-- Running the stage never indexes past its inputs or its earlier members, and
there is a last member to yield. -/
def NodeKey.Executable : NodeKey → Prop
  | .stage inputs members => members ≠ [] ∧ ∀ (k : Nat) (op : StageOp), members[k]? = some op →
      ∀ ref ∈ op.inputs, ref.Within inputs.length k
  | _ => True

section Running

universe u
variable {V : Type u} {interp : String → List V → V} {args : List V}

/-- A slot is filled exactly when it lies within the inputs or the members
before. -/
theorem StageRef.resolve_iff (ref : StageRef) (args done : List V) :
    (∃ value, ref.resolve args done = some value) ↔ ref.Within args.length done.length := by
  cases ref with
  | input slot => simp [resolve, Within, ← Option.isSome_iff_exists]
  | member index => simp [resolve, Within, ← Option.isSome_iff_exists]

/-- A member runs exactly when all of its slots are filled. -/
theorem StageOp.run_iff (op : StageOp) (done : List V) :
    (∃ value, op.run interp args done = some value) ↔
      ∀ ref ∈ op.inputs, ref.Within args.length done.length := by
  simp only [← StageRef.resolve_iff, ← Enumerate.mapM_exists_iff, run, Option.map_eq_some_iff]
  constructor
  · rintro ⟨_, values, found, _⟩
    exact ⟨values, found⟩
  · rintro ⟨values, found⟩
    exact ⟨_, values, found, rfl⟩

/-- The members run exactly when every reference is found. -/
theorem runMembers_iff (members : List StageOp) (done : List V) :
    (∃ final, runMembers interp args done members = some final) ↔
      ∀ (k : Nat) (op : StageOp), members[k]? = some op →
        ∀ ref ∈ op.inputs, ref.Within args.length (done.length + k) := by
  induction members generalizing done with
  | nil => simp [runMembers]
  | cons op rest ih =>
    have later (value : V) : (∃ final, runMembers interp args (done ++ [value]) rest = some final) ↔
        ∀ (k : Nat) (op : StageOp), rest[k]? = some op →
          ∀ ref ∈ op.inputs, ref.Within args.length (done.length + (k + 1)) := by
      simp only [ih, List.length_append, List.length_singleton, Nat.add_assoc, Nat.add_comm 1]
    constructor
    · rintro ⟨final, ran⟩ k other lookup
      obtain ⟨value, first, ran⟩ := Option.bind_eq_some_iff.mp ran
      cases k with
      | zero =>
        obtain rfl : op = other := by simpa using lookup
        exact (op.run_iff done).mp ⟨value, first⟩
      | succ k => exact (later value).mp ⟨final, ran⟩ k other (by simpa using lookup)
    · intro within
      obtain ⟨value, first⟩ : ∃ value, op.run interp args done = some value :=
        (op.run_iff done).mpr (within 0 op rfl)
      obtain ⟨final, ran⟩ := (later value).mpr (fun k other lookup => within (k + 1) other lookup)
      exact ⟨final, by rw [runMembers, first, Option.bind_some, ran]⟩

/-- Every member that runs adds one value. -/
theorem runMembers_length {members : List StageOp} {done final : List V}
    (ran : runMembers interp args done members = some final) :
    final.length = done.length + members.length := by
  induction members generalizing done with
  | nil =>
    obtain rfl := Option.some.inj ran
    rfl
  | cons op rest ih =>
    obtain ⟨value, _, ran⟩ := Option.bind_eq_some_iff.mp ran
    rw [ih ran, List.length_append, List.length_singleton, List.length_cons]
    omega

/-- A node yields a value of any arguments for its inputs exactly when it is
executable. -/
theorem NodeKey.executable_iff_runs [Nonempty V] (key : NodeKey) : key.Executable ↔
    ∀ args : List V, args.length = key.inputs.length →
      ∃ value, key.apply interp args = some value := by
  cases key with
  | stage inputs members =>
    have yields (args : List V) :
        (∃ value, (NodeKey.stage inputs members).apply interp args = some value) ↔
        members ≠ [] ∧ ∃ final, runMembers interp args [] members = some final := by
      simp only [NodeKey.apply, Option.bind_eq_some_iff]
      constructor
      · rintro ⟨value, final, ran, last⟩
        refine ⟨fun none => ?_, final, ran⟩
        have length := runMembers_length ran
        rw [none, List.length_nil, List.length_nil] at length
        rw [List.length_eq_zero_iff.mp length] at last
        cases last
      · rintro ⟨some, final, ran⟩
        have length := runMembers_length ran
        rw [List.length_nil, Nat.zero_add] at length
        have nonempty : final ≠ [] :=
          fun none => some (List.length_eq_zero_iff.mp (by rw [← length, none]; rfl))
        exact ⟨_, final, ran, List.getLast?_eq_some_getLast nonempty⟩
    simp only [Executable, yields, runMembers_iff, List.length_nil, Nat.zero_add]
    constructor
    · rintro ⟨some, within⟩ args length
      exact ⟨some, by rwa [show args.length = inputs.length from length]⟩
    · intro runs
      obtain ⟨value⟩ := ‹Nonempty V›
      simpa using runs (List.replicate inputs.length value) (by simp [NodeKey.inputs])
  | _ => simp [Executable, NodeKey.apply]

end Running

/-! ## Decoded stages -/

/-- What the reader does not check: that a stage has a member, and that the slots
its members refer to are among its inputs. -/
def NodeKey.SlotsFit : NodeKey → Prop
  | .stage inputs members => members ≠ [] ∧
      ∀ op ∈ members, ∀ s, StageRef.input s ∈ op.inputs → s < inputs.length
  | _ => True

/-- A stage runs exactly when its slots fit its inputs and its members read
earlier ones. -/
theorem NodeKey.executable_iff (key : NodeKey) :
    key.Executable ↔ key.SlotsFit ∧ key.Ordered := by
  cases key with
  | stage inputs members =>
    simp only [Executable, SlotsFit, Ordered, and_assoc, and_congr_right_iff]
    intro _
    constructor
    · intro within
      refine ⟨fun op member s refers => ?_, fun k op lookup j refers => within k op lookup _ refers⟩
      obtain ⟨k, lookup⟩ := List.mem_iff_getElem?.mp member
      exact within k op lookup _ refers
    · rintro ⟨slots, ordered⟩ k op lookup ref refers
      cases ref with
      | input s => exact slots op (List.mem_of_getElem? lookup) s refers
      | member j => exact ordered k op lookup j refers
  | _ => simp [Executable, SlotsFit, Ordered]

/-- Equal keys have the same slots. -/
theorem NodeKey.slotsFit_of_eq {key other : NodeKey} (equal : key.eq other = true)
    (fit : key.SlotsFit) : other.SlotsFit := by
  cases other with
  | stage inputs members =>
    cases key with
    | stage inputs' members' =>
      obtain ⟨rfl, rfl⟩ : inputs' = inputs ∧ members' = members := by simpa [NodeKey.eq] using equal
      exact fit
    | _ => simp [NodeKey.eq] at equal
  | _ => trivial

namespace Serialize

/-- Every stage record of the blob has a member, and slots for what its members
read. -/
def SlotsFitBlob (data : List UInt8) : Prop :=
  ∃ records outs rest, Reader.blob data = .ok ((records, outs), rest) ∧
    ∀ record ∈ records, record.SlotsFit

/-- Every stage of the decoded store is executable exactly when every stage record
had a member and the slots that its members refer to. The decoder checks
references to members, and neither of these. -/
theorem decoded_executable_iff (data : List UInt8) (store : GraphStore)
    (decoded : deserialize data = .ok store) :
    (∀ key ∈ store.nodes, key.Executable) ↔ SlotsFitBlob data := by
  obtain ⟨records, outs, rest, blob, recorded, stored⟩ := deserialize_records decoded
  constructor
  · intro executable
    refine ⟨records, outs, rest, blob, fun record member => ?_⟩
    obtain ⟨node, found, equal⟩ := stored record member
    exact NodeKey.slotsFit_of_eq equal (node.executable_iff.mp (executable node found)).1
  · rintro ⟨records', outs', rest', blob', fit⟩ key member
    obtain ⟨⟨rfl, _⟩, _⟩ : (records = records' ∧ outs = outs') ∧ rest = rest' := by
      simpa using blob.symm.trans blob'
    exact key.executable_iff.mpr
      ⟨fit key (recorded key member), (deserialize_settled decoded).ordered key member⟩

/-- A source and a stage over it, which fits. -/
theorem decoded_executable_iff_of_stage : (∀ key ∈ [NodeKey.source "x" (.new []),
      .stage [0] [⟨"op|neg", [.input 0]⟩]], key.Executable) ↔
    SlotsFitBlob (serializeWith ⟨[.source "x" (.new []), .stage [0] [⟨"op|neg", [.input 0]⟩]], [], []⟩
      [1]) :=
  decoded_executable_iff _ ⟨[.source "x" (.new []), .stage [0] [⟨"op|neg", [.input 0]⟩]],
    [(.stage [0] [⟨"op|neg", [.input 0]⟩], 1), (.source "x" (.new []), 0)], [1]⟩
    (deserialize_ok_iff.mpr ⟨[], by rfl⟩)

/-- The record of a stage without inputs whose only member reads a slot. Decoding
does not look at slots. -/
def slotlessBlob : List UInt8 := serializeWith ⟨[.stage [] [⟨"op|neg", [.input 0]⟩]], [], []⟩ [0]

/-- The blob is accepted, and the stage has no input for its member. -/
theorem slotless_stage_is_decoded : ∃ store, deserialize slotlessBlob = .ok store ∧
    ¬ ∀ key ∈ store.nodes, key.Executable := by
  refine ⟨⟨[.stage [] [⟨"op|neg", [.input 0]⟩]], [(.stage [] [⟨"op|neg", [.input 0]⟩], 0)], [0]⟩,
    deserialize_ok_iff.mpr ⟨[], by rfl⟩, fun executable => ?_⟩
  have within := (executable _ List.mem_cons_self).2 0 _ rfl (.input 0) List.mem_cons_self
  exact absurd within (Nat.not_lt_zero 0)

end Serialize

end GraphedCore
