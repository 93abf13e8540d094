import GraphedCore.RoundTrip

/-!
# Truncated bytes

A reader decides on the bytes it has: what it answers, and what it finds wrong, does not
change when more bytes come. The reader takes every byte that was written, so on any part
from the front it can neither answer nor find fault: it runs out.
-/

namespace GraphedCore

open Parsing

namespace Serialize

namespace Reader

variable {α : Type}

/-- A reader that fails, fails before whatever comes. -/
theorem lasting_fail (error : DecodeError) : Lasting .truncated (fail error : Reader α) where
  ok more read := by cases read
  error more failed _ := failed

/-- Bytes that are there are taken from the front. If there are too few, the
reader runs out. -/
theorem lasting_take (n : Nat) : Lasting .truncated (take n) where
  ok := by
    intro tokens rest value more read
    rw [take] at read ⊢
    by_cases enough : n ≤ tokens.length
    · rw [if_pos enough] at read
      obtain ⟨rfl, rfl⟩ := Prod.mk.inj (Except.ok.inj read)
      rw [if_pos (enough.trans (by simp)), List.take_append_of_le_length enough,
        List.drop_append_of_le_length enough]
    · rw [if_neg enough] at read
      cases read
  error := by
    intro tokens bad more failed other
    rw [take] at failed
    by_cases enough : n ≤ tokens.length
    · rw [if_pos enough] at failed
      cases failed
    · rw [if_neg enough] at failed
      exact absurd (Except.error.inj failed).symm other

/-- A byte is taken. -/
theorem lasting_u8 : Lasting .truncated u8 :=
  (lasting_take 1).bind (fun b => lasting_pure (b.headD 0))

/-- A word is taken. -/
theorem lasting_u32 : Lasting .truncated u32 :=
  (lasting_take 4).bind (fun b => lasting_pure (fromLeBytes b))

/-- A word of 64 bits is taken. -/
theorem lasting_u64 : Lasting .truncated u64 :=
  (lasting_take 8).bind (fun b => lasting_pure (fromLeBytes b))

/-- The length of a text is read first, and its bytes are judged once all of them
are there. -/
theorem lasting_string : Lasting .truncated string := by
  refine lasting_u32.bind (fun n => (lasting_take n).bind (fun b => ?_))
  cases String.fromUTF8? ⟨b.toArray⟩ with
  | some s => exact lasting_pure s
  | none => exact lasting_fail .badUtf8

/-- A list lasts when the reader of its items does, by induction on the announced
number. -/
theorem lasting_repeated {read : Nat → Reader α} (each : ∀ index, Lasting .truncated (read index))
    (index count : Nat) : Lasting .truncated (repeated read index count) := by
  induction count generalizing index with
  | zero => exact lasting_pure []
  | succ count ih =>
    exact (each index).bind (fun item =>
      (ih (index + 1)).bind (fun rest => lasting_pure (item :: rest)))

/-! ## Parameters and descriptors -/

/-- Each tag leads to a reader that lasts, and an unknown tag is refused at
once. -/
theorem lasting_paramValue : Lasting .truncated paramValue := by
  refine lasting_u8.bind (fun tag => ?_)
  refine .ite (lasting_u64.bind fun v => lasting_pure _) ?_
  refine .ite (lasting_u64.bind fun v => lasting_pure _) ?_
  refine .ite (lasting_u8.bind fun b => lasting_pure _) ?_
  exact .ite (lasting_string.bind fun s => lasting_pure _) (lasting_fail _)

/-- An entry is a text and a value. -/
theorem lasting_paramEntry : Lasting .truncated paramEntry :=
  lasting_string.bind (fun k => lasting_paramValue.bind (fun v => lasting_pure (k, v)))

/-- Parameters are counted and then read. -/
theorem lasting_params : Lasting .truncated params :=
  lasting_u32.bind (fun n => (lasting_repeated (fun _ => lasting_paramEntry) 0 n).bind
    (fun entries => lasting_pure (ParamMap.new entries)))

/-- An input is judged when its word is there. -/
theorem lasting_input (max : Nat) : Lasting .truncated (input max) :=
  lasting_u64.bind (fun i => .ite (lasting_fail (.badNodeRef i)) (lasting_pure i))

/-- Inputs are counted and then read. -/
theorem lasting_inputs (max : Nat) : Lasting .truncated (inputs max) :=
  lasting_u32.bind (fun n => lasting_repeated (fun _ => lasting_input max) 0 n)

/-- A text or none, after the byte that tells. -/
theorem lasting_optional : Lasting .truncated optional :=
  lasting_u8.bind (fun _ => .ite (lasting_string.bind (fun s => lasting_pure (some s)))
    (lasting_pure none))

/-- A payload is a sequence of texts. -/
theorem lasting_descriptor : Lasting .truncated descriptor :=
  lasting_string.bind fun _ => lasting_string.bind fun _ => lasting_string.bind fun _ =>
    lasting_string.bind fun _ => lasting_string.bind fun _ => lasting_optional.bind fun _ =>
      lasting_pure _

/-! ## Stages and nodes -/

/-- A reference is judged when its tag and its word are there. -/
theorem lasting_stageRef (index : Nat) : Lasting .truncated (stageRef index) := by
  refine lasting_u8.bind (fun tag => lasting_u32.bind (fun v => ?_))
  refine .ite (lasting_pure (StageRef.input v)) (.ite ?_ (lasting_fail _))
  exact .ite (lasting_fail (.badNodeRef v)) (lasting_pure (StageRef.member v))

/-- The op of a stage is a token and its references. -/
theorem lasting_stageOp (index : Nat) : Lasting .truncated (stageOp index) :=
  lasting_string.bind (fun token => lasting_u32.bind (fun n =>
    (lasting_repeated (fun _ => lasting_stageRef index) 0 n).bind
      (fun refs => lasting_pure (StageOp.mk token refs))))

/-- A record lasts in each of its kinds. -/
theorem lasting_node (index : Nat) : Lasting .truncated (node index) := by
  refine lasting_u8.bind (fun tag => ?_)
  refine .ite (lasting_string.bind fun _ => lasting_params.bind fun _ => lasting_pure _) ?_
  refine .ite (lasting_string.bind fun _ => lasting_params.bind fun _ =>
    (lasting_inputs index).bind fun _ => lasting_pure _) ?_
  refine .ite (lasting_string.bind fun _ => lasting_params.bind fun _ =>
    (lasting_inputs index).bind fun _ => lasting_pure _) ?_
  refine .ite (lasting_descriptor.bind fun _ => lasting_params.bind fun _ =>
    (lasting_inputs index).bind fun _ => lasting_pure _) ?_
  exact .ite ((lasting_inputs index).bind fun _ => lasting_u32.bind fun n =>
    (lasting_repeated lasting_stageOp 0 n).bind fun _ => lasting_pure _) (lasting_fail _)

/-! ## The graph -/

/-- Putting a key into the store reads nothing. -/
theorem lasting_addKey (store : GraphStore) (key : NodeKey) :
    Lasting .truncated (addKey store key) := by
  rw [addKey]
  cases store.addKey key with
  | mk result after =>
    cases result with
    | ok id => exact lasting_pure after
    | error bad => exact lasting_fail (.badNodeRef bad.id)

/-- Marking an output reads nothing. -/
theorem lasting_markOutput (store : GraphStore) (id : NodeId) :
    Lasting .truncated (markOutput store id) := by
  rw [markOutput]
  cases store.markOutput id with
  | mk result after =>
    cases result with
    | ok done => exact lasting_pure after
    | error bad => exact lasting_fail (.badNodeRef bad.id)

/-- Records are read one after another, each into the store that the ones before
have left. -/
theorem lasting_nodes (index count : Nat) (store : GraphStore) :
    Lasting .truncated (nodes index count store) := by
  induction count generalizing index store with
  | zero => exact lasting_pure store
  | succ count ih =>
    exact (lasting_node index).bind (fun key =>
      (lasting_addKey store key).bind (fun after => ih (index + 1) after))

/-- So are the outputs. -/
theorem lasting_outputs (count : Nat) (store : GraphStore) :
    Lasting .truncated (outputs count store) := by
  induction count generalizing store with
  | zero => exact lasting_pure store
  | succ count ih =>
    exact lasting_u64.bind (fun o => (lasting_markOutput store o).bind (fun after => ih after))

/-- The whole reader decides on the bytes that it has. -/
theorem lasting_graph : Lasting .truncated graph := by
  refine (lasting_take 4).bind (fun m => .ite (lasting_fail .badMagic) ?_)
  exact lasting_u32.bind (fun n => (lasting_nodes 0 n GraphStore.new).bind (fun store =>
    lasting_u32.bind (fun k => lasting_outputs k store)))

end Reader

/-- However a serialized graph is cut short, decoding it finds it truncated. It
takes no part of a blob for a whole one, and finds no other fault in it. -/
theorem deserialize_truncated (requests : List Request) (store : GraphStore)
    (produced : store ∈ (Session.run requests).stores) (fits : store.Fits) (outs : List NodeId)
    (few : Fits outs.length) (inside : ∀ o ∈ outs, o < store.nodes.length) (cut : Nat)
    (short : cut < (serializeWith store outs).length) :
    deserialize ((serializeWith store outs).take cut) = .error .truncated := by
  have settled := (Session.settled_run requests).stores store produced
  obtain ⟨decoded, read, _, _⟩ := graph_serializeWith settled fits few inside
  rw [← List.take_append_drop cut (serializeWith store outs)] at read
  have left : (serializeWith store outs).drop cut ≠ [] := by
    rwa [Ne, List.drop_eq_nil_iff, Nat.not_le]
  rw [deserialize, Reader.lasting_graph.runs_out read left]
  rfl

/-- The bytes of the reduced graph, with its output listed twice, less the last
one. -/
theorem deserialize_truncated_of_reduced : ∃ store ∈ (Session.run reduceRequests).stores,
    (serializeWith store [1, 1]).length = 90 ∧
      deserialize ((serializeWith store [1, 1]).take 89) = .error .truncated := by
  have produced : (Session.run reduceRequests).stores[1]? = some
      ⟨[.source "x" (.new [("cut", .float 0x403e000000000000)]),
        .stage [0] [⟨"op|neg", [.input 0]⟩]],
        [(.stage [0] [⟨"op|neg", [.input 0]⟩], 1),
          (.source "x" (.new [("cut", .float 0x403e000000000000)]), 0)], [1]⟩ := by decide +kernel
  have member := List.mem_of_getElem? produced
  refine ⟨_, member, by decide +kernel, ?_⟩
  exact deserialize_truncated reduceRequests _ member (by decide +kernel) [1, 1] (by decide)
    (by decide) 89 (by decide +kernel)

end Serialize

end GraphedCore
