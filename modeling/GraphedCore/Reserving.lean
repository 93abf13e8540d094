import GraphedCore.Decoding

/-!
# Room that is reserved ahead

Before the reader reads a list it reserves room for as many items as the blob announces,
whether the blob has as many bytes left or not. The functions below note these
reservations; each follows a reader and reads on as that one does. Room that is taken for
bytes that were found, such as those of a text, is not noted.

Whether the machine has the room is not for the program to decide. If it has not, the
process ends at once, without an error that a caller could catch. A blob that is accepted
never asks for more items than it has bytes, and so it is a blob that announces more than
it holds which ends the process.
-/

namespace GraphedCore

open Parsing

namespace Serialize

/-- What a list is reserved for. The room for an item depends on its type. -/
inductive Item where
  | param
  | input
  | member
  | reference
deriving DecidableEq

/-- Room for so many items, asked for before the first of them is read. -/
structure Reservation where
  item : Item
  count : Nat
deriving DecidableEq

namespace Reader

/-- `Vec::with_capacity(n)`, with the count that comes next. Where no count is
left nothing is reserved. -/
def reserve (item : Item) : List UInt8 → List Reservation := follow u32 fun n _ => [⟨item, n⟩]

/-- Room for the entries of a map, asked for once their number is read. -/
def paramsReserve : List UInt8 → List Reservation := reserve .param

/-- Room for the inputs of a record, asked for once their number is read. -/
def inputsReserve : List UInt8 → List Reservation := reserve .input

/-- The parameters and then the inputs of a record. The inputs are reached only
when the parameters were read. -/
def operandsReserve (buf : List UInt8) : List Reservation :=
  paramsReserve buf ++ follow params (fun _ => inputsReserve) buf

/-- Room for the references of a stage member, which follow its token. -/
def stageOpReserve : List UInt8 → List Reservation := follow string fun _ => reserve .reference

/-- What is reserved in `count` items, the first one at position `index`, as far
as they are read. -/
def repeatedReserve {α : Type} (read : Nat → Reader α)
    (reserves : Nat → List UInt8 → List Reservation) : Nat → Nat → List UInt8 → List Reservation
  | _, 0 => fun _ => []
  | index, count + 1 => fun buf =>
    reserves index buf ++
      follow (read index) (fun _ => repeatedReserve read reserves (index + 1) count) buf

/-- Room for the members of a stage, and then for the references of each. -/
def membersReserve : List UInt8 → List Reservation := follow u32 fun n buf =>
  ⟨.member, n⟩ :: repeatedReserve stageOp (fun _ => stageOpReserve) 0 n buf

/-- What is reserved for the node record at position `index`, by its tag. -/
def nodeReserve (index : Nat) : List UInt8 → List Reservation := follow u8 fun tag =>
  if tag = 0 then follow string fun _ => paramsReserve
  else if tag = 1 then follow string fun _ => operandsReserve
  else if tag = 2 then follow string fun _ => operandsReserve
  else if tag = 3 then follow descriptor fun _ => operandsReserve
  else if tag = 4 then
    fun buf => inputsReserve buf ++ follow (inputs index) (fun _ => membersReserve) buf
  else fun _ => []

/-- What is reserved for `count` records, the first one at position `index`. The
number of records itself reserves nothing. -/
def nodesReserve : Nat → Nat → GraphStore → List UInt8 → List Reservation
  | _, 0, _ => fun _ => []
  | index, count + 1, store => fun buf =>
    nodeReserve index buf ++ follow (node index)
      (fun key => follow (addKey store key) (nodesReserve (index + 1) count)) buf

/-- What is reserved for a blob. The outputs are marked one after another, without
a list of them. -/
def graphReserve : List UInt8 → List Reservation := follow (take 4) fun m =>
  if m ≠ magic then fun _ => [] else follow u32 fun nNodes => nodesReserve 0 nNodes .new

end Reader

/-- The reservations that decoding makes one after another, if it gets each of
them. -/
def reservations (data : List UInt8) : List Reservation := Reader.graphReserve data

namespace Reader

variable {α : Type}

/-! ## How much the readers take -/

/-- A reader that fails never leaves too many bytes. -/
theorem takes_fail (error : DecodeError) (least : Nat) : Takes least (fail error : Reader α) where
  left read := nomatch read

/-- Taking so many bytes takes exactly as many. -/
theorem takes_take (n : Nat) : Takes n (take n) where
  left := by
    intro tokens rest value read
    rw [take] at read
    split at read
    · next enough =>
      obtain ⟨_, rfl⟩ := Prod.mk.inj (Except.ok.inj read)
      rw [List.length_drop, Nat.sub_add_cancel enough]
    · cases read

/-- One byte. -/
theorem takes_u8 : Takes 1 u8 := (takes_take 1).first fun b => takes_pure (b.headD 0)

/-- Four bytes. -/
theorem takes_u32 : Takes 4 u32 := (takes_take 4).first fun b => takes_pure (fromLeBytes b)

/-- Eight bytes. -/
theorem takes_u64 : Takes 8 u64 := (takes_take 8).first fun b => takes_pure (fromLeBytes b)

/-- A text takes its length, and as many bytes as that says. -/
theorem takes_string : Takes 4 string := by
  refine takes_u32.first fun n => (takes_take n).zero.first fun b => ?_
  cases String.fromUTF8? ⟨b.toArray⟩ with
  | some s => exact takes_pure s
  | none => exact takes_fail .badUtf8 0

/-- Items that take a byte each take as many bytes as there are items. -/
theorem takes_repeated {read : Nat → Reader α} (each : ∀ index, Takes 1 (read index))
    (index count : Nat) : Takes count (repeated read index count) := by
  induction count generalizing index with
  | zero => exact takes_pure []
  | succ count ih =>
    have both : Takes (1 + count) (repeated read index (count + 1)) :=
      (each index).bind fun item => (ih (index + 1)).first fun rest => takes_pure (item :: rest)
    exact both.weaken (Nat.le_of_eq (Nat.add_comm count 1))

/-- A value takes its tag at least. -/
theorem takes_paramValue : Takes 1 paramValue := by
  refine takes_u8.first fun tag => ?_
  apply Takes.ite (takes_u64.zero.first fun v => takes_pure _)
  apply Takes.ite (takes_u64.zero.first fun v => takes_pure _)
  apply Takes.ite (takes_u8.zero.first fun b => takes_pure _)
  exact .ite (takes_string.zero.first fun s => takes_pure _) (takes_fail _ 0)

/-- An entry takes the length of its key at least. -/
theorem takes_paramEntry : Takes 1 paramEntry :=
  (takes_string.weaken (by decide)).first fun k => takes_paramValue.zero.first fun v =>
    takes_pure (k, v)

/-- A map is read from the front of what is there. -/
theorem takes_params : Takes 0 params :=
  takes_u32.zero.first fun n => (takes_repeated (fun _ => takes_paramEntry) 0 n).zero.first
    fun _ => takes_pure _

/-- An id takes its eight bytes. -/
theorem takes_input (max : Nat) : Takes 1 (input max) :=
  (takes_u64.weaken (by decide)).first fun i =>
    .ite (takes_fail (.badNodeRef i) 0) (takes_pure i)

/-- So are inputs. -/
theorem takes_inputs (max : Nat) : Takes 0 (inputs max) :=
  takes_u32.zero.first fun n => (takes_repeated (fun _ => takes_input max) 0 n).zero

/-- So is a text that may be missing. -/
theorem takes_optional : Takes 0 optional :=
  takes_u8.zero.first fun _ => .ite (takes_string.zero.first fun s => takes_pure (some s))
    (takes_pure none)

/-- So is a descriptor, which is five texts and one that may be missing. -/
theorem takes_descriptor : Takes 0 descriptor :=
  takes_string.zero.first fun _ => takes_string.zero.first fun _ => takes_string.zero.first fun _ =>
    takes_string.zero.first fun _ => takes_string.zero.first fun _ => takes_optional.first fun _ =>
      takes_pure _

/-- A reference takes its tag at least. -/
theorem takes_stageRef (index : Nat) : Takes 1 (stageRef index) :=
  takes_u8.first fun _ => takes_u32.zero.first fun v => .ite (takes_pure _)
    (.ite (.ite (takes_fail (.badNodeRef v) 0) (takes_pure _)) (takes_fail _ 0))

/-- A member takes the length of its token at least. -/
theorem takes_stageOp (index : Nat) : Takes 1 (stageOp index) :=
  (takes_string.weaken (by decide)).first fun token => takes_u32.zero.first fun n =>
    (takes_repeated (fun _ => takes_stageRef index) 0 n).zero.first fun _ =>
      takes_pure _

/-- So is a record, by cases on its tag. -/
theorem takes_node (index : Nat) : Takes 0 (node index) := by
  refine takes_u8.zero.first fun tag => ?_
  have operands (build : ParamMap → List NodeId → NodeKey) :
      Takes 0 (params >>= fun params => inputs index >>= fun inputs => pure (build params inputs)) :=
    takes_params.first fun params => (takes_inputs index).first fun inputs => takes_pure _
  refine .ite ?_ (.ite ?_ (.ite ?_ (.ite ?_ (.ite ?_ (takes_fail _ 0)))))
  · exact takes_string.zero.first fun name => takes_params.first fun params => takes_pure _
  · exact takes_string.zero.first fun name => operands (.op name)
  · exact takes_string.zero.first fun name => operands (.reduction name)
  · exact takes_descriptor.first fun descriptor => operands (.external descriptor)
  · exact (takes_inputs index).first fun inputs => takes_u32.zero.first fun n =>
      (takes_repeated takes_stageOp 0 n).zero.first fun members => takes_pure _

/-- Interning reads nothing. -/
theorem takes_addKey (store : GraphStore) (key : NodeKey) : Takes 0 (addKey store key) := by
  rw [addKey]
  split
  · exact takes_pure _
  · exact takes_fail _ 0

/-! ## What an accepted blob reserves -/

/-- Room for a count, when as many items follow. -/
theorem affordable_counted {item : Item} {next : Nat → Reader α}
    {later : Nat → List UInt8 → List Reservation} (takes : ∀ n, Takes n (next n))
    (follows : ∀ n, Affordable Reservation.count (next n) (later n)) :
    Affordable Reservation.count (u32 >>= next)
      (follow u32 fun n buf => ⟨item, n⟩ :: later n buf) := by
  refine takes_u32.zero.affordable fun n => ⟨?_⟩
  intro tokens rest value read asked member
  rcases List.mem_cons.mp member with rfl | inner
  · exact Nat.le_trans (Nat.le_add_left n rest.length) ((takes n).left read)
  · exact (follows n).paid read asked inner

/-- Room for a list whose items reserve nothing themselves. -/
theorem affordable_reserve {item : Item} {next : Nat → Reader α}
    (takes : ∀ n, Takes n (next n)) :
    Affordable Reservation.count (u32 >>= next) (reserve item) :=
  affordable_counted takes fun n => affordable_silent (next n)

/-- Each entry of a map takes a byte, so there are as many bytes as entries. -/
theorem affordable_params : Affordable Reservation.count params paramsReserve :=
  affordable_reserve fun n => (takes_repeated (fun _ => takes_paramEntry) 0 n).first
    fun _ => takes_pure _

/-- Each input takes a byte. -/
theorem affordable_inputs (max : Nat) :
    Affordable Reservation.count (inputs max) inputsReserve :=
  affordable_reserve fun n => takes_repeated (fun _ => takes_input max) 0 n

/-- Parameters and inputs, of whatever record they are. -/
theorem affordable_operands (index : Nat) (build : ParamMap → List NodeId → NodeKey) :
    Affordable Reservation.count
      (params >>= fun params => inputs index >>= fun inputs => pure (build params inputs))
      (operandsReserve) :=
  affordable_params.bind takes_params fun _ => (affordable_inputs index).last _

/-- Each reference of a member takes a byte. -/
theorem affordable_stageOp (index : Nat) :
    Affordable Reservation.count (stageOp index) stageOpReserve :=
  takes_string.zero.affordable fun _ => affordable_reserve fun n =>
    (takes_repeated (fun _ => takes_stageRef index) 0 n).first fun _ => takes_pure _

/-- What one item reserves is paid for, and so is what all of them do. By
induction on their number. -/
theorem affordable_repeated {read : Nat → Reader α} {reserves : Nat → List UInt8 → List Reservation}
    (takes : ∀ index, Takes 0 (read index))
    (each : ∀ index, Affordable Reservation.count (read index) (reserves index))
    (index count : Nat) : Affordable Reservation.count (repeated read index count)
      (repeatedReserve read reserves index count) := by
  induction count generalizing index with
  | zero => exact affordable_silent _
  | succ count ih => exact (each index).bind (takes index) fun item => (ih (index + 1)).last _

/-- A record reserves for the lists that its tag says it has. -/
theorem affordable_node (index : Nat) :
    Affordable Reservation.count (node index) (nodeReserve index) := by
  refine takes_u8.zero.affordable fun tag => ?_
  refine .ite ?_ (.ite ?_ (.ite ?_ (.ite ?_ (.ite ?_ (affordable_silent _)))))
  · exact takes_string.zero.affordable fun name => affordable_params.last _
  · exact takes_string.zero.affordable fun name => affordable_operands index (.op name)
  · exact takes_string.zero.affordable fun name => affordable_operands index (.reduction name)
  · exact takes_descriptor.affordable fun descriptor =>
      affordable_operands index (.external descriptor)
  · refine (affordable_inputs index).bind (takes_inputs index) fun inputs => ?_
    refine affordable_counted (fun n => (takes_repeated takes_stageOp 0 n).first
      fun members => takes_pure _) (fun n => ?_)
    exact (affordable_repeated (fun index => (takes_stageOp index).zero) affordable_stageOp
      0 n).last _

/-- Interning reserves nothing between the records. By induction on their
number. -/
theorem affordable_nodes (index count : Nat) (store : GraphStore) :
    Affordable Reservation.count (nodes index count store) (nodesReserve index count store) := by
  induction count generalizing index store with
  | zero => exact affordable_silent _
  | succ count ih =>
    exact (affordable_node index).bind (takes_node index) fun key =>
      (takes_addKey store key).affordable fun store => ih (index + 1) store

/-- The records are read one after another, with what the first ones left. -/
theorem affordable_graph : Affordable Reservation.count graph graphReserve := by
  refine (takes_take 4).zero.affordable fun m => .ite (affordable_silent _) ?_
  exact takes_u32.zero.affordable fun n => (affordable_nodes 0 n .new).last _

end Reader

/-- A blob that is accepted reserves room for no more items, anywhere, than it has
bytes. -/
theorem reservations_accepted {data : List UInt8} {store : GraphStore}
    (accepted : deserialize data = .ok store) :
    ∀ reserved ∈ reservations data, reserved.count ≤ data.length := by
  rw [deserialize] at accepted
  cases read : Reader.graph data with
  | error bad => simp [read, Except.map] at accepted
  | ok answer =>
    obtain ⟨result, rest⟩ := answer
    exact Reader.affordable_graph.paid read

end Serialize

end GraphedCore
