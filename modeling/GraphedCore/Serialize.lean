import GraphedCore.Store

/-!
# The durable byte form

A length-prefixed binary format: magic, node records in id order, output ids.
Integers are little-endian and a count or length is written into 32 bits, so it
is cut to them. The reader consumes a list of bytes and re-interns every record
it has read; `buf[pos..]` is the list it still has.
-/

namespace GraphedCore

namespace Serialize

/-- The four bytes `GIR1` that every blob starts with. -/
def magic : List UInt8 := [0x47, 0x49, 0x52, 0x31]

/-- Why bytes are refused. Each reason is an exception of the binding with its own
text. -/
inductive DecodeError where
  | badMagic
  | truncated
  | badTag (what : String) (tag : UInt8)
  | badUtf8
  | badNodeRef (i : Nat)
deriving DecidableEq

/-- The `width` low bytes of `n`, least significant first, as `to_le_bytes` orders
them. -/
def leBytes : Nat → Nat → List UInt8
  | 0, _ => []
  | width + 1, n => UInt8.ofNat n :: leBytes width (n / 256)

/-- The number whose little-endian bytes are given, of any width. -/
def fromLeBytes : List UInt8 → Nat
  | [] => 0
  | b :: rest => b.toNat + 256 * fromLeBytes rest

/-- Four bytes, the lowest first. A larger number is cut, as the cast `as u32`
cuts it. -/
def putU32 (v : Nat) : List UInt8 := leBytes 4 v

/-- Eight bytes, the lowest first. Node ids are written so. -/
def putU64 (v : Nat) : List UInt8 := leBytes 8 v

/-- A text as the length of its UTF-8 bytes and these bytes. -/
def putStr (s : String) : List UInt8 :=
  putU32 s.utf8ByteSize ++ s.toByteArray.data.toList

/-- A parameter as its tag and its value. Floats are written by their bits, so the
NaNs that count as equal are told apart here. -/
def putParamValue : ParamValue → List UInt8
  | .int a => 0 :: putU64 a.toUInt64.toNat
  | .float a => 1 :: putU64 a.toNat
  | .bool a => [2, if a then 1 else 0]
  | .str a => 3 :: putStr a

/-- Parameters as their number and their entries, in the order of the map. -/
def putParams (p : ParamMap) : List UInt8 :=
  putU32 p.entries.length ++ p.entries.flatMap (fun (k, v) => putStr k ++ putParamValue v)

/-- Inputs as their number and the ids, in order. -/
def putInputs (inputs : List NodeId) : List UInt8 :=
  putU32 inputs.length ++ inputs.flatMap putU64

/-- An optional text after a byte that says whether it is there: one or zero. -/
def putOptional : Option String → List UInt8
  | some s => 1 :: putStr s
  | none => [0]

/-- A descriptor as its fields in the order of the record. The preprocessing may
be absent. -/
def putDescriptor (d : PayloadDescriptor) : List UInt8 :=
  putStr d.kind ++ putStr d.contentHash ++ putStr d.framework ++ putStr d.version ++
    putStr d.ioSchema ++ putOptional d.preprocessingRef

/-- A reference as its tag and its number: zero for a slot of the stage, one for a
member. -/
def putStageRef : StageRef → List UInt8
  | .input i => 0 :: putU32 i
  | .member i => 1 :: putU32 i

/-- A member as its token and its references, with their number before them. -/
def putStageOp (m : StageOp) : List UInt8 :=
  putStr m.token ++ putU32 m.inputs.length ++ m.inputs.flatMap putStageRef

/-- A node as its tag and its fields. The tags count the kinds in the order of the
enumeration. -/
def putNode : NodeKey → List UInt8
  | .source name params => 0 :: putStr name ++ putParams params
  | .op name params inputs => 1 :: putStr name ++ putParams params ++ putInputs inputs
  | .reduction name params inputs => 2 :: putStr name ++ putParams params ++ putInputs inputs
  | .external d params inputs => 3 :: putDescriptor d ++ putParams params ++ putInputs inputs
  | .stage inputs members =>
      4 :: putInputs inputs ++ putU32 members.length ++ members.flatMap putStageOp

/-- The nodes of the store and an explicit output list, which need not be its
marks and is not checked. -/
def serializeWith (store : GraphStore) (outputs : List NodeId) : List UInt8 :=
  magic ++ putU32 store.nodes.length ++ store.nodes.flatMap putNode ++
    putU32 outputs.length ++ outputs.flatMap putU64

/-- A store with its own outputs. Nothing of the interning table is written, since
decoding rebuilds it. -/
def serialize (store : GraphStore) : List UInt8 := serializeWith store store.outputs

/-- A reader takes what it needs from the front of the unread bytes, or refuses
them. It models a cursor into a buffer. -/
abbrev Reader := StateT (List UInt8) (Except DecodeError)

namespace Reader

/-- A reader that refuses whatever it is given. -/
def fail {α : Type} (error : DecodeError) : Reader α := fun _ => .error error

/-- The next bytes, which must be there. If fewer are left the blob is
truncated. -/
def take (n : Nat) : Reader (List UInt8) := fun buf =>
  if n ≤ buf.length then .ok (buf.take n, buf.drop n) else .error .truncated

/-- The next byte. Where none is left the blob is truncated. -/
def u8 : Reader UInt8 := do
  let b ← take 1
  pure (b.headD 0)

/-- The next four bytes as a number. Every pattern of bits is a number. -/
def u32 : Reader Nat := do
  let b ← take 4
  pure (fromLeBytes b)

/-- The next eight bytes as a number. Every pattern of bits is a number. -/
def u64 : Reader Nat := do
  let b ← take 8
  pure (fromLeBytes b)

/-- A text: its length, its bytes, and the check that they are UTF-8. The bytes
are taken before they are checked. -/
def string : Reader String := do
  let n ← u32
  let b ← take n
  match String.fromUTF8? ⟨b.toArray⟩ with
  | some s => pure s
  | none => fail .badUtf8

/-- Read `count` items, the first one at position `index`. The loop stops at the
first item that is refused. -/
def repeated {α : Type} (read : Nat → Reader α) : Nat → Nat → Reader (List α)
  | _, 0 => pure []
  | index, count + 1 => do
    let item ← read index
    let rest ← repeated read (index + 1) count
    pure (item :: rest)

/-- A parameter by its tag. Any byte but zero is read as true, and an integer is
read in two's complement. -/
def paramValue : Reader ParamValue := do
  let tag ← u8
  if tag = 0 then do
    let v ← u64
    pure (.int (Int64.ofUInt64 (UInt64.ofNat v)))
  else if tag = 1 then do
    let v ← u64
    pure (.float (UInt64.ofNat v))
  else if tag = 2 then do
    let b ← u8
    pure (.bool (b != 0))
  else if tag = 3 then do
    let s ← string
    pure (.str s)
  else fail (.badTag "param" tag)

/-- An entry: its key and its value. Keys may come more than once and in any
order. -/
def paramEntry : Reader (String × ParamValue) := do
  let k ← string
  let v ← paramValue
  pure (k, v)

/-- Parameters, sorted after they are read, since the decoder hands them to
`ParamMap::new`. -/
def params : Reader ParamMap := do
  let n ← u32
  let entries ← repeated (fun _ => paramEntry) 0 n
  pure (.new entries)

/-- An input id, which must name an earlier record. It is checked against the
number of records before, not against the store. -/
def input (max : Nat) : Reader NodeId := do
  let i ← u64
  if max ≤ i then fail (.badNodeRef i) else pure i

/-- Inputs, each checked as it is read to come before the node. A wrong one is
refused even when bytes are missing after it. -/
def inputs (max : Nat) : Reader (List NodeId) := do
  let n ← u32
  repeated (fun _ => input max) 0 n

/-- An optional text. Any byte but zero announces one. -/
def optional : Reader (Option String) := do
  let flag ← u8
  if flag != 0 then do
    let s ← string
    pure (some s)
  else pure none

/-- A descriptor, field by field in the order of the record. -/
def descriptor : Reader PayloadDescriptor := do
  let kind ← string
  let contentHash ← string
  let framework ← string
  let version ← string
  let ioSchema ← string
  let preprocessingRef ← optional
  pure ⟨kind, contentHash, framework, version, ioSchema, preprocessingRef⟩

/-- A reference in member `index`, which may name only an earlier member. A slot
is not checked against the inputs of the stage. -/
def stageRef (index : Nat) : Reader StageRef := do
  let tag ← u8
  let v ← u32
  if tag = 0 then pure (.input v)
  else if tag = 1 then
    if index ≤ v then fail (.badNodeRef v) else pure (.member v)
  else fail (.badTag "stage-ref" tag)

/-- A member: its token and its slots, each checked to read an input or an earlier
member. -/
def stageOp (index : Nat) : Reader StageOp := do
  let token ← string
  let n ← u32
  let refs ← repeated (fun _ => stageRef index) 0 n
  pure ⟨token, refs⟩

/-- The node record at position `index`, read by its tag. An unknown tag is
refused. -/
def node (index : Nat) : Reader NodeKey := do
  let tag ← u8
  if tag = 0 then do
    let name ← string
    let params ← params
    pure (.source name params)
  else if tag = 1 then do
    let name ← string
    let params ← params
    let inputs ← inputs index
    pure (.op name params inputs)
  else if tag = 2 then do
    let name ← string
    let params ← params
    let inputs ← inputs index
    pure (.reduction name params inputs)
  else if tag = 3 then do
    let descriptor ← descriptor
    let params ← params
    let inputs ← inputs index
    pure (.external descriptor params inputs)
  else if tag = 4 then do
    let inputs ← inputs index
    let n ← u32
    let members ← repeated stageOp 0 n
    pure (.stage inputs members)
  else fail (.badTag "node" tag)

/-- Intern a record that has been read. A record that was read before gets the id
that it has, so ids may fall behind record positions. -/
def addKey (store : GraphStore) (key : NodeKey) : Reader GraphStore :=
  match store.addKey key with
  | (.ok _, store) => pure store
  | (.error bad, _) => fail (.badNodeRef bad.id)

/-- Mark an output that was read, or refuse the bytes. Its index is looked up in
the rebuilt store. -/
def markOutput (store : GraphStore) (id : NodeId) : Reader GraphStore :=
  match store.markOutput id with
  | (.ok (), store) => pure store
  | (.error bad, _) => fail (.badNodeRef bad.id)

/-- Read and intern `count` records, the first one at position `index`. A record
is interned before the next one is read. -/
def nodes : Nat → Nat → GraphStore → Reader GraphStore
  | _, 0, store => pure store
  | index, count + 1, store => do
    let key ← node index
    let store ← addKey store key
    nodes (index + 1) count store

/-- The outputs, marked one after another as they are read. Repeated ones are
marked once. -/
def outputs : Nat → GraphStore → Reader GraphStore
  | 0, store => pure store
  | count + 1, store => do
    let o ← u64
    let store ← markOutput store o
    outputs count store

/-- The whole blob: the magic number, the nodes, each interned as it is read, and
the outputs. -/
def graph : Reader GraphStore := do
  let m ← take 4
  if m ≠ magic then fail .badMagic else do
    let nNodes ← u32
    let store ← nodes 0 nNodes GraphStore.new
    let nOut ← u32
    outputs nOut store

end Reader

/-- Decode a byte string into a freshly interned store. Bytes after the last
output are not looked at. -/
def deserialize (data : List UInt8) : Except DecodeError GraphStore :=
  (Reader.graph data).map Prod.fst

end Serialize

end GraphedCore
