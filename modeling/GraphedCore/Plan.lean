import Mathlib.Data.List.AList
import GraphedCore.Execution
import GraphedCore.Lib.Base64
import GraphedCore.Lib.Framing
import GraphedCore.Lib.Json
import GraphedCore.Param

/-!
# Durable plans

A durable plan is written as one JSON document with sorted keys and no blanks, its binary
parts in base64. Content addresses are SHA-256 digests of length-prefixed parts. The hash
function and the text of a float are not defined here. `none` models the errors of Python's
own functions: a part that is longer than its length prefix can say, and text that is not
base64.
-/

namespace GraphedCore.Plan

open Execution

/-- What the plan uses of the standard library without knowing how it works: a
hash function and the spelling of floats. -/
structure Library where
  sha256 : List UInt8 → List UInt8
  floatRepr : F64 → String

/-- What decoding uses of it: `json.loads` on bytes, and `int` on a value of a
document. -/
structure Reader where
  loads : List UInt8 → Option JsonText.Value
  toInt : JsonText.Value → Option Int

/-- A key that is not there, a kind that is not known, or what `Partition.blind`
refuses. The rest is a value of another type than its field, or text that a
function of Python refuses. -/
inductive DecodeError where
  | missing (key : String)
  | unknownKind (kind : String)
  | refused (message : String)
  | malformed
deriving DecidableEq

/-- The version that plans are written with. A plan that is read keeps the version
it has. -/
def formatVersion : Int := 1

/-- The bytes of a text, as they are hashed and written. -/
def utf8 (s : String) : List UInt8 := s.toByteArray.data.toList

/-- What every task id is hashed under, so that it is no digest of anything
else. -/
def taskDomain : List UInt8 := utf8 "graphed-task-v1"

/-- A digest in hexadecimal digits, two for each byte. -/
def hexdigest (digest : List UInt8) : String :=
  String.ofList (digest.flatMap (fun b => [hexDigit (b.toNat / 16), hexDigit (b.toNat % 16)]))

/-- The hash of parts that are framed by their lengths, so that no two lists of
parts are one message. -/
def Library.sha256Hex (lib : Library) (parts : List (List UInt8)) : Option String :=
  (Framing.join 8 parts).map (fun message => hexdigest (lib.sha256 message))

/-! ## Values of a document -/

/-- A field that a document must have. A missing one is named in the error. -/
def item (d : JsonText.Value) (key : String) : Except DecodeError JsonText.Value :=
  match d with
  | .dict entries =>
    match entries.lookup key with
    | some value => .ok value
    | none => .error (.missing key)
  | _ => .error .malformed

/-- A value that must be a text. Nothing else is converted to one. -/
def text : JsonText.Value → Except DecodeError String
  | .scalar (.str a) => .ok a
  | _ => .error .malformed

/-- `d.get(key, "")`: the text under a key, or the empty one. -/
def textOr (d : JsonText.Value) (key : String) : Except DecodeError String :=
  match d.get? key with
  | some value => text value
  | none => .ok ""

/-- A value that `int(...)` accepts. Which values these are is left to the
reader. -/
def Reader.int (reader : Reader) (value : JsonText.Value) : Except DecodeError Int :=
  match reader.toInt value with
  | some a => .ok a
  | none => .error .malformed

/-- `int(d.get(key, 0))`: an absent entry is zero. -/
def Reader.intOr (reader : Reader) (d : JsonText.Value) (key : String) : Except DecodeError Int :=
  match d.get? key with
  | some value => reader.int value
  | none => .ok 0

/-- A value that must be a list. Its items are read one after another. -/
def items : JsonText.Value → Except DecodeError (List JsonText.Value)
  | .list items => .ok items
  | _ => .error .malformed

/-! ## Callables -/

/-- How a callable is carried: by the name it is imported under, or as a
pickle. -/
inductive OpKind where
  | ref
  | opaqueBlob
deriving DecidableEq

/-- The kind as it is written into a document. -/
def OpKind.text : OpKind → String
  | .ref => "ref"
  | .opaqueBlob => "opaque"

/-- A callable by the path of its import, or embedded by value. The field that the
kind does not use is empty. -/
structure OpSpec where
  kind : OpKind
  ref : String := ""
  blobB64 : String := ""
deriving DecidableEq

namespace OpSpec

/-- Bytes that identify the callable, or nothing when the embedded text is no
base64. -/
def identity (op : OpSpec) : Option (List UInt8) :=
  match op.kind with
  | .ref => some (utf8 "ref\x00" ++ utf8 op.ref)
  | .opaqueBlob => (Base64.b64decode op.blobB64).map (utf8 "opaque\x00" ++ ·)

/-- The specification of a callable as a document. Both fields are written,
whichever the kind uses. -/
def toJson (op : OpSpec) : JsonText.Value :=
  JsonText.flat [("kind", .str op.kind.text), ("ref", .str op.ref), ("blob_b64", .str op.blobB64)]

/-- The specification of a callable, read from a document. Its kind decides which
field is needed. -/
def fromJson (d : JsonText.Value) : Except DecodeError OpSpec := do
  let kind ← (item d "kind").bind text
  let ref ← textOr d "ref"
  let blob ← textOr d "blob_b64"
  if kind = "ref" then .ok ⟨.ref, ref, blob⟩
  else if kind = "opaque" then .ok ⟨.opaqueBlob, ref, blob⟩
  else .error (.unknownKind kind)

end OpSpec

/-! ## Plans -/

/-- A number as the metadata of a plan holds it. An int and a float are told
apart. -/
inductive Number where
  | int (a : Int)
  | float (a : F64)
deriving DecidableEq

/-- A number as a document, of the type it has. -/
def Number.toJson : Number → JsonText.Value
  | .int a => .scalar (.int a)
  | .float a => .float a

/-- A number, read from a document: an int stays an int. A text is not
converted. -/
def Number.fromJson : JsonText.Value → Except DecodeError Number
  | .scalar (.int a) => .ok (.int a)
  | .float a => .ok (.float a)
  | _ => .error .malformed

/-- A dictionary with string keys, in the order of insertion. Equality minds that
order, which loading does not keep. -/
abbrev Dict (α : Type) := AList (fun _ : String => α)

/-- `dict(d)` with each value read. The order is that of the document, which is
sorted when it was written so. -/
def readDict {α : Type} (read : JsonText.Value → Except DecodeError α) :
    JsonText.Value → Except DecodeError (Dict α)
  | .dict entries =>
    (entries.mapM (fun entry => (read entry.2).map (fun value => (⟨entry.1, value⟩ : Sigma _)))).map
      List.toAList
  | _ => .error .malformed

/-- A graph in its written form, the callables, and the partitions to run on. With
its metadata it is all that a worker is sent. -/
structure DurablePlan where
  ir : List UInt8
  process : OpSpec
  combine : OpSpec
  empty : OpSpec
  partitions : List Partition := []
  readColumns : List String := []
  stopping : Dict Number := ∅
  fileLocality : Dict String := ∅
  resourceHints : Dict Number := ∅
  formatVersion : Int := formatVersion

/-- A partition as a document. The blind fields are written only when both are
set. -/
def partitionJson (x : Partition) : List (String × JsonText.Scalar) :=
  [("uri", .str x.uri), ("tree", .str x.tree), ("entry_start", .int x.entryStart),
    ("entry_stop", .int x.entryStop)] ++
  match x.blindStep, x.blindNSteps with
  | some step, some nSteps => [("blind_step", .int step), ("blind_n_steps", .int nSteps)]
  | _, _ => []

/-- The bytes of a partition, which its task id is made of: its document, with
sorted keys. -/
def partitionBytes (lib : Library) (x : Partition) : List UInt8 :=
  utf8 (JsonText.dumps lib.floatRepr (JsonText.flat (partitionJson x)))

/-- A partition, read from a document: a blind one when the document has a blind
step. -/
def partitionFromJson (reader : Reader) (d : JsonText.Value) : Except DecodeError Partition :=
  if (d.get? "blind_step").isSome then do
    let uri ← (item d "uri").bind text
    let tree ← textOr d "tree"
    let step ← (item d "blind_step").bind reader.int
    let nSteps ← (item d "blind_n_steps").bind reader.int
    (Partition.blind uri tree step nSteps).mapError .refused
  else do
    let uri ← (item d "uri").bind text
    let tree ← textOr d "tree"
    let entryStart ← reader.intOr d "entry_start"
    let entryStop ← reader.intOr d "entry_stop"
    .ok { uri := uri, tree := tree, entryStart := entryStart, entryStop := entryStop }

namespace DurablePlan

/-- A plan as a document, field by field in the order of the source. The graph is
in base64. -/
def toJson (p : DurablePlan) : JsonText.Value :=
  .dict [
    ("format_version", .scalar (.int p.formatVersion)),
    ("ir_b64", .scalar (.str (Base64.b64encode p.ir))),
    ("process", p.process.toJson),
    ("combine", p.combine.toJson),
    ("empty", p.empty.toJson),
    ("partitions", .list (p.partitions.map (fun x => JsonText.flat (partitionJson x)))),
    ("read_columns", .list (p.readColumns.map (fun column => .scalar (.str column)))),
    ("stopping", .dict (p.stopping.entries.map (fun entry => (entry.1, entry.2.toJson)))),
    ("file_locality",
      .dict (p.fileLocality.entries.map (fun entry => (entry.1, .scalar (.str entry.2))))),
    ("resource_hints", .dict (p.resourceHints.entries.map (fun entry => (entry.1, entry.2.toJson))))]

/-- The bytes of a plan: the document with sorted keys and without blanks, in
ASCII. -/
def toBytes (lib : Library) (p : DurablePlan) : List UInt8 :=
  utf8 (JsonText.dumps lib.floatRepr p.toJson)

/-- The bytes behind a text in base64, or the failure to decode it. -/
def b64Bytes (s : String) : Except DecodeError (List UInt8) :=
  match Base64.b64decode s with
  | some bytes => .ok bytes
  | none => .error .malformed

/-- A plan, read from a document, field by field. The first field that cannot be
read decides the error. -/
def fromJson (reader : Reader) (d : JsonText.Value) : Except DecodeError DurablePlan := do
  let ir ← ((item d "ir_b64").bind text).bind b64Bytes
  let process ← (item d "process").bind OpSpec.fromJson
  let combine ← (item d "combine").bind OpSpec.fromJson
  let empty ← (item d "empty").bind OpSpec.fromJson
  let partitions ← ((item d "partitions").bind items).bind
    (fun xs => xs.mapM (partitionFromJson reader))
  let readColumns ← ((item d "read_columns").bind items).bind (fun xs => xs.mapM text)
  let stopping ← (item d "stopping").bind (readDict Number.fromJson)
  let fileLocality ← (item d "file_locality").bind (readDict text)
  let resourceHints ← (item d "resource_hints").bind (readDict Number.fromJson)
  let formatVersion ← (item d "format_version").bind reader.int
  .ok ⟨ir, process, combine, empty, partitions, readColumns, stopping, fileLocality, resourceHints,
    formatVersion⟩

/-- A plan, read from bytes. What is no document is malformed. -/
def fromBytes (reader : Reader) (data : List UInt8) : Except DecodeError DurablePlan :=
  match reader.loads data with
  | some d => fromJson reader d
  | none => .error .malformed

/-- The identity of the computation, whatever it is run on. -/
def irFingerprint (lib : Library) (p : DurablePlan) : Option String := lib.sha256Hex [p.ir]

/-- The identity of the whole plan, partitions and metadata included. -/
def fingerprint (lib : Library) (p : DurablePlan) : Option String := lib.sha256Hex [p.toBytes lib]

/-- The identity of running `process` over one partition under this plan.
Combining and the other partitions do not enter it. -/
def taskId (lib : Library) (p : DurablePlan) (x : Partition) : Option String :=
  p.process.identity.bind fun identity =>
    lib.sha256Hex [taskDomain, p.ir, identity, partitionBytes lib x]

end DurablePlan

end GraphedCore.Plan
