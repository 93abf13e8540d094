import Mathlib.Logic.Equiv.Basic
import GraphedCore.Plan
import GraphedCore.Tokens

/-!
# Content addresses

A hash over length-prefixed parts tells the parts apart, however many they are. The parts
of a task id are a domain tag, the graph, the callable and the partition, so equal ids come
from equal computations over equal partitions, and the fingerprints, which hash one part,
are no task ids.
-/

namespace GraphedCore.Plan

open Execution

/-- A text has one spelling in UTF-8. -/
theorem utf8_inj {s t : String} (same : utf8 s = utf8 t) : s = t :=
  String.toByteArray_inj.mp (ByteArray.ext (Array.toList_inj.mp same))

/-- Each byte takes two digits, and two digits tell it. -/
theorem hexByte_prefixFree : Separated.PrefixFree
    (fun b : UInt8 => [hexDigit (b.toNat / 16), hexDigit (b.toNat % 16)]) where
  nonempty b := List.cons_ne_nil _ _
  recover b c rest rest' same := by
    have small := b.toNat_lt
    have small' := c.toNat_lt
    obtain ⟨high, lower⟩ := List.cons.inj same
    have high := hexDigit_inj _ (by omega) _ (by omega) high
    have low := hexDigit_inj _ (by omega) _ (by omega) (List.cons.inj lower).1
    exact UInt8.toNat_inj.mp (by omega)

/-- The printed digest tells the digest. -/
theorem hexdigest_inj {digest digest' : List UInt8} (same : hexdigest digest = hexdigest digest') :
    digest = digest' :=
  Separated.flatMap_inj hexByte_prefixFree (String.ofList_injective same)

/-- A content address determines the hashed parts. -/
theorem Library.sha256Hex_inj {lib : Library} (injective : Function.Injective lib.sha256)
    {parts parts' : List (List UInt8)} {address : String} (done : lib.sha256Hex parts = some address)
    (done' : lib.sha256Hex parts' = some address) : parts = parts' := by
  obtain ⟨message, joined, rfl⟩ := Option.map_eq_some_iff.mp done
  obtain ⟨message', joined', same⟩ := Option.map_eq_some_iff.mp done'
  obtain rfl := injective (hexdigest_inj same)
  exact Framing.join_inj (by decide) joined joined'

/-! ## Callables and partitions -/

/-- The same kind, and the same path of import or the same embedded bytes. -/
def OpSpec.SameCallable (op op' : OpSpec) : Prop :=
  match op.kind, op'.kind with
  | .ref, .ref => op.ref = op'.ref
  | .opaqueBlob, .opaqueBlob => Base64.b64decode op.blobB64 = Base64.b64decode op'.blobB64
  | _, _ => False

/-- Callables have one identity exactly when they are the same: references by
their text, pickles by their bytes. The words before the first NUL tell the two
kinds apart. -/
theorem OpSpec.identity_iff {op op' : OpSpec} {bytes bytes' : List UInt8}
    (done : op.identity = some bytes) (done' : op'.identity = some bytes') :
    bytes = bytes' ↔ op.SameCallable op' := by
  have tags (rest rest' : List UInt8) : utf8 "ref\x00" ++ rest ≠ utf8 "opaque\x00" ++ rest' := by
    intro same
    exact absurd (List.cons.inj same).1 (by decide)
  rw [identity] at done done'
  rw [SameCallable]
  cases kind : op.kind with
  | ref =>
    rw [kind] at done
    cases kind' : op'.kind with
    | ref =>
      rw [kind'] at done'
      rw [← Option.some.inj done, ← Option.some.inj done', List.append_cancel_left_eq]
      exact ⟨utf8_inj, congrArg utf8⟩
    | opaqueBlob =>
      rw [kind'] at done'
      obtain ⟨blob, _, rfl⟩ := Option.map_eq_some_iff.mp done'
      rw [← Option.some.inj done]
      exact iff_of_false (tags _ _) id
  | opaqueBlob =>
    rw [kind] at done
    obtain ⟨blob, decoded, rfl⟩ := Option.map_eq_some_iff.mp done
    cases kind' : op'.kind with
    | ref =>
      rw [kind'] at done'
      rw [← Option.some.inj done']
      exact iff_of_false (fun same => tags _ _ same.symm) id
    | opaqueBlob =>
      rw [kind'] at done'
      obtain ⟨blob', decoded', rfl⟩ := Option.map_eq_some_iff.mp done'
      simp only [List.append_cancel_left_eq, decoded, decoded', Option.some.injEq]

/-- The entries that are written determine the partition. -/
theorem partitionJson_inj {x y : Partition} (built : x.Built) (built' : y.Built)
    (same : (partitionJson x).Perm (partitionJson y)) : x = y := by
  have length := same.length_eq
  have entry := fun e (member : e ∈ partitionJson x) => same.subset member
  obtain ⟨uri, tree, start, stop, step, nSteps⟩ := x
  obtain ⟨uri', tree', start', stop', step', nSteps'⟩ := y
  rcases built.fields with ⟨rfl, rfl⟩ | ⟨k, n, fields⟩
  · rcases built'.fields with ⟨rfl, rfl⟩ | ⟨k', n', fields'⟩
    · simpa [partitionJson] using entry
    · cases fields'
      simp [partitionJson] at length
  · cases fields
    rcases built'.fields with ⟨rfl, rfl⟩ | ⟨k', n', fields'⟩
    · simp [partitionJson] at length
    · cases fields'
      simpa [partitionJson] using entry

/-- Partitions that the constructors build are told apart by their canonical
bytes. A blind one has two more fields, and its range is empty. -/
theorem partitionBytes_inj {lib : Library} {x y : Partition} (built : x.Built) (built' : y.Built)
    (same : partitionBytes lib x = partitionBytes lib y) : x = y :=
  partitionJson_inj built built' (JsonText.flat_inj (utf8_inj same))

/-! ## Task ids -/

namespace DurablePlan

variable {lib : Library} {p q : DurablePlan} {x y : Partition} {a b : String}

/-- A task that has an id hashes the domain, the graph, the identity of its
process and its partition, each behind its length. -/
theorem taskId_some (done : p.taskId lib x = some a) : ∃ identity,
    p.process.identity = some identity ∧
      lib.sha256Hex [taskDomain, p.ir, identity, partitionBytes lib x] = some a :=
  Option.bind_eq_some_iff.mp done

/-- An id exists when the callable can be identified and every part fits its
length prefix. -/
theorem taskId_exists_iff : (∃ a, p.taskId lib x = some a) ↔ ∃ identity,
    p.process.identity = some identity ∧
      ∀ part ∈ [taskDomain, p.ir, identity, partitionBytes lib x], part.length < 256 ^ 8 := by
  simp only [← Framing.join_exists_iff, taskId, Library.sha256Hex, Option.bind_eq_some_iff,
    Option.map_eq_some_iff]
  constructor
  · rintro ⟨_, identity, called, message, joined, _⟩
    exact ⟨identity, called, message, joined⟩
  · rintro ⟨identity, called, message, joined⟩
    exact ⟨_, identity, called, message, joined, rfl⟩

/-- An id determines the hashed parts. -/
theorem taskId_parts (injective : Function.Injective lib.sha256) (done : p.taskId lib x = some a)
    (done' : q.taskId lib y = some a) : p.ir = q.ir ∧ p.process.identity = q.process.identity ∧
      partitionBytes lib x = partitionBytes lib y := by
  obtain ⟨identity, called, hashed⟩ := taskId_some done
  obtain ⟨identity', called', hashed'⟩ := taskId_some done'
  have parts := lib.sha256Hex_inj injective hashed hashed'
  simp only [List.cons.injEq, and_true, true_and] at parts
  obtain ⟨ir, identities, partitions⟩ := parts
  exact ⟨ir, by rw [called, called', identities], partitions⟩

/-- Task ids are equal for the same graph, callable and partition, and for nothing
else, and they are no fingerprints. The parts are hashed behind their lengths, so
that no two lists of parts are one text. -/
theorem taskId_eq_iff (injective : Function.Injective lib.sha256) (built : x.Built)
    (built' : y.Built) (done : p.taskId lib x = some a) (done' : q.taskId lib y = some b) :
    (a = b ↔ p.ir = q.ir ∧ p.process.SameCallable q.process ∧ x = y) ∧
      ∀ r : DurablePlan, r.irFingerprint lib ≠ some a ∧ r.fingerprint lib ≠ some a := by
  obtain ⟨identity, called, hashed⟩ := taskId_some done
  obtain ⟨identity', called', hashed'⟩ := taskId_some done'
  have callable := OpSpec.identity_iff called called'
  refine ⟨⟨?_, ?_⟩, ?_⟩
  · rintro rfl
    obtain ⟨ir, identities, partitions⟩ := taskId_parts injective done done'
    rw [called, called', Option.some.injEq] at identities
    exact ⟨ir, callable.mp identities, partitionBytes_inj built built' partitions⟩
  · rintro ⟨ir, process, rfl⟩
    rw [ir, callable.mpr process] at hashed
    exact Option.some.inj (hashed.symm.trans hashed')
  · intro r
    have one (part : List UInt8) : lib.sha256Hex [part] ≠ some a := by
      intro fingerprint
      have parts := lib.sha256Hex_inj injective fingerprint hashed
      simp at parts
    exact ⟨one _, one _⟩

/-- One plan, and the hash function on its two tasks; it trades each message for
its digest and leaves other bytes alone. -/
def hypotPlan : DurablePlan :=
  { ir := utf8 "GIR", process := ⟨.ref, "math:hypot", ""⟩, combine := ⟨.ref, "operator:add", ""⟩,
    empty := ⟨.ref, "builtins:int", ""⟩ }

/-- The first five entries of a dataset, by their range. -/
def rangeTask : Partition := ⟨"d", "t", 0, 5, none, none⟩

/-- The first and only step of a dataset whose length was not looked up. -/
def blindTask : Partition := ⟨"d", "t", 0, 0, some 0, some 1⟩

/-- The id of the first task, as the repository computes it for this plan. -/
def rangeTaskId : String := "06a9af83216c4926cc99c110f79c6bb6773a1a52f1150695b0f72f5178becb4a"

/-- The id of the second task under the same plan. -/
def blindTaskId : String := "36149b99239eab375150d7db6a58110485d52a2069e48d97c120d15a47a1a525"

/-- The bytes that are hashed for a task of this plan whose partition is spelled
so. -/
def hypotMessage (x : String) : List UInt8 :=
  ((Framing.join 8 [taskDomain, utf8 "GIR", utf8 "ref\x00math:hypot", utf8 x]).getD [])

/-- The digests of the two messages. Other bytes stand for themselves, so no two
messages have one digest. -/
def hypotLibrary : Library where
  sha256 :=
    (Equiv.swap
      (hypotMessage "\x7b\"entry_start\":0,\"entry_stop\":5,\"tree\":\"t\",\"uri\":\"d\"\x7d")
      [6, 169, 175, 131, 33, 108, 73, 38, 204, 153, 193, 16, 247, 156, 107, 182, 119, 58, 26, 82,
        241, 21, 6, 149, 176, 247, 47, 81, 120, 190, 203, 74]).trans
    (Equiv.swap
      (hypotMessage "\x7b\"blind_n_steps\":1,\"blind_step\":0,\"entry_start\":0,\"entry_stop\":0,\"tree\":\"t\",\"uri\":\"d\"\x7d")
      [54, 20, 155, 153, 35, 158, 171, 55, 81, 80, 215, 219, 106, 88, 17, 4, 133, 213, 42, 32, 105,
        228, 141, 151, 193, 32, 209, 90, 71, 161, 165, 37])
  floatRepr := fun _ => "0.0"

/-- The two tasks have two ids, and neither is the fingerprint of a plan. -/
theorem taskId_eq_iff_of_hypot :
    (rangeTaskId = blindTaskId ↔ hypotPlan.ir = hypotPlan.ir ∧
      hypotPlan.process.SameCallable hypotPlan.process ∧ rangeTask = blindTask) ∧
      ∀ r : DurablePlan, r.irFingerprint hypotLibrary ≠ some rangeTaskId ∧
        r.fingerprint hypotLibrary ≠ some rangeTaskId :=
  taskId_eq_iff (Equiv.injective _) (Or.inl ⟨rfl, rfl⟩) (Or.inr ⟨"d", "t", 0, 1, rfl⟩)
    (by decide +kernel) (by decide +kernel)

end DurablePlan

end GraphedCore.Plan
