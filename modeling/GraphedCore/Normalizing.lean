import GraphedCore.Strict

/-!
# The normal form of a blob

Many blobs are read as one store, and one of them is written for it. Whatever blob was
read, every count and length that was read fits where it is written. So writing gives a
blob that is read as the store again. It is canonical, no other canonical blob is read
as the store, and none that is read as the store is shorter.
-/

namespace GraphedCore

open Dag Parsing GraphStore

namespace Serialize

/-! ## What is read fits -/

namespace Reader

/-- A failing reader yields nothing. -/
theorem fail_yields {α : Type} {P : α → Prop} {error : DecodeError} :
    Yields P (fail error : Reader α) where
  answers read := nomatch read

/-- Nothing is asked of what a reader yields. -/
theorem any_yields {α : Type} (reader : Reader α) : Yields (fun _ => True) reader where
  answers _ := trivial

/-- A text that was read has a length that fits, since its length was read as a
32-bit word. -/
theorem string_yields : Yields (fun s : String => Fits s.utf8ByteSize) string where
  answers read := (string_ok read).1

/-- A count that was read fits. -/
theorem u32_yields : Yields Fits u32 where
  answers read := (u32_ok read).1

/-- An entry that was read fits. -/
theorem paramEntry_yields : Yields
    (fun entry : String × ParamValue => Fits entry.1.utf8ByteSize ∧ entry.2.Fits) paramEntry where
  answers := paramEntry_fits

/-- As many items as announced are read, and each is one that the reader of items
yields. -/
theorem repeated_yields {α : Type} {P : α → Prop} {read : Nat → Reader α}
    (each : ∀ index, Yields P (read index)) {count : Nat} (few : Fits count) (index : Nat) :
    Yields (fun items => Fits items.length ∧ ∀ item ∈ items, P item)
      (repeated read index count) where
  answers listed := by
    have length := repeated_length listed
    refine ⟨length ▸ few, fun item member => ?_⟩
    obtain ⟨k, lookup⟩ := List.mem_iff_getElem?.mp member
    obtain ⟨_, _, one⟩ := repeated_ok listed lookup
    exact (each _).answers one

/-- Parameters that were read fit. Sorting them changes neither their number nor
their texts. -/
theorem params_yields : Yields ParamMap.Fits params := by
  apply u32_yields.bind
  intro n few
  apply (repeated_yields (fun _ => paramEntry_yields) few 0).bind
  rintro entries ⟨length, each⟩
  apply yields_pure
  have perm : (ParamMap.new entries).entries.Perm entries := entries.perm_insertionSort _
  have count : Fits (ParamMap.new entries).entries.length := perm.length_eq ▸ length
  exact ⟨count, fun entry member => each entry (perm.mem_iff.mp member)⟩

/-- Inputs that were read have a number that fits. -/
theorem inputs_yields (max : Nat) : Yields (fun ids => Fits ids.length) (inputs max) := by
  apply u32_yields.bind
  intro n few
  have listed := repeated_yields (fun _ => any_yields (input max)) few 0
  exact ⟨fun read => (listed.answers read).1⟩

/-- An optional text that was read fits. -/
theorem optional_yields :
    Yields (fun s => ∀ text ∈ s, Fits (String.utf8ByteSize text)) optional := by
  apply (any_yields u8).bind
  intro flag _
  apply Yields.ite
  · intro _
    apply string_yields.bind
    intro s fits
    apply yields_pure
    simpa using fits
  · intro _
    apply yields_pure
    simp

/-- A descriptor that was read fits. -/
theorem descriptor_yields : Yields PayloadDescriptor.Fits descriptor := by
  apply string_yields.bind
  intro kind fitsKind
  apply string_yields.bind
  intro contentHash fitsHash
  apply string_yields.bind
  intro framework fitsFramework
  apply string_yields.bind
  intro version fitsVersion
  apply string_yields.bind
  intro ioSchema fitsSchema
  apply optional_yields.bind
  intro preprocessingRef fitsRef
  exact yields_pure ⟨fitsKind, fitsHash, fitsFramework, fitsVersion, fitsSchema, fitsRef⟩

/-- A slot that was read fits. -/
theorem stageRef_yields (index : Nat) : Yields StageRef.Fits (stageRef index) := by
  apply (any_yields u8).bind
  intro tag _
  apply u32_yields.bind
  intro v fits
  apply Yields.ite
  · intro _
    exact yields_pure fits
  · intro _
    apply Yields.ite
    · intro _
      apply Yields.ite
      · intro _
        exact fail_yields
      · intro _
        exact yields_pure trivial
    · intro _
      exact fail_yields

/-- A member that was read fits. -/
theorem stageOp_yields (index : Nat) : Yields StageOp.Fits (stageOp index) := by
  apply string_yields.bind
  intro token fits
  apply u32_yields.bind
  intro n few
  apply (repeated_yields (fun _ => stageRef_yields index) few 0).bind
  rintro refs ⟨length, each⟩
  exact yields_pure ⟨fits, length, each⟩

/-- A record that was read fits, by the kinds of records. -/
theorem node_yields (index : Nat) : Yields NodeKey.Fits (node index) := by
  have named {make : String → ParamMap → List NodeId → NodeKey} (fits : ∀ name params ids,
      Fits (String.utf8ByteSize name) → params.Fits → Fits ids.length →
        (make name params ids).Fits) :
      Yields NodeKey.Fits (string >>= fun name => params >>= fun params =>
        inputs index >>= fun ids => pure (make name params ids)) := by
    apply string_yields.bind
    intro name fitsName
    apply params_yields.bind
    intro params fitsParams
    apply (inputs_yields index).bind
    intro ids few
    exact yields_pure (fits name params ids fitsName fitsParams few)
  apply (any_yields u8).bind
  intro tag _
  apply Yields.ite
  · intro _
    apply string_yields.bind
    intro name fitsName
    apply params_yields.bind
    intro params fitsParams
    exact yields_pure ⟨fitsName, fitsParams⟩
  intro _
  apply Yields.ite
  · intro _
    exact named (fun _ _ _ fitsName fitsParams few => ⟨fitsName, fitsParams, few⟩)
  intro _
  apply Yields.ite
  · intro _
    exact named (fun _ _ _ fitsName fitsParams few => ⟨fitsName, fitsParams, few⟩)
  intro _
  apply Yields.ite
  · intro _
    apply descriptor_yields.bind
    intro d fits
    apply params_yields.bind
    intro params fitsParams
    apply (inputs_yields index).bind
    intro ids few
    exact yields_pure ⟨fits, fitsParams, few⟩
  intro _
  apply Yields.ite
  · intro _
    apply (inputs_yields index).bind
    intro ids few
    apply u32_yields.bind
    intro n small
    apply (repeated_yields stageOp_yields small 0).bind
    rintro members ⟨length, each⟩
    exact yields_pure ⟨few, length, each⟩
  · intro _
    exact fail_yields

/-- All records of a blob that was read fit, and so does their number. -/
theorem blob_yields :
    Yields (fun read => Fits read.1.length ∧ ∀ key ∈ read.1, NodeKey.Fits key) blob := by
  apply (any_yields (take 4)).bind
  intro m _
  apply Yields.ite
  · intro _
    exact fail_yields
  intro _
  apply u32_yields.bind
  intro n few
  apply (repeated_yields node_yields few 0).bind
  intro records fits
  apply u32_yields.bind
  intro _ _
  apply (any_yields _).bind
  intro outs _
  exact yields_pure fits

end Reader

/-! ## Writing what was read -/

/-- What was read is written without a cut. -/
theorem deserialize_fits {data : List UInt8} {store : GraphStore}
    (decoded : deserialize data = .ok store) : store.Fits := by
  obtain ⟨rest, read⟩ := deserialize_ok_iff.mp decoded
  obtain ⟨records, outs, interned, created, blob, keys, marks⟩ := Reader.graph_ok_iff.mp read
  obtain ⟨few, fits⟩ := Reader.blob_yields.answers blob
  obtain ⟨kept, nodes, sub⟩ := addKeys_sublist keys
  obtain rfl : interned.nodes = kept := nodes
  obtain ⟨rfl, _⟩ := markOutputs_some marks
  exact ⟨sub.length_le.trans_lt few, fun key member => fits key (sub.subset member)⟩

/-- Nothing is written that was not read. -/
theorem serialize_length_le {data : List UInt8} {store : GraphStore}
    (decoded : deserialize data = .ok store) : (serialize store).length ≤ data.length := by
  obtain ⟨rest, read⟩ := deserialize_ok_iff.mp decoded
  obtain ⟨records, outs, interned, created, blob, keys, marks⟩ := Reader.graph_ok_iff.mp read
  have numbered : Numbered records records.length interned created := by
    simpa using (numbered_new records).addKeys rfl keys
  obtain ⟨kept, nodes, sub⟩ := addKeys_sublist keys
  obtain rfl : interned.nodes = kept := nodes
  obtain ⟨rfl, _⟩ := markOutputs_some marks
  obtain ⟨front, body, rfl, written, lengths, _⟩ := Reader.blob_tightens.spans blob
  obtain rfl : putBlob records outs = body := written
  have records_le := flatMap_length_le putNode_length_pos sub
  have nodes_le := sub.length_le
  have outs_le := marked_length_le outs
  rw [serialize_eq_putBlob, numbered.unmarked, List.length_append, lengths, putBlob_length,
    putBlob_length]
  dsimp only
  omega

/-- What is written is canonical. -/
theorem canonical_serialize {store : GraphStore} (settled : store.Settled) (fits : store.Fits) :
    CanonicalBlob (serialize store) := by
  have few : GraphedCore.Fits store.outputs.length :=
    settled.interned.outputs_length.trans_lt fits.1
  have read := blob_consumes settled fits few settled.interned.inside []
  obtain ⟨front, body, same, written, _, accepted⟩ := Reader.blob_tightens.spans read
  obtain rfl : putBlob store.nodes store.outputs = body := written
  have tight : front = putBlob store.nodes store.outputs := by
    rw [← List.append_nil front, ← same, List.append_nil]
    rfl
  rw [List.append_nil] at accepted
  refine ⟨store.nodes, store.outputs, accepted.mpr tight, ?_, settled.interned.once⟩
  rw [Fresh, List.take_length]
  exact settled.interned.apart

/-- A canonical blob is what is written for what was read from it. -/
theorem serialize_of_canonical {data : List UInt8} {store : GraphStore}
    (decoded : deserialize data = .ok store) (canonical : CanonicalBlob data) :
    serialize store = data := by
  obtain ⟨records, outs, strict, fresh, once⟩ := canonical
  have blob := Reader.blob_tightens.accepts strict
  obtain ⟨rest, read⟩ := deserialize_ok_iff.mp decoded
  obtain ⟨records', outs', interned, created, blob', keys, marks⟩ := Reader.graph_ok_iff.mp read
  obtain ⟨⟨rfl, rfl⟩, rfl⟩ : (records = records' ∧ outs = outs') ∧ [] = rest := by
    simpa using blob.symm.trans blob'
  have numbered : Numbered records records.length interned created := by
    simpa using (numbered_new records).addKeys rfl keys
  obtain ⟨kept, nodes, sub⟩ := addKeys_sublist keys
  obtain rfl : interned.nodes = kept := nodes
  obtain ⟨rfl, _⟩ := markOutputs_some marks
  obtain ⟨front, body, same, written, _, accepted⟩ := Reader.blob_tightens.spans blob
  obtain rfl : putBlob records outs = body := written
  rw [serialize_eq_putBlob, numbered.unmarked, same, accepted.mp strict, List.append_nil]
  dsimp only
  rw [sub.eq_of_length (numbered.full fresh), marked_fresh (by simpa using once), List.nil_append]

/-- Whatever blob a store was read from, what is written for it is read as the
store, is the only canonical blob that is, and is no longer than any other blob
that is. So writing normalizes blobs. -/
theorem normal_form {data : List UInt8} {store : GraphStore}
    (decoded : deserialize data = .ok store) :
    CanonicalBlob (serialize store) ∧
      (∃ again, deserialize (serialize store) = .ok again ∧ again.nodes = store.nodes ∧
        again.outputs = store.outputs) ∧
      ∀ other store', deserialize other = .ok store' → store'.nodes = store.nodes →
        store'.outputs = store.outputs → (serialize store).length ≤ other.length ∧
          (CanonicalBlob other → other = serialize store) := by
  have settled := deserialize_settled decoded
  have fits := deserialize_fits decoded
  refine ⟨canonical_serialize settled fits, deserialize_serialize settled fits, ?_⟩
  intro other store' decoded' nodes outputs
  have same : serialize store = serialize store' := by
    rw [serialize_eq_putBlob, serialize_eq_putBlob, nodes, outputs]
  rw [same]
  exact ⟨serialize_length_le decoded', fun canonical =>
    (serialize_of_canonical decoded' canonical).symm⟩

/-- A source is recorded twice, the first time with its parameters out of order,
and read by the third record. A byte is left over. -/
def untidyBlob : List UInt8 :=
  magic ++ putU32 3 ++
    (0 :: putStr "x" ++ putU32 2 ++ (putStr "b" ++ putParamValue (.int 3)) ++
      (putStr "a" ++ putParamValue (.bool true))) ++
    putNode (.source "x" (.new [("a", .bool true), ("b", .int 3)])) ++
    putNode (.op "neg" (.new []) [0]) ++ putU32 1 ++ putU64 1 ++ [0]

/-- The record of a source with two parameters, in the order of their keys. -/
def untidySource : NodeKey := .source "x" (.new [("a", .bool true), ("b", .int 3)])

/-- The record of an op over it, which is the output. -/
def untidyOp : NodeKey := .op "neg" (.new []) [0]

/-- What it is read as: the source once, and the op over it. -/
def untidyStore : GraphStore := ⟨[untidySource, untidyOp], [(untidyOp, 1), (untidySource, 0)], [1]⟩

/-- The store is written with the source once, the parameters in order and no byte
left over. -/
theorem normal_form_of_untidy : CanonicalBlob (serialize untidyStore) ∧
    (∃ again, deserialize (serialize untidyStore) = .ok again ∧
      again.nodes = [untidySource, untidyOp] ∧ again.outputs = [1]) ∧
    (serialize untidyStore).length < untidyBlob.length ∧
    ∀ other store', deserialize other = .ok store' → store'.nodes = [untidySource, untidyOp] →
      store'.outputs = [1] → (serialize untidyStore).length ≤ other.length ∧
        (CanonicalBlob other → other = serialize untidyStore) := by
  have read : deserialize untidyBlob = .ok untidyStore := by decide +kernel
  obtain ⟨canonical, again, unique⟩ := normal_form read
  exact ⟨canonical, again, by decide +kernel, unique⟩

end Serialize

end GraphedCore
