import GraphedCore.Keys
import GraphedCore.Lib.Enumerate
import GraphedCore.Plan

/-!
# Reading a plan back

The document that is read differs from the one that was written: its keys are in the order of
the text, and its NaNs are one NaN. The decoder looks entries up by key and rebuilds each
field, so neither difference reaches the plan beyond the order of a dictionary, and the plan
is written to the same bytes again.
-/

namespace GraphedCore.Plan

open Execution JsonText ParamValue

/-- A number after it was written and read. All NaNs come back as one. -/
def Number.loaded : Number → Number
  | .int a => .int a
  | .float a => .float (floatKey a)

/-! ## Entries of a document -/

/-- A field that the document has is read. -/
theorem item_of_get? {d : Value} {key : String} {value : Value} (found : d.get? key = some value) :
    item d key = .ok value := by
  cases d with
  | dict entries =>
    rw [Value.get?] at found
    rw [item, found]
  | _ => cases found

/-- A text that the document has is read. -/
theorem text_of_get? {d : Value} {key a : String}
    (found : d.get? key = some (.scalar (.str a))) : (item d key).bind text = .ok a := by
  rw [item_of_get? found]
  rfl

/-- A text that the document has is read, also where it has a default. -/
theorem textOr_of_get? {d : Value} {key a : String}
    (found : d.get? key = some (.scalar (.str a))) : textOr d key = .ok a := by
  rw [textOr, found]
  rfl

/-- A list is read back item by item. -/
theorem items_loaded {α : Type} {write : α → Value} {read : Value → Except DecodeError α}
    {xs : List α} (reads : ∀ x ∈ xs, read ((write x).loaded floatKey) = .ok x) :
    (items ((Value.list (xs.map write)).loaded floatKey)).bind (fun ys => ys.mapM read) =
      .ok xs := by
  rw [Value.loaded, loadedItems_map, List.map_map]
  show List.mapM read (List.map _ xs) = _
  rw [List.mapM_map]
  exact (Enumerate.mapM_eq_pure reads).trans (congrArg Except.ok (List.map_id xs))

/-- `int` of an integer is that integer. Nothing is asked of other values. -/
def Reader.Whole (reader : Reader) : Prop := ∀ a, reader.toInt (.scalar (.int a)) = some a

/-- An int is read as itself. -/
theorem Reader.Whole.int {reader : Reader} (whole : reader.Whole) (a : Int) :
    reader.int (.scalar (.int a)) = .ok a := by
  rw [Reader.int, whole]

/-- An int that the document has is read. -/
theorem Reader.Whole.int_of_get? {reader : Reader} (whole : reader.Whole) {d : Value}
    {key : String} {a : Int} (found : d.get? key = some (.scalar (.int a))) :
    (item d key).bind reader.int = .ok a := by
  rw [item_of_get? found]
  exact whole.int a

/-- An int that the document has is read, also where it has a default. -/
theorem Reader.Whole.intOr {reader : Reader} (whole : reader.Whole) {d : Value} {key : String}
    {a : Int} (found : d.get? key = some (.scalar (.int a))) : reader.intOr d key = .ok a := by
  rw [Reader.intOr, found]
  exact whole.int a

/-! ## Dictionaries -/

section Dictionaries

variable {α β : Type}

/-- A dictionary with its values changed, and its keys in their order. -/
def Dict.map (f : α → β) (d : Dict α) : Dict β where
  entries := d.entries.map (fun entry => ⟨entry.1, f entry.2⟩)
  nodupKeys := by
    have keys : (d.entries.map (fun entry => (⟨entry.1, f entry.2⟩ : Sigma fun _ => β))).keys =
        d.entries.keys := by rw [List.keys, List.keys, List.map_map]; rfl
    rw [List.NodupKeys, keys]
    exact d.nodupKeys

/-- A changed dictionary holds the changed values under the same keys. -/
theorem Dict.lookup_map (f : α → β) (d : Dict α) (key : String) :
    (d.map f).lookup key = (d.lookup key).map f :=
  @List.dlookup_map₂ String _ (fun _ => α) (fun _ => β) d.entries (fun _ => f) key

/-- The entries of a dictionary in a document, in its order. -/
def Dict.toEntries (write : α → Value) (d : Dict α) : List (String × Value) :=
  d.entries.map (fun entry => (entry.1, write entry.2))

/-- A list of different keys makes the dictionary of its entries. -/
theorem toAList_perm {entries : List (Sigma fun _ : String => α)} (distinct : entries.NodupKeys) :
    entries.toAList.entries.Perm entries := by
  refine List.lookup_ext entries.toAList.nodupKeys distinct (fun key value => ?_)
  rw [AList.entries_toAList, List.dlookup_dedupKeys]

/-- A dictionary is read back up to the order of its entries. -/
theorem readDict_loaded {write : α → Value} {read : Value → Except DecodeError α} {f : α → α}
    (reads : ∀ a, read ((write a).loaded floatKey) = .ok (f a)) (d : Dict α) :
    ∃ d' : Dict α, readDict read ((Value.dict (d.toEntries write)).loaded floatKey) = .ok d' ∧
      d'.entries.Perm (d.map f).entries := by
  have shape : (d.toEntries write).map (fun entry => (entry.1, entry.2.loaded floatKey)) =
      d.entries.map (fun entry => (entry.1, (write entry.2).loaded floatKey)) := by
    rw [Dict.toEntries, List.map_map]
    rfl
  have entries : ((d.entries.insertionSort (fun a b => a.1 ≤ b.1)).map
      (fun entry => (⟨entry.1, f entry.2⟩ : Sigma fun _ => α))).Perm (d.map f).entries :=
    (List.perm_insertionSort (fun a b => a.1 ≤ b.1) d.entries).map _
  have values : (d.entries.insertionSort (fun a b => a.1 ≤ b.1)).mapM
      (fun entry => (read ((write entry.2).loaded floatKey)).map
        (fun value => (⟨entry.1, value⟩ : Sigma fun _ => α))) =
      .ok ((d.entries.insertionSort (fun a b => a.1 ≤ b.1)).map
        (fun entry => ⟨entry.1, f entry.2⟩)) := by
    refine Enumerate.mapM_eq_pure (fun entry _ => ?_)
    rw [reads]
    rfl
  refine ⟨_, ?_, (toAList_perm ((List.perm_nodupKeys entries).mpr (d.map f).nodupKeys)).trans
    entries⟩
  rw [loaded_dict, shape, ← List.map_insertionSort (fun a b => a.1 ≤ b.1) _ _ _
    (fun _ _ _ _ => Iff.rfl), readDict, List.mapM_map]
  exact congrArg (Except.map List.toAList) values

end Dictionaries

/-! ## Callables and partitions -/

/-- The specification of a callable is read back. -/
theorem OpSpec.fromJson_loaded (op : OpSpec) : fromJson (op.toJson.loaded floatKey) = .ok op := by
  have distinct : ([("kind", Scalar.str op.kind.text), ("ref", .str op.ref),
      ("blob_b64", .str op.blobB64)].map Prod.fst).Nodup := by
    show ["kind", "ref", "blob_b64"].Nodup
    decide
  have entry := get?_flat floatKey distinct
  rw [OpSpec.toJson, fromJson, text_of_get? (entry "kind"), textOr_of_get? (entry "ref"),
    textOr_of_get? (entry "blob_b64")]
  obtain ⟨_ | _, _, _⟩ := op <;> rfl

/-- A partition is read back. One that was built has the blind fields together or
not at all, so the branch that reads it is the one that wrote it. -/
theorem partitionFromJson_loaded {reader : Reader} (whole : reader.Whole) {x : Partition}
    (built : x.Built) :
    partitionFromJson reader ((flat (partitionJson x)).loaded floatKey) = .ok x := by
  rcases built with ⟨noStep, noSteps⟩ | ⟨uri, tree, step, nSteps, made⟩
  · obtain ⟨uri, tree, entryStart, entryStop, _, _⟩ := x
    subst noStep noSteps
    have distinct : ((partitionJson ⟨uri, tree, entryStart, entryStop, none, none⟩).map
        Prod.fst).Nodup := by
      show ["uri", "tree", "entry_start", "entry_stop"].Nodup
      decide
    have entry := get?_flat floatKey distinct
    rw [partitionFromJson, entry "blind_step", text_of_get? (entry "uri"),
      textOr_of_get? (entry "tree"), whole.intOr (entry "entry_start"),
      whole.intOr (entry "entry_stop")]
    rfl
  · obtain rfl := Partition.blind_fields made
    have distinct : ((partitionJson ⟨uri, tree, 0, 0, some step, some nSteps⟩).map
        Prod.fst).Nodup := by
      show ["uri", "tree", "entry_start", "entry_stop", "blind_step", "blind_n_steps"].Nodup
      decide
    have entry := get?_flat floatKey distinct
    rw [partitionFromJson, entry "blind_step", text_of_get? (entry "uri"),
      textOr_of_get? (entry "tree"), whole.int_of_get? (entry "blind_step"),
      whole.int_of_get? (entry "blind_n_steps")]
    exact congrArg (Except.mapError DecodeError.refused) made

/-! ## Plans -/

namespace DurablePlan

/-- The entries of the document of a plan, before they are sorted. -/
def fields (p : DurablePlan) : List (String × Value) := [
  ("format_version", .scalar (.int p.formatVersion)),
  ("ir_b64", .scalar (.str (Base64.b64encode p.ir))),
  ("process", p.process.toJson),
  ("combine", p.combine.toJson),
  ("empty", p.empty.toJson),
  ("partitions", .list (p.partitions.map (fun x => flat (partitionJson x)))),
  ("read_columns", .list (p.readColumns.map (fun column => .scalar (.str column)))),
  ("stopping", .dict (p.stopping.toEntries Number.toJson)),
  ("file_locality", .dict (p.fileLocality.toEntries (fun a => .scalar (.str a)))),
  ("resource_hints", .dict (p.resourceHints.toEntries Number.toJson))]

/-- A plan is written as its fields. -/
theorem toJson_fields (p : DurablePlan) : p.toJson = .dict p.fields := rfl

/-- No field is written twice. -/
theorem fields_distinct (p : DurablePlan) : (p.fields.map Prod.fst).Nodup := by
  show ["format_version", "ir_b64", "process", "combine", "empty", "partitions", "read_columns",
    "stopping", "file_locality", "resource_hints"].Nodup
  decide

/-- Every field is found in what is loaded. -/
theorem item_toJson {p : DurablePlan} {key : String} {value : Value}
    (found : p.fields.lookup key = some value) :
    item (p.toJson.loaded floatKey) key = .ok (value.loaded floatKey) := by
  refine item_of_get? ?_
  rw [toJson_fields, get?_loaded floatKey p.fields_distinct, found, Option.map_some]

/-- Every field is read back, the dictionaries up to order. -/
theorem fromJson_loaded {reader : Reader} (whole : reader.Whole) {p : DurablePlan}
    (built : ∀ x ∈ p.partitions, x.Built) :
    ∃ stopping fileLocality resourceHints,
      fromJson reader (p.toJson.loaded floatKey) =
        .ok { p with
          stopping := stopping
          fileLocality := fileLocality
          resourceHints := resourceHints } ∧
      stopping.entries.Perm (p.stopping.map Number.loaded).entries ∧
      fileLocality.entries.Perm (p.fileLocality.map id).entries ∧
      resourceHints.entries.Perm (p.resourceHints.map Number.loaded).entries := by
  have number (a : Number) : Number.fromJson (a.toJson.loaded floatKey) = .ok a.loaded := by
    cases a <;> rfl
  obtain ⟨stopping, readStopping, same⟩ := readDict_loaded number p.stopping
  obtain ⟨fileLocality, readLocality, same'⟩ :=
    @readDict_loaded String (fun a => .scalar (.str a)) text id (fun _ => rfl) p.fileLocality
  obtain ⟨resourceHints, readHints, same''⟩ := readDict_loaded number p.resourceHints
  have entry {α : Type} {key : String} {value : Value} {read : Value → Except DecodeError α}
      {a : α} (found : p.fields.lookup key = some value)
      (reads : read (value.loaded floatKey) = .ok a) :
      (item (p.toJson.loaded floatKey) key).bind read = .ok a := by
    rw [item_toJson found]
    exact reads
  have ir : ((item (p.toJson.loaded floatKey) "ir_b64").bind text).bind b64Bytes = .ok p.ir := by
    rw [entry rfl (show text (.scalar (.str (Base64.b64encode p.ir))) = .ok _ from rfl)]
    show b64Bytes (Base64.b64encode p.ir) = .ok p.ir
    rw [b64Bytes, Base64.b64decode_b64encode]
  have partitions : ((item (p.toJson.loaded floatKey) "partitions").bind items).bind
      (fun xs => xs.mapM (partitionFromJson reader)) = .ok p.partitions := by
    rw [item_toJson rfl]
    exact items_loaded (fun x member => partitionFromJson_loaded whole (built x member))
  have columns : ((item (p.toJson.loaded floatKey) "read_columns").bind items).bind
      (fun xs => xs.mapM text) = .ok p.readColumns := by
    rw [item_toJson rfl]
    exact items_loaded (fun _ _ => rfl)
  refine ⟨stopping, fileLocality, resourceHints, ?_, same, same', same''⟩
  rw [fromJson, ir, entry rfl p.process.fromJson_loaded, entry rfl p.combine.fromJson_loaded,
    entry rfl p.empty.fromJson_loaded, partitions, columns, entry rfl readStopping,
    entry rfl readLocality, entry rfl readHints, entry rfl (whole.int p.formatVersion)]
  rfl

end DurablePlan

end GraphedCore.Plan
