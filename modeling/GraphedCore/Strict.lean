import GraphedCore.RoundTrip

/-!
# Canonical blobs

The reader takes more than the writer writes: any nonzero byte for `true` and for a
present string, parameters in any order, records and outputs that were listed before,
and bytes after the last output. The strict reader below takes none of these. A blob
is canonical when the strict reader takes all of it and no record and no output is
repeated, and these are the blobs that decoding and writing gives back.
-/

namespace GraphedCore

open Dag Wired Parsing

namespace Serialize

/-- The bytes of node records and output indices, whether or not a store holds
them. -/
def putBlob (records : List NodeKey) (outs : List NodeId) : List UInt8 :=
  magic ++ putU32 records.length ++ records.flatMap putNode ++ putU32 outs.length ++
    outs.flatMap putU64

/-! ## The strict reader -/

namespace Strict

open Reader

/-- A byte that is zero or one. The lenient reader takes any other for one. -/
def flag : Reader Bool := do
  let b ← u8
  if b = 0 then pure false else if b = 1 then pure true else fail (.badTag "flag" b)

/-- A tag and what it announces. A boolean is spelled 0 or 1 and nothing else. -/
def paramValue : Reader ParamValue := do
  let tag ← u8
  if tag = 0 then do
    let v ← u64
    pure (.int (Int64.ofUInt64 (UInt64.ofNat v)))
  else if tag = 1 then do
    let v ← u64
    pure (.float (UInt64.ofNat v))
  else if tag = 2 then do
    let b ← flag
    pure (.bool b)
  else if tag = 3 then do
    let s ← string
    pure (.str s)
  else fail (.badTag "param" tag)

/-- A name and its value. The order of entries is checked afterwards. -/
def paramEntry : Reader (String × ParamValue) := do
  let k ← string
  let v ← paramValue
  pure (k, v)

/-- Entries that come in key order. Sorting them would change nothing. -/
def params : Reader ParamMap := do
  let n ← u32
  let entries ← repeated (fun _ => paramEntry) 0 n
  if sorted : entries.Pairwise (fun a b => a.1 ≤ b.1) then pure ⟨entries, sorted⟩
  else fail (.badTag "key order" 0)

/-- A text behind a byte that says whether there is one. -/
def optional : Reader (Option String) := do
  let present ← flag
  if present then do
    let s ← string
    pure (some s)
  else pure none

/-- The fields of a payload, in the order in which they are written. -/
def descriptor : Reader PayloadDescriptor := do
  let kind ← string
  let contentHash ← string
  let framework ← string
  let version ← string
  let ioSchema ← string
  let preprocessingRef ← optional
  pure ⟨kind, contentHash, framework, version, ioSchema, preprocessingRef⟩

/-- One record. Its inputs have to be announced before it, as in the lenient
reader. -/
def node (index : Nat) : Reader NodeKey := do
  let tag ← u8
  if tag = 0 then do
    let name ← string
    let params ← params
    pure (.source name params)
  else if tag = 1 then do
    let name ← string
    let params ← params
    let inputs ← inputs index
    pure (.op name params inputs)
  else if tag = 2 then do
    let name ← string
    let params ← params
    let inputs ← inputs index
    pure (.reduction name params inputs)
  else if tag = 3 then do
    let descriptor ← descriptor
    let params ← params
    let inputs ← inputs index
    pure (.external descriptor params inputs)
  else if tag = 4 then do
    let inputs ← inputs index
    let n ← u32
    let members ← repeated stageOp 0 n
    pure (.stage inputs members)
  else fail (.badTag "node" tag)

/-- The magic, the records and the outputs, and nothing is put into a store on the
way. -/
def blob : Reader (List NodeKey × List NodeId) := do
  let m ← take 4
  if m ≠ magic then fail .badMagic else do
    let nNodes ← u32
    let records ← repeated node 0 nNodes
    let nOut ← u32
    let outputs ← repeated (fun _ => u64) 0 nOut
    pure (records, outputs)

end Strict

/-- The strict reader takes the whole blob, and nothing in it is repeated. -/
def CanonicalBlob (data : List UInt8) : Prop :=
  ∃ records outs, Strict.blob data = .ok ((records, outs), []) ∧
    Fresh records records.length ∧ outs.Nodup

/-! ## Integers and strings -/

/-- Writing the number that bytes spell gives the bytes. -/
theorem leBytes_fromLeBytes (bytes : List UInt8) :
    leBytes bytes.length (fromLeBytes bytes) = bytes := by
  induction bytes with
  | nil => rfl
  | cons b rest ih =>
    have low : UInt8.ofNat (fromLeBytes (b :: rest)) = b := by
      apply UInt8.toNat.inj
      have small := b.toNat_lt
      simp only [fromLeBytes, UInt8.toNat_ofNat']
      omega
    have high : fromLeBytes (b :: rest) / 256 = fromLeBytes rest := by
      have small := b.toNat_lt
      simp only [fromLeBytes]
      omega
    rw [List.length_cons, leBytes, low, high, ih]

/-- So many bytes spell a number of so many bytes. -/
theorem fromLeBytes_lt (bytes : List UInt8) : fromLeBytes bytes < 256 ^ bytes.length := by
  induction bytes with
  | nil => exact Nat.one_pos
  | cons b rest ih =>
    have small := b.toNat_lt
    rw [List.length_cons, Nat.pow_succ', fromLeBytes]
    omega

namespace Reader

/-- What was taken is the front of what was there. -/
theorem take_ok {n : Nat} {data rest bytes : List UInt8} (read : take n data = .ok (bytes, rest)) :
    bytes.length = n ∧ data = bytes ++ rest := by
  rw [take] at read
  split at read
  · obtain ⟨rfl, rfl⟩ : data.take n = bytes ∧ data.drop n = rest := by simpa using read
    exact ⟨List.length_take_of_le (by assumption), (List.take_append_drop n data).symm⟩
  · cases read

/-- A byte that was read stands at the front. -/
theorem u8_exact {data rest : List UInt8} {b : UInt8} (read : u8 data = .ok (b, rest)) :
    data = [b] ++ rest := by
  obtain ⟨bytes, middle, taken, done⟩ := bind_ok_iff.mp read
  obtain ⟨length, rfl⟩ := take_ok taken
  obtain ⟨one, rfl⟩ := List.length_eq_one_iff.mp length
  obtain ⟨rfl, rfl⟩ := pure_ok_iff.mp done
  rfl

/-- A word that was read is the word that the writer puts for its number. -/
theorem u32_ok {data rest : List UInt8} {v : Nat} (read : u32 data = .ok (v, rest)) :
    Fits v ∧ data = putU32 v ++ rest := by
  obtain ⟨bytes, middle, taken, done⟩ := bind_ok_iff.mp read
  obtain ⟨length, rfl⟩ := take_ok taken
  obtain ⟨rfl, rfl⟩ := pure_ok_iff.mp done
  have small := fromLeBytes_lt bytes
  have written := leBytes_fromLeBytes bytes
  rw [length] at small written
  exact ⟨small, by rw [putU32, written]⟩

/-- And so is a word of 64 bits. -/
theorem u64_ok {data rest : List UInt8} {v : Nat} (read : u64 data = .ok (v, rest)) :
    v < 2 ^ 64 ∧ data = putU64 v ++ rest := by
  obtain ⟨bytes, middle, taken, done⟩ := bind_ok_iff.mp read
  obtain ⟨length, rfl⟩ := take_ok taken
  obtain ⟨rfl, rfl⟩ := pure_ok_iff.mp done
  have small := fromLeBytes_lt bytes
  have written := leBytes_fromLeBytes bytes
  rw [length] at small written
  exact ⟨small, by rw [putU64, written]⟩

/-- A text that was read is spelled as the writer spells it. Its bytes are valid
UTF-8, and a text has only one such spelling. -/
theorem string_ok {data rest : List UInt8} {s : String} (read : string data = .ok (s, rest)) :
    Fits s.utf8ByteSize ∧ data = putStr s ++ rest := by
  simp only [string, bind_ok_iff] at read
  obtain ⟨n, _, count, bytes, _, taken, done⟩ := read
  obtain ⟨fits, rfl⟩ := u32_ok count
  obtain ⟨length, rfl⟩ := take_ok taken
  cases valid : String.fromUTF8? ⟨bytes.toArray⟩ with
  | none =>
    rw [valid] at done
    cases done
  | some found =>
    rw [valid] at done
    obtain ⟨rfl, rfl⟩ := pure_ok_iff.mp done
    have same : found.toByteArray = ⟨bytes.toArray⟩ := by
      rw [String.fromUTF8?] at valid
      split at valid
      · obtain rfl := Option.some.inj valid
        rfl
      · cases valid
    have size : found.utf8ByteSize = n := by
      rw [← length, ← String.size_toByteArray, same]
      simp [ByteArray.size]
    exact ⟨size ▸ fits, by rw [putStr, same, size, List.append_assoc]⟩

/-! ## What the strict reader takes -/

/-- The two readers share their bytes, and reading one loses nothing. -/
theorem u8_tightens : Tightens [] u8 u8 (fun b => [b]) :=
  tightens_self u8_exact

/-- Nor does reading a word. -/
theorem u32_tightens : Tightens [] u32 u32 putU32 :=
  tightens_self (fun read => (u32_ok read).2)

/-- Nor does reading a word of 64 bits. -/
theorem u64_tightens : Tightens [] u64 u64 putU64 :=
  tightens_self (fun read => (u64_ok read).2)

/-- Nor does reading a text. -/
theorem string_tightens : Tightens [] string string putStr :=
  tightens_self (fun read => (string_ok read).2)

/-- As many items are read as were announced. -/
theorem repeated_length {α : Type} {read : Nat → Reader α} {count index : Nat}
    {data rest : List UInt8} {items : List α}
    (done : repeated read index count data = .ok (items, rest)) : items.length = count := by
  induction count generalizing index data items with
  | zero =>
    obtain ⟨rfl, _⟩ := pure_ok_iff.mp done
    rfl
  | succ count ih =>
    simp only [repeated, bind_ok_iff, pure_ok_iff] at done
    obtain ⟨first, middle, _, others, _, later, rfl, rfl⟩ := done
    rw [List.length_cons, ih later]

/-- Readers of lists are related as their readers of items are. -/
theorem repeated_tightens {α : Type} {read read' : Nat → Reader α} {write : α → List UInt8}
    (each : ∀ index, Tightens [] (read index) (read' index) write) (count index : Nat) :
    Tightens [] (repeated read index count) (repeated read' index count)
      (fun items => items.flatMap write) := by
  induction count generalizing index with
  | zero => exact tightens_pure rfl
  | succ count ih =>
    refine (each index).bind (fun item _ => (ih (index + 1)).bind (fun rest _ => ?_))
    exact tightens_pure (by simp)

/-- A byte that stands for a truth value. -/
theorem flag_bind_tightens {α : Type} {before : List UInt8} {next next' : Bool → Reader α}
    {write : α → List UInt8}
    (follows : ∀ v, Tightens (before ++ [if v then 1 else 0]) (next v) (next' v) write) :
    Tightens before (u8 >>= fun b => next (b != 0)) (Strict.flag >>= next') write := by
  have leads : Tightens [] (u8 >>= fun b => pure (b != 0)) Strict.flag
      (fun v => [if v then 1 else 0]) := by
    constructor
    · intro data rest v read
      obtain ⟨b, middle, byte, done⟩ := bind_ok_iff.mp read
      refine bind_ok_iff.mpr ⟨b, middle, byte, ?_⟩
      split at done
      · rename_i zero
        subst zero
        exact done
      · split at done
        · rename_i one
          subst one
          exact done
        · cases done
    · intro data rest v read
      obtain ⟨b, middle, byte, done⟩ := bind_ok_iff.mp read
      obtain ⟨rfl, rfl⟩ := pure_ok_iff.mp done
      obtain rfl := u8_exact byte
      refine ⟨[b], [if (b != 0) then 1 else 0], rfl, rfl, rfl, ?_⟩
      simp only [Strict.flag, bind_ok_iff]
      constructor
      · rintro ⟨b', _, byte', done'⟩
        obtain ⟨rfl, rfl⟩ : b = b' ∧ _ = _ := by simpa using byte.symm.trans byte'
        split at done'
        · rename_i zero
          subst zero
          rfl
        · split at done'
          · rename_i one
            subst one
            rfl
          · cases done'
      · intro same
        refine ⟨b, _, byte, ?_⟩
        by_cases zero : b = 0
        · subst zero
          rfl
        · have one : b = 1 := by simpa [zero] using same
          subst one
          rfl
  have bound := leads.bind (fun v _ => follows v)
  rwa [bind_assoc] at bound

/-- Two readers that fail have nothing to agree on. -/
theorem fail_tightens {α : Type} {before : List UInt8} {error : DecodeError}
    {write : α → List UInt8} : Tightens before (fail error) (fail error) write :=
  tightens_fail (fun _ _ read => nomatch read) (fun _ _ read => nomatch read)

/-- The strict reader of values takes the spellings of the writer and no other. -/
theorem paramValue_tightens : Tightens [] paramValue Strict.paramValue putParamValue := by
  refine u8_tightens.bind (fun tag _ => ?_)
  refine .ite (fun int => ?_) (fun _ => .ite (fun float => ?_) (fun _ => .ite (fun bool => ?_)
    (fun _ => .ite (fun str => ?_) (fun _ => fail_tightens))))
  · subst int
    refine u64_tightens.bind (fun v read => tightens_pure ?_)
    obtain ⟨_, _, read⟩ := read
    have small : v < 18446744073709551616 := (u64_ok read).1
    simp [putParamValue, Nat.mod_eq_of_lt small]
  · subst float
    refine u64_tightens.bind (fun v read => tightens_pure ?_)
    obtain ⟨_, _, read⟩ := read
    have small : v < 18446744073709551616 := (u64_ok read).1
    simp [putParamValue, Nat.mod_eq_of_lt small]
  · subst bool
    exact @flag_bind_tightens _ _ (fun v => pure (ParamValue.bool v))
      (fun v => pure (ParamValue.bool v)) _ (fun v => tightens_pure rfl)
  · subst str
    exact string_tightens.bind (fun s _ => tightens_pure rfl)

/-- So does the reader of entries. -/
theorem paramEntry_tightens : Tightens [] paramEntry Strict.paramEntry
    (fun entry => putStr entry.1 ++ putParamValue entry.2) :=
  string_tightens.bind (fun _ _ => paramValue_tightens.bind (fun _ _ => tightens_pure rfl))

/-- What is read fits. -/
theorem paramEntry_fits {data rest : List UInt8} {entry : String × ParamValue}
    (read : paramEntry data = .ok (entry, rest)) :
    Fits entry.1.utf8ByteSize ∧ entry.2.Fits := by
  simp only [paramEntry, bind_ok_iff, pure_ok_iff] at read
  obtain ⟨k, _, key, v, _, value, rfl, rfl⟩ := read
  refine ⟨(string_ok key).1, ?_⟩
  cases v with
  | str a =>
    simp only [paramValue, bind_ok_iff] at value
    obtain ⟨tag, _, _, value⟩ := value
    repeat' split at value
    · obtain ⟨_, _, _, same⟩ := bind_ok_iff.mp value
      cases (pure_ok_iff.mp same).1
    · obtain ⟨_, _, _, same⟩ := bind_ok_iff.mp value
      cases (pure_ok_iff.mp same).1
    · obtain ⟨_, _, _, same⟩ := bind_ok_iff.mp value
      cases (pure_ok_iff.mp same).1
    · obtain ⟨s, _, text, same⟩ := bind_ok_iff.mp value
      obtain rfl := ParamValue.str.inj (pure_ok_iff.mp same).1
      exact (string_ok text).1
    · cases value
  | _ => trivial

/-- Writing sorts, so the entries have to be sorted to be written as they were
read. -/
theorem params_tightens : Tightens [] params Strict.params putParams := by
  refine u32_tightens.bind (fun n _ => ?_)
  have entries_tightens := repeated_tightens (fun _ => paramEntry_tightens) n 0
  constructor
  · intro data rest p read
    obtain ⟨entries, middle, listed, done⟩ := bind_ok_iff.mp read
    refine bind_ok_iff.mpr ⟨entries, middle, entries_tightens.accepts listed, ?_⟩
    split at done
    · rename_i sorted
      obtain ⟨rfl, rfl⟩ := pure_ok_iff.mp done
      have same : ParamMap.new entries = ⟨entries, sorted⟩ := ParamMap.new_entries ⟨entries, sorted⟩
      rw [same]
      rfl
    · cases done
  · intro data rest p read
    obtain ⟨entries, middle, listed, done⟩ := bind_ok_iff.mp read
    obtain ⟨rfl, rfl⟩ := pure_ok_iff.mp done
    obtain ⟨front, _, rfl, rfl, lengths, accepted⟩ := entries_tightens.spans listed
    have count := repeated_length listed
    have fits : ∀ entry ∈ entries, Fits entry.1.utf8ByteSize ∧ entry.2.Fits := by
      intro entry member
      obtain ⟨k, lookup⟩ := List.mem_iff_getElem?.mp member
      obtain ⟨_, _, one⟩ := repeated_ok listed lookup
      exact paramEntry_fits one
    have perm : (ParamMap.new entries).entries.Perm entries := entries.perm_insertionSort _
    have size : (ParamMap.new entries).entries.length = n := perm.length_eq.trans count
    refine ⟨front, _, rfl, by rw [putParams, size]; rfl, ?_, ?_⟩
    · rw [lengths]
      exact ((perm.flatMap_right _).length_eq).symm
    · constructor
      · intro tight
        obtain ⟨entries', middle', listed', done⟩ := bind_ok_iff.mp tight
        obtain ⟨rfl, rfl⟩ : entries = entries' ∧ middle = middle' := by
          simpa using listed.symm.trans (entries_tightens.accepts listed')
        split at done
        · rw [accepted.mp listed', ← (pure_ok_iff.mp done).1]
        · cases done
      · intro same
        -- The reader takes the sorted entries for the entries that it read.
        have again := paramEntries_consumes
          (fun entry member => fits entry (perm.mem_iff.mp member)) middle
        rw [size, ← same, listed, Except.ok.injEq, Prod.mk.injEq] at again
        have sorted : entries.Pairwise (fun a b => a.1 ≤ b.1) := by
          rw [again.1]
          exact (ParamMap.new entries).sorted
        refine bind_ok_iff.mpr ⟨entries, middle, accepted.mpr ?_, ?_⟩
        · rw [same, ← again.1]
        · rw [dif_pos sorted, pure_ok_iff]
          exact ⟨ParamMap.mk.injEq _ _ _ _ ▸ again.1, rfl⟩

/-! ## Nodes and blobs -/

/-- Inputs are spelled in one way. -/
theorem inputs_tightens (index : Nat) : Tightens [] (inputs index) (inputs index) putInputs := by
  have one : Tightens [] (input index) (input index) putU64 :=
    u64_tightens.bind (fun i _ => .ite (fun _ => fail_tightens) (fun _ => tightens_pure rfl))
  refine u32_tightens.bind (fun n _ => ?_)
  have listed := repeated_tightens (fun _ => one) n 0
  constructor
  · exact fun read => read
  · intro data rest ids read
    obtain ⟨front, _, rfl, rfl, lengths, accepted⟩ := listed.spans read
    exact ⟨front, _, rfl, by rw [putInputs, repeated_length read]; rfl, lengths, accepted⟩

/-- Only the byte 1 announces a text. -/
theorem optional_tightens : Tightens [] optional Strict.optional putOptional := by
  refine @flag_bind_tightens _ _ (fun present => if present = true then string >>= fun s =>
    pure (some s) else pure none) _ _ (fun present => ?_)
  refine .ite (fun some => ?_) (fun none => ?_)
  · subst some
    exact string_tightens.bind (fun s _ => tightens_pure rfl)
  · rw [Bool.not_eq_true] at none
    subst none
    exact tightens_pure rfl

/-- The reader of payloads is made of such readers. -/
theorem descriptor_tightens : Tightens [] descriptor Strict.descriptor putDescriptor := by
  refine string_tightens.bind (fun _ _ => string_tightens.bind (fun _ _ =>
    string_tightens.bind (fun _ _ => string_tightens.bind (fun _ _ =>
      string_tightens.bind (fun _ _ => optional_tightens.bind (fun _ _ => tightens_pure ?_))))))
  simp [putDescriptor]

/-- A reference of a stage is spelled in one way. -/
theorem stageRef_tightens (index : Nat) :
    Tightens [] (stageRef index) (stageRef index) putStageRef := by
  refine u8_tightens.bind (fun tag _ => u32_tightens.bind (fun v _ => ?_))
  refine .ite (fun slot => ?_) (fun _ => .ite (fun member => ?_) (fun _ => fail_tightens))
  · exact tightens_pure (by simp [putStageRef, slot])
  · exact .ite (fun _ => fail_tightens) (fun _ => tightens_pure (by simp [putStageRef, member]))

/-- The op of a stage is a token and its references. -/
theorem stageOp_tightens (index : Nat) :
    Tightens [] (stageOp index) (stageOp index) putStageOp := by
  refine string_tightens.bind (fun token _ => u32_tightens.bind (fun n _ => ?_))
  refine (repeated_tightens (fun _ => stageRef_tightens index) n 0).bind (fun refs read => ?_)
  obtain ⟨_, _, read⟩ := read
  exact tightens_pure (by simp [putStageOp, repeated_length read])

/-- The strict reader takes a record as it is written, in each of its kinds. -/
theorem node_tightens (index : Nat) : Tightens [] (node index) (Strict.node index) putNode := by
  refine u8_tightens.bind (fun tag _ => ?_)
  refine .ite (fun source => ?_) (fun _ => .ite (fun op => ?_) (fun _ => .ite (fun reduction => ?_)
    (fun _ => .ite (fun external => ?_) (fun _ => .ite (fun stage => ?_) (fun _ => fail_tightens)))))
  · subst source
    exact string_tightens.bind (fun _ _ => params_tightens.bind (fun _ _ => tightens_pure rfl))
  · subst op
    exact string_tightens.bind (fun _ _ => params_tightens.bind (fun _ _ =>
      (inputs_tightens index).bind (fun _ _ => tightens_pure rfl)))
  · subst reduction
    exact string_tightens.bind (fun _ _ => params_tightens.bind (fun _ _ =>
      (inputs_tightens index).bind (fun _ _ => tightens_pure rfl)))
  · subst external
    exact descriptor_tightens.bind (fun _ _ => params_tightens.bind (fun _ _ =>
      (inputs_tightens index).bind (fun _ _ => tightens_pure rfl)))
  · subst stage
    refine (inputs_tightens index).bind (fun ids _ => u32_tightens.bind (fun n _ => ?_))
    refine (repeated_tightens stageOp_tightens n 0).bind (fun members read => ?_)
    obtain ⟨_, _, read⟩ := read
    exact tightens_pure (by simp [putNode, repeated_length read])

/-- The strict reader takes records and outputs as they are written. -/
theorem blob_tightens : Tightens [] blob Strict.blob (fun read => putBlob read.1 read.2) := by
  have leads : Tightens [] (take 4) (take 4) id := tightens_self (fun read => (take_ok read).2)
  refine leads.bind (fun m _ => .ite (fun _ => fail_tightens) (fun same => ?_))
  rw [Decidable.not_not] at same
  refine u32_tightens.bind (fun n _ => ?_)
  refine (repeated_tightens node_tightens n 0).bind (fun records read => ?_)
  refine u32_tightens.bind (fun k _ => ?_)
  refine (repeated_tightens (fun _ => u64_tightens) k 0).bind (fun outs read' => ?_)
  obtain ⟨_, _, read⟩ := read
  obtain ⟨_, _, read'⟩ := read'
  exact tightens_pure (by simp [putBlob, same, repeated_length read, repeated_length read'])

end Reader

end Serialize

/-! ## What decoding and writing gives back -/

/-- Interning keeps some of the records, in their order. -/
theorem GraphStore.addKeys_sublist {records : List NodeKey} {store final : GraphStore}
    {created : List NodeId} (done : store.addKeys records = some (final, created)) :
    ∃ kept, final.nodes = store.nodes ++ kept ∧ kept.Sublist records := by
  induction records generalizing store created with
  | nil =>
    obtain ⟨rfl, _⟩ := Prod.mk.inj (Option.some.inj done)
    exact ⟨[], (List.append_nil _).symm, List.nil_sublist _⟩
  | cons key rest ih =>
    rcases store.intern_cases key with ⟨_, _, _, did⟩ | ⟨_, ⟨_, _, did⟩ | ⟨_, did⟩⟩
    · simp [addKeys, addKey, did] at done
    · simp only [addKeys, addKey, did, Option.map_eq_some_iff] at done
      obtain ⟨⟨_, _⟩, ran, same⟩ := done
      obtain ⟨rfl, _⟩ := Prod.mk.inj same
      obtain ⟨kept, nodes, sub⟩ := ih ran
      exact ⟨kept, nodes, sub.cons key⟩
    · simp only [addKeys, addKey, did, Option.map_eq_some_iff] at done
      obtain ⟨⟨_, _⟩, ran, same⟩ := done
      obtain ⟨rfl, _⟩ := Prod.mk.inj same
      obtain ⟨kept, nodes, sub⟩ := ih ran
      exact ⟨key :: kept, nodes.trans (by simp [push]), sub.cons_cons key⟩

/-- Marking adds no output to those that are asked for. -/
theorem GraphStore.marked_length_le (outs : List NodeId) : (marked [] outs).length ≤ outs.length := by
  have listed : marked [] outs ⊆ outs := fun o member => by simpa [mem_marked] using member
  exact ((marked_nodup List.nodup_nil outs).subperm listed).length_le

namespace Serialize

/-- Leaving out an item leaves out at least one byte. -/
theorem flatMap_length_le {α : Type} {write : α → List UInt8} (some : ∀ x, 0 < (write x).length)
    {kept items : List α} (sub : kept.Sublist items) :
    (kept.flatMap write).length + items.length ≤ (items.flatMap write).length + kept.length := by
  induction sub with
  | slnil => exact le_rfl
  | cons x _ ih =>
    have longer := some x
    simp only [List.flatMap_cons, List.length_append, List.length_cons]
    omega
  | cons_cons x _ ih =>
    simp only [List.flatMap_cons, List.length_append, List.length_cons]
    omega

/-- A record takes at least its tag. -/
theorem putNode_length_pos (key : NodeKey) : 0 < (putNode key).length := by
  cases key <;> simp [putNode]

/-- Each output takes eight bytes. -/
theorem flatMap_putU64_length (outs : List NodeId) :
    (outs.flatMap putU64).length = 8 * outs.length := by
  induction outs with
  | nil => rfl
  | cons o rest ih =>
    rw [List.flatMap_cons, List.length_append, ih, putU64, length_leBytes, List.length_cons]
    omega

/-- A blob has two counts and the magic besides its records and outputs. -/
theorem putBlob_length (records : List NodeKey) (outs : List NodeId) :
    (putBlob records outs).length = 12 + (records.flatMap putNode).length + 8 * outs.length := by
  simp only [putBlob, List.length_append, putU32, length_leBytes, flatMap_putU64_length]
  have four : magic.length = 4 := rfl
  omega

/-- What is written for a store is its nodes and its outputs. -/
theorem serialize_eq_putBlob (store : GraphStore) :
    serialize store = putBlob store.nodes store.outputs := rfl

/-- Decoding a blob and writing the store gives the blob back exactly when the
blob is canonical: taken by the strict reader to its end, without repeated records
or outputs. -/
theorem serialize_deserialize_iff (data : List UInt8) (store : GraphStore)
    (decoded : deserialize data = .ok store) :
    serialize store = data ↔ CanonicalBlob data := by
  obtain ⟨rest, read⟩ := deserialize_ok_iff.mp decoded
  obtain ⟨records, outs, interned, created, blob, keys, marks⟩ := Reader.graph_ok_iff.mp read
  have numbered : Numbered records records.length interned created := by
    simpa using (numbered_new records).addKeys rfl keys
  obtain ⟨kept, nodes, sub⟩ := GraphStore.addKeys_sublist keys
  obtain rfl : interned.nodes = kept := nodes
  obtain ⟨rfl, inside⟩ := GraphStore.markOutputs_some marks
  obtain ⟨front, body, rfl, written, lengths, accepted⟩ := Reader.blob_tightens.spans blob
  obtain rfl : putBlob records outs = body := written
  rw [serialize_eq_putBlob, numbered.unmarked]
  dsimp only
  constructor
  · intro same
    -- What was written is no shorter than what was read, so nothing was left out.
    have total := congrArg List.length same
    rw [List.length_append, lengths, putBlob_length, putBlob_length] at total
    have records_le := flatMap_length_le putNode_length_pos sub
    have nodes_le := sub.length_le
    have outs_le := GraphStore.marked_length_le outs
    have count : interned.nodes.length = records.length := by omega
    have marks : (GraphStore.marked [] outs).length = outs.length := by omega
    have nothing : rest = [] := List.length_eq_zero_iff.mp (by omega)
    have once := GraphStore.marked_length marks
    have fresh : Fresh records records.length := by
      by_contra repeated
      exact absurd count (numbered.short repeated).ne
    subst nothing
    rw [sub.eq_of_length count, GraphStore.marked_fresh (by simpa using once), List.nil_append,
      List.append_nil] at same
    exact ⟨records, outs, accepted.mpr same.symm, fresh, once⟩
  · rintro ⟨records', outs', strict, fresh, once⟩
    obtain ⟨⟨rfl, rfl⟩, rfl⟩ : (records = records' ∧ outs = outs') ∧ rest = [] := by
      simpa using blob.symm.trans (Reader.blob_tightens.accepts strict)
    rw [sub.eq_of_length (numbered.full fresh), GraphStore.marked_fresh (by simpa using once),
      List.nil_append, List.append_nil, accepted.mp strict]

/-- The blob of an empty graph, and a byte that the decoder does not look at. -/
def trailingBlob : List UInt8 := serialize .new ++ [0]

/-- The byte after the last output is not looked at, and it is not written. -/
theorem trailing_byte_is_dropped : ∃ store, deserialize trailingBlob = .ok store ∧
    serialize store ≠ trailingBlob :=
  ⟨.new, by rfl, by decide +kernel⟩

/-- The blob of two sources is canonical, since the second one is the output and
both are recorded in order. -/
theorem serialize_deserialize_iff_of_sources :
    serialize ⟨[.source "x" (.new []), .source "y" (.new [])],
      [(.source "y" (.new []), 1), (.source "x" (.new []), 0)], [1]⟩ = sourcesBlob ↔
        CanonicalBlob sourcesBlob :=
  serialize_deserialize_iff _ _ (deserialize_ok_iff.mpr ⟨[], by rfl⟩)

end Serialize

end GraphedCore
