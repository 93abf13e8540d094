import GraphedCore.Lib.Parsing
import GraphedCore.Serialize

/-!
# Readers invert writers

What a value is written as, its reader consumes as that value, when every count
and length fits into the 32 bits it is cut to. A node is read back only at a
position after all of its inputs, and a stage only when its members refer to
earlier members.
-/

namespace GraphedCore

open Parsing

/-! ## What fits -/

/-- A count or a length that is not cut when it is written into four bytes. -/
def Fits (n : Nat) : Prop := n < 2 ^ 32

instance (n : Nat) : Decidable (Fits n) := inferInstanceAs (Decidable (n < 2 ^ 32))

/-- A text whose length is written without a cut. Other values always are. -/
def ParamValue.Fits : ParamValue → Prop
  | .str a => GraphedCore.Fits a.utf8ByteSize
  | _ => True

/-- Parameters whose count and texts are written without a cut. -/
def ParamMap.Fits (p : ParamMap) : Prop :=
  GraphedCore.Fits p.entries.length ∧
    ∀ entry ∈ p.entries, GraphedCore.Fits entry.1.utf8ByteSize ∧ entry.2.Fits

/-- A descriptor whose texts are written without a cut, the optional one
included. -/
def PayloadDescriptor.Fits (d : PayloadDescriptor) : Prop :=
  GraphedCore.Fits d.kind.utf8ByteSize ∧ GraphedCore.Fits d.contentHash.utf8ByteSize ∧
    GraphedCore.Fits d.framework.utf8ByteSize ∧ GraphedCore.Fits d.version.utf8ByteSize ∧
      GraphedCore.Fits d.ioSchema.utf8ByteSize ∧
        ∀ s ∈ d.preprocessingRef, GraphedCore.Fits s.utf8ByteSize

/-- Only slots are at issue: a reference to a member is below the number of
members. -/
def StageRef.Fits : StageRef → Prop
  | .input slot => GraphedCore.Fits slot
  | .member _ => True

/-- A stage member whose token, count and slots are written without a cut. -/
def StageOp.Fits (op : StageOp) : Prop :=
  GraphedCore.Fits op.token.utf8ByteSize ∧ GraphedCore.Fits op.inputs.length ∧
    ∀ ref ∈ op.inputs, ref.Fits

/-- A key all of whose counts, lengths and slots are written without a cut. What
is too large would be written modulo a power of two. -/
def NodeKey.Fits : NodeKey → Prop
  | .source name params => GraphedCore.Fits name.utf8ByteSize ∧ params.Fits
  | .op name params inputs | .reduction name params inputs =>
      GraphedCore.Fits name.utf8ByteSize ∧ params.Fits ∧ GraphedCore.Fits inputs.length
  | .external d params inputs => d.Fits ∧ params.Fits ∧ GraphedCore.Fits inputs.length
  | .stage inputs members => GraphedCore.Fits inputs.length ∧
      GraphedCore.Fits members.length ∧ ∀ op ∈ members, op.Fits

instance (value : ParamValue) : Decidable value.Fits :=
  match value with
  | .str a => inferInstanceAs (Decidable (GraphedCore.Fits a.utf8ByteSize))
  | .int _ | .float _ | .bool _ => isTrue trivial

instance (p : ParamMap) : Decidable p.Fits :=
  inferInstanceAs (Decidable (_ ∧ ∀ entry ∈ p.entries, _ ∧ entry.2.Fits))

instance (d : PayloadDescriptor) : Decidable d.Fits :=
  inferInstanceAs (Decidable (_ ∧ _ ∧ _ ∧ _ ∧ _ ∧ ∀ s ∈ d.preprocessingRef, _))

instance (ref : StageRef) : Decidable ref.Fits :=
  match ref with
  | .input slot => inferInstanceAs (Decidable (GraphedCore.Fits slot))
  | .member _ => isTrue trivial

instance (op : StageOp) : Decidable op.Fits :=
  inferInstanceAs (Decidable (_ ∧ _ ∧ ∀ ref ∈ op.inputs, ref.Fits))

instance (key : NodeKey) : Decidable key.Fits :=
  match key with
  | .source _ params => inferInstanceAs (Decidable (_ ∧ params.Fits))
  | .op _ params _ | .reduction _ params _ => inferInstanceAs (Decidable (_ ∧ params.Fits ∧ _))
  | .external d params _ => inferInstanceAs (Decidable (d.Fits ∧ params.Fits ∧ _))
  | .stage _ members => inferInstanceAs (Decidable (_ ∧ _ ∧ ∀ op ∈ members, op.Fits))

/-- Member references name earlier members. The decoder checks it, and fusion
builds no others. -/
def NodeKey.Ordered : NodeKey → Prop
  | .stage _ members => ∀ (k : Nat) (op : StageOp), members[k]? = some op →
      ∀ j, StageRef.member j ∈ op.inputs → j < k
  | _ => True

/-- Whether the members of a stage read earlier members does not depend on the
stage's inputs. -/
theorem NodeKey.ordered_withInputs (key : NodeKey) (ids : List NodeId) :
    (key.withInputs ids).Ordered ↔ key.Ordered := by
  cases key <;> rfl

namespace Serialize

/-! ## Integers -/

/-- A number of a given width takes that many bytes. -/
theorem length_leBytes (width n : Nat) : (leBytes width n).length = width := by
  induction width generalizing n with
  | zero => rfl
  | succ width ih => rw [leBytes, List.length_cons, ih]

/-- A number that fits its width is read back as itself. -/
theorem fromLeBytes_leBytes (width n : Nat) (fits : n < 256 ^ width) :
    fromLeBytes (leBytes width n) = n := by
  induction width generalizing n with
  | zero =>
    obtain rfl : n = 0 := by simpa using fits
    rfl
  | succ width ih =>
    have rest : n / 256 < 256 ^ width := Nat.div_lt_of_lt_mul (by rwa [Nat.pow_succ'] at fits)
    have low : (UInt8.ofNat n).toNat = n % 256 := by simp
    rw [leBytes, fromLeBytes, ih _ rest, low]
    exact Nat.mod_add_div n 256

namespace Reader

/-- Taking as many bytes as were written takes these. -/
theorem take_consumes (bytes : List UInt8) : Consumes (take bytes.length) bytes bytes := by
  intro rest
  simp [take]

/-- A byte is read back, whatever follows it. -/
theorem u8_consumes (b : UInt8) : Consumes u8 [b] b :=
  (take_consumes [b]).map (fun bytes => bytes.headD 0)

/-- A count that fits is read back, whatever follows it. -/
theorem u32_consumes {v : Nat} (fits : Fits v) : Consumes u32 (putU32 v) v := by
  have read := (take_consumes (putU32 v)).map fromLeBytes
  rw [putU32, length_leBytes, fromLeBytes_leBytes 4 v fits] at read
  exact read

/-- An id that fits is read back, whatever follows it. -/
theorem u64_consumes {v : Nat} (fits : v < 2 ^ 64) : Consumes u64 (putU64 v) v := by
  have read := (take_consumes (putU64 v)).map fromLeBytes
  rw [putU64, length_leBytes, fromLeBytes_leBytes 8 v fits] at read
  exact read

/-! ## Strings and lists -/

/-- A text is read back from its length and its bytes. -/
theorem string_consumes {s : String} (fits : Fits s.utf8ByteSize) :
    Consumes string (putStr s) s := by
  have length : s.toByteArray.data.toList.length = s.utf8ByteSize := by simp
  have valid : String.fromUTF8? ⟨s.toByteArray.data.toList.toArray⟩ = some s := by
    have bytes : (⟨s.toByteArray.data.toList.toArray⟩ : ByteArray) = s.toByteArray := rfl
    rw [bytes, String.fromUTF8?, dif_pos s.isValidUTF8]
    rfl
  refine (u32_consumes fits).bind ?_
  rw [← length]
  refine (take_consumes _).finish ?_
  rw [valid]
  exact consumes_pure s

/-- Items that are each read at their own position. -/
theorem repeated_consumes {α : Type} {read : Nat → Reader α} {write : α → List UInt8}
    (items : List α) (index : Nat)
    (each : ∀ (k : Nat) (item : α), items[k]? = some item →
      Consumes (read (index + k)) (write item) item) :
    Consumes (repeated read index items.length) (items.flatMap write) items := by
  induction items generalizing index with
  | nil => exact consumes_pure []
  | cons item rest ih =>
    rw [List.flatMap_cons]
    refine (each 0 item rfl).bind (Consumes.map (ih (index + 1) ?_) (item :: ·))
    intro k other lookup
    rw [Nat.add_assoc, Nat.add_comm 1]
    exact each (k + 1) other (by simpa using lookup)

/-- What was read at a position came from there. -/
theorem repeated_ok {α : Type} {read : Nat → Reader α} {count index : Nat}
    {data rest : List UInt8} {items : List α}
    (done : repeated read index count data = .ok (items, rest)) {k : Nat} {item : α}
    (lookup : items[k]? = some item) :
    ∃ front back, read (index + k) front = .ok (item, back) := by
  induction count generalizing index data items k with
  | zero =>
    obtain ⟨rfl, _⟩ := pure_ok_iff.mp done
    simp at lookup
  | succ count ih =>
    simp only [repeated, bind_ok_iff, pure_ok_iff] at done
    obtain ⟨first, middle, read, others, _, later, rfl, rfl⟩ := done
    cases k with
    | zero =>
      obtain rfl : first = item := by simpa using lookup
      exact ⟨data, middle, read⟩
    | succ k =>
      obtain ⟨front, back, found⟩ := ih later (by simpa using lookup)
      exact ⟨front, back, by rwa [Nat.add_assoc, Nat.add_comm 1] at found⟩

/-! ## Parameters and descriptors -/

/-- A parameter is read back from its tag and its bytes. Floats keep their
bits. -/
theorem paramValue_consumes {value : ParamValue} (fits : value.Fits) :
    Consumes paramValue (putParamValue value) value := by
  cases value with
  | int a =>
    refine (u8_consumes 0).bind ?_
    have read := (u64_consumes a.toUInt64.toNat_lt).map
      (fun v => ParamValue.int (Int64.ofUInt64 (UInt64.ofNat v)))
    rwa [UInt64.ofNat_toNat] at read
  | float a =>
    refine (u8_consumes 1).bind ?_
    have read := (u64_consumes a.toNat_lt).map (fun v => ParamValue.float (UInt64.ofNat v))
    rwa [UInt64.ofNat_toNat] at read
  | bool a =>
    refine (u8_consumes 2).bind ?_
    have read := (u8_consumes (if a then 1 else 0)).map (fun b => ParamValue.bool (b != 0))
    cases a <;> exact read
  | str a =>
    refine (u8_consumes 3).bind ?_
    exact (string_consumes fits).map ParamValue.str

/-- Entries are read back one after another, by induction on them. -/
theorem paramEntries_consumes {entries : List (String × ParamValue)}
    (fits : ∀ entry ∈ entries, Fits entry.1.utf8ByteSize ∧ entry.2.Fits) :
    Consumes (repeated (fun _ => paramEntry) 0 entries.length)
      (entries.flatMap (fun entry => putStr entry.1 ++ putParamValue entry.2)) entries := by
  refine repeated_consumes entries 0 ?_
  intro k entry lookup
  obtain ⟨name, value⟩ := fits entry (List.mem_of_getElem? lookup)
  exact (string_consumes name).bind ((paramValue_consumes value).map (fun v => (entry.1, v)))

/-- Parameters are read back: sorting the entries that are read changes nothing,
since they were written sorted. -/
theorem params_consumes {p : ParamMap} (fits : p.Fits) : Consumes params (putParams p) p := by
  have entries := paramEntries_consumes fits.2
  refine (u32_consumes fits.1).bind ?_
  have read := entries.map ParamMap.new
  rwa [ParamMap.new_entries] at read

/-- Inputs that come earlier are read back, each one passing the reader's
check. -/
theorem inputs_consumes {ids : List NodeId} {index : Nat} (fits : Fits ids.length)
    (small : Fits index) (earlier : ∀ i ∈ ids, i < index) :
    Consumes (inputs index) (putInputs ids) ids := by
  refine (u32_consumes fits).bind (repeated_consumes ids 0 ?_)
  intro k i lookup
  have before := earlier i (List.mem_of_getElem? lookup)
  have bound : i < 2 ^ 64 := (before.trans small).trans (by decide)
  refine (u64_consumes bound).finish ?_
  rw [if_neg (Nat.not_le_of_gt before)]
  exact consumes_pure i

/-- An absent text and a present one are told apart by the byte before it. -/
theorem optional_consumes {s : Option String} (fits : ∀ text ∈ s, Fits text.utf8ByteSize) :
    Consumes optional (putOptional s) s := by
  cases s with
  | none => exact (u8_consumes 0).bind (consumes_pure none)
  | some text =>
    exact (u8_consumes 1).bind ((string_consumes (fits text rfl)).map some)

/-- A descriptor is read back field by field. -/
theorem descriptor_consumes {d : PayloadDescriptor} (fits : d.Fits) :
    Consumes descriptor (putDescriptor d) d := by
  obtain ⟨kind, contentHash, framework, version, ioSchema, preprocessingRef⟩ := fits
  simp only [putDescriptor, List.append_assoc]
  exact (string_consumes kind).bind <| (string_consumes contentHash).bind <|
    (string_consumes framework).bind <| (string_consumes version).bind <|
      (string_consumes ioSchema).bind <| (optional_consumes preprocessingRef).map _

/-! ## Stages and nodes -/

/-- A slot of a member is read back when it reads an earlier member, which the
reader checks, or an input. -/
theorem stageRef_consumes {ref : StageRef} {index : Nat} (fits : ref.Fits) (small : Fits index)
    (earlier : ∀ j, ref = .member j → j < index) :
    Consumes (stageRef index) (putStageRef ref) ref := by
  cases ref with
  | input slot =>
    exact (u8_consumes 0).bind ((u32_consumes fits).map StageRef.input)
  | member j =>
    refine (u8_consumes 1).bind ?_
    refine (u32_consumes ((earlier j rfl).trans small)).finish ?_
    show Consumes (if index ≤ j then fail (.badNodeRef j) else pure (StageRef.member j)) [] _
    rw [if_neg (Nat.not_le_of_gt (earlier j rfl))]
    exact consumes_pure (StageRef.member j)

/-- A member is read back when it reads earlier members. -/
theorem stageOp_consumes {op : StageOp} {index : Nat} (fits : op.Fits) (small : Fits index)
    (earlier : ∀ j, StageRef.member j ∈ op.inputs → j < index) :
    Consumes (stageOp index) (putStageOp op) op := by
  have refs : Consumes (repeated (fun _ => stageRef index) 0 op.inputs.length)
      (op.inputs.flatMap putStageRef) op.inputs := by
    refine repeated_consumes op.inputs 0 ?_
    intro k ref lookup
    have member := List.mem_of_getElem? lookup
    exact stageRef_consumes (fits.2.2 ref member) small (fun j same => earlier j (same ▸ member))
  rw [putStageOp, List.append_assoc]
  exact (string_consumes fits.1).bind <| (u32_consumes fits.2.1).bind <|
    refs.map (fun inputs => StageOp.mk op.token inputs)

/-- A record is read back by its tag. The reader's checks hold of a key whose
inputs and members come earlier. -/
theorem node_consumes {key : NodeKey} {index : Nat} (fits : key.Fits) (small : Fits index)
    (earlier : ∀ i ∈ key.inputs, i < index) (ordered : key.Ordered) :
    Consumes (node index) (putNode key) key := by
  cases key with
  | source name params =>
    exact (u8_consumes 0).bind <| (string_consumes fits.1).bind <|
      (params_consumes fits.2).map (NodeKey.source name)
  | op name params ids =>
    simp only [putNode, List.append_assoc, List.cons_append]
    exact (u8_consumes 1).bind <| (string_consumes fits.1).bind <|
      (params_consumes fits.2.1).bind <|
        (inputs_consumes fits.2.2 small earlier).map (NodeKey.op name params)
  | reduction name params ids =>
    simp only [putNode, List.append_assoc, List.cons_append]
    exact (u8_consumes 2).bind <| (string_consumes fits.1).bind <|
      (params_consumes fits.2.1).bind <|
        (inputs_consumes fits.2.2 small earlier).map (NodeKey.reduction name params)
  | external d params ids =>
    simp only [putNode, List.append_assoc, List.cons_append]
    exact (u8_consumes 3).bind <| (descriptor_consumes fits.1).bind <|
      (params_consumes fits.2.1).bind <|
        (inputs_consumes fits.2.2 small earlier).map (NodeKey.external d params)
  | stage ids members =>
    have ops : Consumes (repeated stageOp 0 members.length) (members.flatMap putStageOp)
        members := by
      refine repeated_consumes members 0 ?_
      intro k op lookup
      rw [Nat.zero_add]
      obtain ⟨inside, _⟩ := List.getElem?_eq_some_iff.mp lookup
      exact stageOp_consumes (fits.2.2 op (List.mem_of_getElem? lookup)) (inside.trans fits.2.1)
        (ordered k op lookup)
    simp only [putNode, List.append_assoc, List.cons_append]
    exact (u8_consumes 4).bind <| (inputs_consumes fits.1 small earlier).bind <|
      (u32_consumes fits.2.1).bind <| ops.map (NodeKey.stage ids)

end Reader

end Serialize

end GraphedCore
