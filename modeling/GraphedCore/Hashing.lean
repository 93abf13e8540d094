import GraphedCore.Codec
import GraphedCore.Keys
import GraphedCore.Lib.Delimited

/-!
# What keys feed to a hasher

The intern table hashes a key before it compares any. A key feeds its parts to the hasher as
bytes: numbers as eight of them, tags before what they tag, lists behind their lengths, and a
string with `0xff` behind it, which is in no UTF-8. A float feeds the bits that decide equality,
not its own. So equal keys feed the same bytes, and keys that are not equal never do.
-/

namespace GraphedCore

open Delimited

/-! ## The bytes -/

/-- A number, a length, an id or the discriminant of a variant, as eight bytes. -/
def hashWord (n : Nat) : List UInt8 := Serialize.leBytes 8 n

/-- A text feeds its bytes and a byte that no text holds, as the standard library
does. -/
def hashStr (s : String) : List UInt8 := s.toByteArray.data.toList ++ [0xff]

/-- A list, behind its length, one item after another. -/
def hashSlice {α : Type} (hash : α → List UInt8) (items : List α) : List UInt8 :=
  hashWord items.length ++ items.flatMap hash

/-- An optional text feeds its discriminant before the text. -/
def hashOption : Option String → List UInt8
  | none => hashWord 0
  | some s => hashWord 1 ++ hashStr s

namespace ParamValue

/-- The tag of a parameter, which is fed before its value as one byte. -/
def tag : ParamValue → UInt8
  | .int _ => 0
  | .float _ => 1
  | .bool _ => 2
  | .str _ => 3

/-- What a parameter feeds. A float feeds the bits that its equality compares, so
every NaN feeds the same. -/
def hash (value : ParamValue) : List UInt8 :=
  [value.tag] ++ match value with
    | .int a => hashWord a.toUInt64.toNat
    | .float a => hashWord (floatKey a).toNat
    | .bool a => [if a then 1 else 0]
    | .str a => hashStr a

end ParamValue

/-- The entries of a map feed their number, and then one after another, each as
its key and its value. -/
def ParamMap.hash (p : ParamMap) : List UInt8 :=
  hashSlice (fun entry => hashStr entry.1 ++ entry.2.hash) p.entries

/-- The fields of a descriptor, in the order of the record. -/
def PayloadDescriptor.hash (d : PayloadDescriptor) : List UInt8 :=
  hashStr d.kind ++ hashStr d.contentHash ++ hashStr d.framework ++ hashStr d.version ++
    hashStr d.ioSchema ++ hashOption d.preprocessingRef

/-- A slot feeds its kind and its number. -/
def StageRef.hash : StageRef → List UInt8
  | .input slot => hashWord 0 ++ hashWord slot
  | .member index => hashWord 1 ++ hashWord index

/-- A member feeds its token and its slots. -/
def StageOp.hash (op : StageOp) : List UInt8 :=
  hashStr op.token ++ hashSlice StageRef.hash op.inputs

namespace NodeKey

/-- The number of the variant, which a derived implementation feeds first. -/
def discriminant : NodeKey → Nat
  | .source _ _ => 0
  | .op _ _ _ => 1
  | .reduction _ _ _ => 2
  | .external _ _ _ => 3
  | .stage _ _ => 4

/-- The fields in their order, behind the discriminant. This is what the derived
implementation feeds a hasher. -/
def hash (key : NodeKey) : List UInt8 :=
  hashWord key.discriminant ++ match key with
    | .source name params => hashStr name ++ params.hash
    | .op name params inputs | .reduction name params inputs =>
      hashStr name ++ params.hash ++ hashSlice hashWord inputs
    | .external d params inputs => d.hash ++ params.hash ++ hashSlice hashWord inputs
    | .stage inputs members => hashSlice hashWord inputs ++ hashSlice StageOp.hash members

end NodeKey

/-! ## Equal keys -/

/-- Equal parameters feed the same bytes. -/
theorem ParamValue.hash_canon (value : ParamValue) : value.canon.hash = value.hash := by
  cases value <;> simp [canon, hash, tag, floatKey_idem]

/-- Equal maps feed the same bytes. -/
theorem ParamMap.hash_canon (p : ParamMap) : p.canon.hash = p.hash := by
  simp [hash, canon, canonEntry, hashSlice, List.flatMap_map, ParamValue.hash_canon]

/-- Equal keys feed the same bytes. -/
theorem NodeKey.hash_canon (key : NodeKey) : key.canon.hash = key.hash := by
  cases key <;> simp [canon, hash, discriminant, ParamMap.hash_canon]

/-- Equal keys feed the same bytes. -/
theorem NodeKey.hash_congr {key other : NodeKey} (equal : key.eq other = true) :
    key.hash = other.hash := by
  rw [← key.hash_canon, (eq_iff key other).mp equal, other.hash_canon]

/-! ## Keys that are not equal -/

/-- What is held in 64 bits, so that it is fed without a cut. -/
def Wide (n : Nat) : Prop := n < 2 ^ 64

instance (n : Nat) : Decidable (Wide n) := inferInstanceAs (Decidable (n < 2 ^ 64))

/-- A map whose number of entries is held in 64 bits. -/
def ParamMap.Wide (p : ParamMap) : Prop := GraphedCore.Wide p.entries.length

/-- A slot that is held in 64 bits. -/
def StageRef.Wide : StageRef → Prop
  | .input n | .member n => GraphedCore.Wide n

/-- A member whose slots, and their number, are held in 64 bits. -/
def StageOp.Wide (op : StageOp) : Prop :=
  GraphedCore.Wide op.inputs.length ∧ ∀ ref ∈ op.inputs, ref.Wide

/-- Ids that are held in 64 bits, as is their number. In the source nothing else
can be built. -/
def WideIds (ids : List NodeId) : Prop := Wide ids.length ∧ ∀ i ∈ ids, Wide i

/-- Ids, slots and lengths are held in 64 bits, as the types of the source have
them. -/
def NodeKey.Wide : NodeKey → Prop
  | .source _ params => params.Wide
  | .op _ params inputs | .reduction _ params inputs | .external _ params inputs =>
    params.Wide ∧ WideIds inputs
  | .stage inputs members =>
    WideIds inputs ∧ GraphedCore.Wide members.length ∧ ∀ op ∈ members, op.Wide

/-- A word tells where it ends, being of a fixed width, and tells its number. -/
theorem hashWord_ends : EndsItself Wide id hashWord := by
  apply endsItself_of_length (Serialize.length_leBytes 8)
  intro m n small small' same
  have inverse : Serialize.fromLeBytes (Serialize.leBytes 8 m) =
      Serialize.fromLeBytes (Serialize.leBytes 8 n) := congrArg Serialize.fromLeBytes same
  rwa [Serialize.fromLeBytes_leBytes 8 m small, Serialize.fromLeBytes_leBytes 8 n small'] at inverse

/-- No byte of a character is `0xff`. -/
theorem utf8EncodeChar_lt (c : Char) : ∀ b ∈ String.utf8EncodeChar c, b.toNat < 255 := by
  have byte {n : Nat} (small : n < 255) : (UInt8.ofNat n).toNat < 255 := by
    rw [UInt8.toNat_ofNat']
    exact (Nat.mod_le n _).trans_lt small
  rw [String.utf8EncodeChar]
  split_ifs <;> simp only [List.forall_mem_cons, List.not_mem_nil, false_implies, implies_true,
    and_true]
  · exact byte (by omega)
  · exact ⟨byte (by omega), byte (by omega)⟩
  · exact ⟨byte (by omega), byte (by omega), byte (by omega)⟩
  · exact ⟨byte (by omega), byte (by omega), byte (by omega), byte (by omega)⟩

/-- A text ends at the first byte that no text holds. -/
theorem hashStr_ends : EndsItself (fun _ => True) id hashStr := by
  apply endsItself_stopped
  · intro s present
    obtain ⟨chars, encoded⟩ := s.isValidUTF8
    rw [encoded, List.utf8Encode, List.data_toByteArray, List.toList_toArray,
      List.mem_flatMap] at present
    obtain ⟨c, _, stop⟩ := present
    exact absurd (utf8EncodeChar_lt c _ stop) (by decide)
  · intro s s' _ _ same
    exact String.toByteArray_inj.mp (ByteArray.ext (Array.toList_inj.mp same))

/-- Items that tell where they end make a slice that does: their number is fed
first. -/
theorem hashSlice_ends {α γ : Type} {valid : α → Prop} {canon : α → γ} {hash : α → List UInt8}
    (each : EndsItself valid canon hash) :
    EndsItself (fun items => Wide items.length ∧ ∀ a ∈ items, valid a) (List.map canon)
      (hashSlice hash) :=
  hashWord_ends.counted each

/-- Ids tell where they end. -/
theorem hashIds_ends : EndsItself WideIds id (hashSlice hashWord) := by
  have ends := hashSlice_ends hashWord_ends
  rwa [List.map_id_fun] at ends

/-- An optional text tells whether it is there, and where it ends. -/
theorem hashOption_ends : EndsItself (fun _ => True) id hashOption := by
  intro s s' rest rest' _ _ same
  have apart (t : String) (back back' : List UInt8) :
      hashWord 0 ++ back ≠ (hashWord 1 ++ hashStr t) ++ back' := by
    intro same
    rw [List.append_assoc] at same
    have small : Wide 0 ∧ Wide 1 := by decide
    exact absurd (hashWord_ends _ _ _ _ small.1 small.2 same).1 (by decide)
  cases s with
  | none =>
    cases s' with
    | none => exact ⟨rfl, List.append_cancel_left same⟩
    | some t => exact (apart t _ _ same).elim
  | some t =>
    cases s' with
    | none => exact (apart t _ _ same.symm).elim
    | some t' =>
      simp only [hashOption, List.append_assoc] at same
      obtain ⟨text, behind⟩ := hashStr_ends _ _ _ _ trivial trivial (List.append_cancel_left same)
      exact ⟨congrArg some text, behind⟩

/-- The tag tells the kind of what follows. Equal parameters, and no others, feed
the same bytes. -/
theorem ParamValue.hash_ends : EndsItself (fun _ => True) canon hash := by
  have tags : EndsItself (fun _ => True) id (fun t : UInt8 => [t]) :=
    endsItself_of_length (fun _ => rfl) (fun _ _ _ _ same => List.singleton_injective same)
  apply tags.tagged (fun _ => trivial)
  intro a b rest rest' _ _ tagged same
  cases a <;> cases b <;> simp only [tag, id] at tagged
  all_goals try cases tagged
  case int m n =>
    obtain ⟨word, behind⟩ := hashWord_ends _ _ _ _ m.toUInt64.toNat_lt n.toUInt64.toNat_lt same
    have bits : m = n := congrArg Int64.ofUInt64 (UInt64.toNat_inj.mp word)
    exact ⟨congrArg canon (congrArg int bits), behind⟩
  case float x y =>
    obtain ⟨word, behind⟩ :=
      hashWord_ends _ _ _ _ (floatKey x).toNat_lt (floatKey y).toNat_lt same
    exact ⟨congrArg float (UInt64.toNat_inj.mp word), behind⟩
  case bool p q =>
    cases p <;> cases q <;> simp_all
  case str s t =>
    obtain ⟨text, behind⟩ := hashStr_ends _ _ _ _ trivial trivial same
    exact ⟨congrArg str text, behind⟩

/-- A map tells its entries. -/
theorem ParamMap.hash_ends : EndsItself Wide canon hash := by
  intro p q rest rest' few few' same
  have entries : EndsItself (fun entry : String × ParamValue => True ∧ True) canonEntry
      (fun entry => hashStr entry.1 ++ entry.2.hash) := hashStr_ends.append ParamValue.hash_ends
  obtain ⟨listed, behind⟩ := hashSlice_ends entries _ _ _ _ ⟨few, fun _ _ => ⟨trivial, trivial⟩⟩
    ⟨few', fun _ _ => ⟨trivial, trivial⟩⟩ same
  exact ⟨ext listed, behind⟩

/-- A descriptor tells its fields. -/
theorem PayloadDescriptor.hash_ends : EndsItself (fun _ => True) id hash := by
  intro d d' rest rest' _ _ same
  simp only [hash, List.append_assoc] at same
  obtain ⟨kind, same⟩ := hashStr_ends.exact trivial trivial same
  obtain ⟨contentHash, same⟩ := hashStr_ends.exact trivial trivial same
  obtain ⟨framework, same⟩ := hashStr_ends.exact trivial trivial same
  obtain ⟨version, same⟩ := hashStr_ends.exact trivial trivial same
  obtain ⟨ioSchema, same⟩ := hashStr_ends.exact trivial trivial same
  obtain ⟨preprocessingRef, behind⟩ := hashOption_ends.exact trivial trivial same
  cases d
  cases d'
  simp_all

/-- A slot tells its kind and its number. -/
theorem StageRef.hash_ends : EndsItself Wide id hash := by
  intro ref ref' rest rest' wide wide' same
  have small : GraphedCore.Wide 0 ∧ GraphedCore.Wide 1 := by decide
  cases ref <;> cases ref' <;> simp only [hash, List.append_assoc] at same
  case input.input slot slot' =>
    obtain ⟨rfl, behind⟩ := hashWord_ends.exact wide wide' (List.append_cancel_left same)
    exact ⟨rfl, behind⟩
  case member.member index index' =>
    obtain ⟨rfl, behind⟩ := hashWord_ends.exact wide wide' (List.append_cancel_left same)
    exact ⟨rfl, behind⟩
  case input.member =>
    exact absurd (hashWord_ends _ _ _ _ small.1 small.2 same).1 (by decide)
  case member.input =>
    exact absurd (hashWord_ends _ _ _ _ small.2 small.1 same).1 (by decide)

/-- A member tells its token and its slots. -/
theorem StageOp.hash_ends : EndsItself Wide id hash := by
  intro op op' rest rest' wide wide' same
  simp only [hash, List.append_assoc] at same
  obtain ⟨token, same⟩ := hashStr_ends.exact trivial trivial same
  obtain ⟨refs, behind⟩ := hashSlice_ends StageRef.hash_ends _ _ _ _ wide wide' same
  rw [List.map_id, List.map_id] at refs
  cases op
  cases op'
  simp_all

/-- What a key feeds tells the key up to equality, and where it ends. -/
theorem NodeKey.hash_ends : EndsItself Wide canon hash := by
  have small (key : NodeKey) : GraphedCore.Wide key.discriminant := by
    cases key <;> simp [discriminant, GraphedCore.Wide]
  apply hashWord_ends.tagged small
  intro key other rest rest' wide wide' tagged same
  cases key <;> cases other <;> simp only [discriminant, id] at tagged
  all_goals try cases tagged
  case source name params name' params' =>
    rw [List.append_assoc, List.append_assoc] at same
    obtain ⟨names, same⟩ := hashStr_ends.exact trivial trivial same
    obtain ⟨maps, behind⟩ := ParamMap.hash_ends _ _ _ _ wide wide' same
    exact ⟨by rw [canon, canon, names, maps], behind⟩
  case stage inputs members inputs' members' =>
    rw [List.append_assoc, List.append_assoc] at same
    obtain ⟨ids, same⟩ := hashIds_ends.exact wide.1 wide'.1 same
    obtain ⟨ops, behind⟩ := hashSlice_ends StageOp.hash_ends _ _ _ _ wide.2 wide'.2 same
    rw [List.map_id, List.map_id] at ops
    exact ⟨by rw [canon, canon, ids, ops], behind⟩
  case external d params inputs d' params' inputs' =>
    simp only [List.append_assoc] at same
    obtain ⟨payloads, same⟩ := PayloadDescriptor.hash_ends.exact trivial trivial same
    obtain ⟨maps, same⟩ := ParamMap.hash_ends _ _ _ _ wide.1 wide'.1 same
    obtain ⟨ids, behind⟩ := hashIds_ends.exact wide.2 wide'.2 same
    exact ⟨by rw [canon, canon, payloads, maps, ids], behind⟩
  case op name params inputs name' params' inputs' =>
    simp only [List.append_assoc] at same
    obtain ⟨names, same⟩ := hashStr_ends.exact trivial trivial same
    obtain ⟨maps, same⟩ := ParamMap.hash_ends _ _ _ _ wide.1 wide'.1 same
    obtain ⟨ids, behind⟩ := hashIds_ends.exact wide.2 wide'.2 same
    exact ⟨by rw [canon, canon, names, maps, ids], behind⟩
  case reduction name params inputs name' params' inputs' =>
    simp only [List.append_assoc] at same
    obtain ⟨names, same⟩ := hashStr_ends.exact trivial trivial same
    obtain ⟨maps, same⟩ := ParamMap.hash_ends _ _ _ _ wide.1 wide'.1 same
    obtain ⟨ids, behind⟩ := hashIds_ends.exact wide.2 wide'.2 same
    exact ⟨by rw [canon, canon, names, maps, ids], behind⟩

/-- Keys feed the same bytes to a hasher exactly when they are equal. So equal
keys meet in one bucket, as the table needs it, and other keys collide by the
hasher's own doing only. -/
theorem hash_eq_iff {key other : NodeKey} (wide : key.Wide) (wide' : other.Wide) :
    key.hash = other.hash ↔ key.eq other = true := by
  constructor
  · intro same
    exact (NodeKey.eq_iff key other).mpr (NodeKey.hash_ends.injective wide wide' same)
  · exact NodeKey.hash_congr

/-- A shift of input `0` by a NaN with the given bits. -/
def nanShift (bits : F64) : NodeKey := .op "add" (.new [("scalar", .float bits)]) [0]

/-- The key is small. -/
theorem nanShift_wide (bits : F64) : (nanShift bits).Wide := by
  simp [nanShift, NodeKey.Wide, ParamMap.Wide, ParamMap.new, WideIds, Wide]

/-- Shifts by two NaNs feed the same bytes, and a shift by `0.0` feeds others. -/
theorem hash_eq_iff_of_nan :
    (nanShift 0x7ff0000000000001).hash = (nanShift 0xfff8000000000000).hash ∧
      (nanShift 0x7ff0000000000001).hash ≠ (nanShift 0).hash := by
  constructor
  · exact (hash_eq_iff (nanShift_wide _) (nanShift_wide _)).mpr (by decide +kernel)
  · rw [Ne, hash_eq_iff (nanShift_wide _) (nanShift_wide _)]
    decide +kernel

end GraphedCore
