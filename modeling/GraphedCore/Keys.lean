import GraphedCore.Node
import GraphedCore.Lib.Table
import GraphedCore.Lib.Congruence

/-!
# Keys up to equality

Two keys are equal exactly when they have one canonical form, in which every NaN
has one bit pattern. A canonical form splits into the operator, which forgets the
inputs, and the inputs, so a list of keys is a graph in the sense of the library.
-/

namespace GraphedCore

/-- The bits that stand for every NaN are those of a NaN, so canonical bits never
change the kind of a float. -/
theorem F64.isNan_canonNan : F64.isNan canonNan = true := by decide

namespace ParamValue

/-- The key of a float is its own key. So normal forms are normal. -/
theorem floatKey_idem (x : F64) : floatKey (floatKey x) = floatKey x := by
  unfold floatKey
  split
  · simp [F64.isNan_canonNan]
  · simp_all

/-- The same value with the canonical bits. Two values are equal to the source
exactly when these are the same. -/
def canon : ParamValue → ParamValue
  | .float a => .float (floatKey a)
  | value => value

/-- Parameters are equal to the source when they are alike up to the bits of NaNs,
that is, when their normal forms are the same. -/
theorem eq_iff (a b : ParamValue) : a.eq b = true ↔ a.canon = b.canon := by
  cases a <;> cases b <;> simp [eq, canon]

/-- Normalizing a parameter twice is normalizing it once. -/
theorem canon_canon (value : ParamValue) : value.canon.canon = value.canon := by
  cases value <;> simp [canon, floatKey_idem]

/-- The token of a parameter does not tell NaNs apart, for it spells canonical
bits. -/
theorem token_canon (value : ParamValue) : value.canon.token = value.token := by
  cases value <;> simp [canon, token, floatKey_idem]

end ParamValue

namespace ParamMap

/-- An entry with its value normalized. The key of an entry is compared as it
stands. -/
def canonEntry (entry : String × ParamValue) : String × ParamValue := (entry.1, entry.2.canon)

/-- The same keys, each with its canonical value. Values do not enter the order,
so the entries stay sorted. -/
def canon (p : ParamMap) : ParamMap where
  entries := p.entries.map canonEntry
  sorted := List.pairwise_map.mpr p.sorted

/-- Normalizing a map twice is normalizing it once. -/
theorem canon_canon (p : ParamMap) : p.canon.canon = p.canon := by
  apply ext
  simp [canon, canonEntry, Function.comp_def, ParamValue.canon_canon]

/-- Normalizing adds and drops no entry, so a map keeps whether it is spelled. -/
theorem isEmpty_canon (p : ParamMap) : p.canon.isEmpty = p.isEmpty := by
  simp [isEmpty, canon]

/-- The token of a map does not tell NaNs apart, entry by entry. -/
theorem token_canon (p : ParamMap) : p.canon.token = p.token := by
  simp [token, canon, canonEntry, Function.comp_def, ParamValue.token_canon]

/-- Comparing lengths and then entries one by one is comparing the normalized
lists. -/
theorem entries_eq_iff (xs ys : List (String × ParamValue)) :
    (xs.length == ys.length && (xs.zip ys).all (fun (a, b) => a.1 == b.1 && a.2.eq b.2)) = true ↔
      xs.map canonEntry = ys.map canonEntry := by
  induction xs generalizing ys with
  | nil => cases ys <;> simp
  | cons x xs ih =>
    cases ys with
    | nil => simp
    | cons y ys =>
      rw [List.map_cons, List.map_cons, List.cons.injEq, ← ih ys]
      simp [canonEntry, ParamValue.eq_iff]
      tauto

/-- Maps are equal to the source when they are alike up to the bits of NaNs.
Entries are compared in their order, which sorting has fixed. -/
theorem eq_iff (p q : ParamMap) : p.eq q = true ↔ p.canon = q.canon := by
  rw [eq, entries_eq_iff]
  exact ⟨fun same => ext same, fun same => congrArg entries same⟩

end ParamMap

/-- Nor does a token with parameters tell NaNs apart. -/
theorem withParams_canon (token : String) (p : ParamMap) :
    withParams token p.canon = withParams token p := by
  rw [withParams, withParams, ParamMap.isEmpty_canon, ParamMap.token_canon]

namespace NodeKey

/-- The same key with canonical parameters. Everything else in a key is compared
as it stands. -/
def canon : NodeKey → NodeKey
  | .source name params => .source name params.canon
  | .op name params inputs => .op name params.canon inputs
  | .reduction name params inputs => .reduction name params.canon inputs
  | .external d params inputs => .external d params.canon inputs
  | .stage inputs members => .stage inputs members

/-- Keys are equal when they are alike up to the bits of NaNs, inputs included.
This is the equality of interning. -/
theorem eq_iff (a b : NodeKey) : a.eq b = true ↔ a.canon = b.canon := by
  cases a <;> cases b <;> simp [eq, canon, ParamMap.eq_iff, and_assoc]

/-- The equality of keys compares normal forms, as a table asks. It is the only
fact about this equality that lookups use. -/
theorem compares : Table.Compares NodeKey.eq canon := eq_iff

/-- Normalizing does not touch the inputs. -/
@[simp] theorem inputs_canon (key : NodeKey) : key.canon.inputs = key.inputs := by
  cases key <;> rfl

/-- The token of a key does not tell NaNs apart. -/
@[simp] theorem token_canon (key : NodeKey) : key.canon.token = key.token := by
  cases key <;> simp [canon, token, withParams_canon]

/-- Normalizing does not look at the inputs. -/
@[simp] theorem canon_withInputs (key : NodeKey) (ids : List NodeId) :
    (key.withInputs ids).canon = key.canon.withInputs ids := by
  cases key <;> rfl

/-- The token does not tell the inputs. So two nodes of one token differ in what
they read. -/
@[simp] theorem token_withInputs (key : NodeKey) (ids : List NodeId) :
    (key.withInputs ids).token = key.token := by
  cases key <;> rfl

/-- Being a boundary is no matter of the inputs. -/
@[simp] theorem isBoundary_withInputs (key : NodeKey) (ids : List NodeId) :
    (key.withInputs ids).isBoundary = key.isBoundary := by
  cases key <;> rfl

/-- The inputs that are set last stay. -/
@[simp] theorem withInputs_withInputs (key : NodeKey) (ids more : List NodeId) :
    (key.withInputs ids).withInputs more = key.withInputs more := by
  cases key <;> rfl

/-- A key over its own inputs is the key. -/
@[simp] theorem withInputs_inputs (key : NodeKey) : key.withInputs key.inputs = key := by
  cases key <;> rfl

/-- A key takes the inputs that it is given, if they are as many as before. A
source has none to replace. -/
theorem inputs_withInputs (key : NodeKey) (ids : List NodeId)
    (arity : ids.length = key.inputs.length) : (key.withInputs ids).inputs = ids := by
  cases key with
  | source => exact (List.length_eq_zero_iff.mp arity).symm
  | _ => rfl

/-- A key over ids reads nothing but these ids. A source reads nothing at all. -/
theorem mem_inputs_withInputs {key : NodeKey} {ids : List NodeId} {x : NodeId}
    (member : x ∈ (key.withInputs ids).inputs) : x ∈ ids := by
  cases key with
  | source => cases member
  | _ => exact member

/-- What a key computes: its kind, name or descriptor, members and parameters up
to equality, with the inputs forgotten. -/
def operator (key : NodeKey) : NodeKey := key.canon.withInputs []

/-- The operator does not tell the inputs: it is what a node does, wherever its
arguments come from. -/
@[simp] theorem operator_withInputs (key : NodeKey) (ids : List NodeId) :
    (key.withInputs ids).operator = key.operator := by
  simp [operator]

/-- The token is the operator's. -/
@[simp] theorem token_operator (key : NodeKey) : key.operator.token = key.token := by
  simp [operator]

/-- A key is its operator over its inputs, up to the bits of NaNs. -/
theorem canon_eq_operator (key : NodeKey) : key.canon = key.operator.withInputs key.inputs := by
  rw [operator, withInputs_withInputs, ← inputs_canon, withInputs_inputs]

/-- Equal keys: the same operator over the same inputs. Interning and congruence
speak of one thing because of this. -/
theorem canon_eq_iff (a b : NodeKey) :
    a.canon = b.canon ↔ a.operator = b.operator ∧ a.inputs = b.inputs := by
  constructor
  · intro same
    exact ⟨by rw [operator, operator, same], by rw [← inputs_canon a, same, inputs_canon]⟩
  · rintro ⟨operators, inputs⟩
    rw [canon_eq_operator, canon_eq_operator, operators, inputs]

end NodeKey

/-- An arena of keys is a graph. -/
instance : Dag.Wired NodeKey where
  inputs := NodeKey.inputs
  rewire f key := key.withInputs (key.inputs.map f)
  inputs_rewire f key := NodeKey.inputs_withInputs key _ (List.length_map _)
  rewire_congr f g key same := by rw [List.map_congr_left same]
  rewire_rewire f g key := by
    rw [NodeKey.withInputs_withInputs, NodeKey.inputs_withInputs key _ (List.length_map _),
      List.map_map]
  rewire_id key := by rw [List.map_id, NodeKey.withInputs_inputs]

namespace NodeKey

/-- What a key reads, in the terms of graphs. -/
@[simp] theorem wired_inputs (key : NodeKey) : Dag.Wired.inputs key = key.inputs := rfl

/-- Rewiring a key is setting its inputs to their images. -/
theorem wired_rewire (f : Nat → Nat) (key : NodeKey) :
    Dag.Wired.rewire f key = key.withInputs (key.inputs.map f) := rfl

/-- Rewiring keeps the operator. -/
@[simp] theorem operator_rewire (f : Nat → Nat) (key : NodeKey) :
    (Dag.Wired.rewire f key).operator = key.operator := operator_withInputs key _

/-- Rewiring keeps the token. -/
@[simp] theorem token_rewire (f : Nat → Nat) (key : NodeKey) :
    (Dag.Wired.rewire f key).token = key.token := token_withInputs key _

end NodeKey

end GraphedCore
