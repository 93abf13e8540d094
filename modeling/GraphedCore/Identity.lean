import GraphedCore.Bindings
import GraphedCore.Recorded
import GraphedCore.Session
import GraphedCore.Lib.KeySort

/-!
# The identity of Python parameters

Dictionaries of values that the store has a type for are told apart by type and value, in
whatever order they were filled, and are shown as they were given. An integer of more than 64
bits is not refused: the extractor for integers declines it, the one for floats takes it, and
the nearest float is what is stored, compared and shown.
-/

namespace GraphedCore

open Dag Wired GraphStore

namespace PyStr

/-- A code point is a character exactly when it is that character's. -/
theorem char?_eq_some_iff {n : Fin 0x110000} {c : Char} : char? n = some c ↔ n = codePoint c := by
  rw [char?, codePoint, Fin.ext_iff]
  constructor
  · intro found
    split at found
    · rename_i valid
      obtain rfl := Option.some.inj found
      have code : (Char.ofNat n.val).toNat = n.val := by
        rw [Char.ofNat, dif_pos valid]
        rfl
      exact code.symm
    · cases found
  · intro same
    have valid : n.val.isValidChar := by
      rw [same]
      exact c.valid
    rw [if_pos valid, show n.val = c.toNat from same, Char.ofNat_toNat]

/-- A string comes out of the `str` that spells it, and of no other. A `str` with
a surrogate gives none. -/
theorem extract_eq_some_iff {s : PyStr} {t : String} : s.extract = some t ↔ s = ofString t := by
  have pointwise (cs : List Char) :
      s.codePoints.mapM char? = some cs ↔ s.codePoints = cs.map codePoint := by
    rw [Enumerate.mapM_eq_some_iff, ← List.forall₂_eq_eq_eq, ← List.forall₂_eq_eq_eq,
      List.forall₂_map_left_iff, List.forall₂_map_right_iff, List.forall₂_map_right_iff]
    simp only [char?_eq_some_iff]
  rw [extract, Option.map_eq_some_iff]
  constructor
  · rintro ⟨cs, spelled, rfl⟩
    rw [ofString, String.toList_ofList, ← (pointwise cs).mp spelled]
  · rintro rfl
    exact ⟨t.toList, (pointwise t.toList).mpr rfl, String.ofList_toList⟩

/-- Different texts are different strings of Python. -/
theorem ofString_injective : Function.Injective ofString := by
  intro s t same
  exact Option.some.inj ((extract_eq_some_iff.mpr rfl).symm.trans (extract_eq_some_iff.mpr same))

end PyStr

/-! ## Values -/

namespace PyValue

/-- One type and one value, where NaNs are one and the two zeros are not. -/
def Same : PyValue → PyValue → Prop
  | .int a, .int b => a = b
  | .float a, .float b => a = b ∨ (F64.isNan a = true ∧ F64.isNan b = true)
  | .bool a, .bool b => a = b
  | .str a, .str b => a = b
  | _, _ => False

/-- An integer has 64 bits. Others are stored as floats. -/
def InRange : PyValue → Prop
  | .int a => Fits64 a
  | _ => True

end PyValue

/-- Floats have one key when they have the same bits or are both NaN. The two
zeros have two. -/
theorem floatKey_eq_iff (a b : F64) : ParamValue.floatKey a = ParamValue.floatKey b ↔
    a = b ∨ (F64.isNan a = true ∧ F64.isNan b = true) := by
  have other {x : F64} (number : F64.isNan x = false) : x ≠ canonNan := by
    rintro rfl
    rw [F64.isNan_canonNan] at number
    cases number
  rw [ParamValue.floatKey, ParamValue.floatKey]
  cases left : F64.isNan a <;> cases right : F64.isNan b
  · simp
  · simp [other left, show a ≠ b from fun same => by rw [same, right] at left; cases left]
  · simp [(other right).symm, show a ≠ b from fun same => by rw [same, right] at left; cases left]
  · simp

/-- What is shown of two stored values is the same when the store takes them for
equal. -/
theorem paramvalueToPy_same_iff {a b : ParamValue} :
    (paramvalueToPy a).Same (paramvalueToPy b) ↔ a.canon = b.canon := by
  cases a <;> cases b <;>
    simp [paramvalueToPy, PyValue.Same, ParamValue.canon, floatKey_eq_iff, Int64.toInt_inj,
      PyStr.ofString_injective.eq_iff]

/-- A value that the store has a type for is shown as it was given, with its
type. -/
theorem paramvalueToPy_fromPy {v : PyValue} {a : ParamValue} (accepted : paramvalueFromPy v = .ok a)
    (inRange : v.InRange) : paramvalueToPy a = v := by
  cases v with
  | int n =>
    have fits : Fits64 n := inRange
    simp only [paramvalueFromPy, PyValue.isBool, PyValue.extractI64, if_pos fits] at accepted
    obtain rfl := Except.ok.inj accepted
    rw [paramvalueToPy, Int64.toInt_ofInt_of_le fits.1 fits.2]
  | float f =>
    obtain rfl := Except.ok.inj accepted
    rfl
  | bool b =>
    obtain rfl := Except.ok.inj accepted
    rfl
  | str s =>
    simp only [paramvalueFromPy, PyValue.isBool, PyValue.extractI64, PyValue.extractF64,
      PyValue.extractString] at accepted
    cases spelled : s.extract with
    | none => simp [spelled] at accepted
    | some t =>
      simp only [spelled] at accepted
      obtain rfl := Except.ok.inj accepted
      rw [paramvalueToPy, PyStr.extract_eq_some_iff.mp spelled]

/-- An integer of more bits is accepted as a float, if at all. So it is shown as
another value. -/
theorem fromPy_wide {n : Int} {a : ParamValue} (accepted : paramvalueFromPy (.int n) = .ok a)
    (wide : ¬ Fits64 n) : ∃ f, floatOfInt n = some f ∧ a = .float f := by
  simp only [paramvalueFromPy, PyValue.isBool, PyValue.extractI64, if_neg wide, PyValue.extractF64,
    PyValue.extractString] at accepted
  cases nearest : floatOfInt n with
  | none => simp [nearest] at accepted
  | some f =>
    simp only [nearest] at accepted
    exact ⟨f, rfl, (Except.ok.inj accepted).symm⟩

/-- What is shown of an accepted value, or of an equal one, is the value if it is
in range. -/
theorem shown_same_iff {v : PyValue} {a b : ParamValue} (accepted : paramvalueFromPy v = .ok a)
    (equal : b.canon = a.canon) : (paramvalueToPy b).Same v ↔ v.InRange := by
  constructor
  · intro same
    cases v with
    | int n =>
      by_contra wide
      obtain ⟨f, _, rfl⟩ := fromPy_wide accepted wide
      cases b with
      | float g => exact same
      | _ => cases equal
    | _ => trivial
  · intro inRange
    rw [← paramvalueToPy_fromPy accepted inRange]
    exact paramvalueToPy_same_iff.mpr equal

/-! ## Dictionaries -/

namespace PyDict

/-- The same keys, with the same values. The order of the entries does not
matter. -/
def Same (d d' : PyDict) : Prop := ∀ key, Option.Rel PyValue.Same (d.get? key) (d'.get? key)

/-- All integers of the dictionary have 64 bits. -/
def InRange (d : PyDict) : Prop := ∀ entry ∈ d.entries, entry.2.InRange

/-- Every key is spelled by a string. Other keys are refused. -/
def Spelled (d : PyDict) : Prop := ∀ entry ∈ d.entries, ∃ t, entry.1 = PyStr.ofString t

/-- A spelled dictionary has no key that is no text. -/
theorem Spelled.get?_none {d : PyDict} (spelled : d.Spelled) {key : PyStr}
    (unspelled : ∀ t, key ≠ .ofString t) : d.get? key = none := by
  rw [OrderedDict.get?_eq_none_iff]
  intro member
  obtain ⟨entry, listed, rfl⟩ := List.mem_map.mp member
  obtain ⟨t, same⟩ := spelled entry listed
  exact unspelled t same

/-- Only keys that are spelled by a string have to be compared, for there are no
others. -/
theorem Spelled.same_iff {d d' : PyDict} (spelled : d.Spelled) (spelled' : d'.Spelled) :
    d.Same d' ↔ ∀ t, Option.Rel PyValue.Same (d.get? (.ofString t)) (d'.get? (.ofString t)) := by
  refine ⟨fun same t => same _, fun same key => ?_⟩
  by_cases known : ∃ t, key = .ofString t
  · obtain ⟨t, rfl⟩ := known
    exact same t
  · have unspelled (t : String) : key ≠ .ofString t := fun this => known ⟨t, this⟩
    rw [spelled.get?_none unspelled, spelled'.get?_none unspelled]
    exact .none

end PyDict

/-- The store took the entry for the parameter, under the same name. -/
def EntryAccepted (entry : PyStr × PyValue) (param : String × ParamValue) : Prop :=
  entry.1 = .ofString param.1 ∧ paramvalueFromPy entry.2 = .ok param.2

/-- An entry is accepted when its key is a text and its value is accepted. -/
theorem entryFromPy_ok_iff {entry : PyStr × PyValue} {param : String × ParamValue} :
    entryFromPy entry = .ok param ↔ EntryAccepted entry param := by
  rw [entryFromPy, EntryAccepted, ← PyStr.extract_eq_some_iff]
  cases entry.1.extract with
  | none => simp
  | some key =>
    cases accepted : paramvalueFromPy entry.2 with
    | error e => simp [Except.map]
    | ok value =>
      obtain ⟨key', value'⟩ := param
      simp [Except.map]

/-- Looking a key up in the entries and in what was made of them finds the value
and what was made of it. -/
theorem accepted_lookup {entries : List (PyStr × PyValue)} {params : List (String × ParamValue)}
    (accepted : List.Forall₂ EntryAccepted entries params) (t : String) :
    Option.Rel (fun v a => paramvalueFromPy v = .ok a) (entries.lookup (.ofString t))
      (params.lookup t) := by
  induction accepted with
  | nil => exact .none
  | @cons entry param _ _ one _ ih =>
    rw [List.lookup_cons, List.lookup_cons, one.1,
      show (PyStr.ofString t == PyStr.ofString param.1) = (t == param.1) by
        rw [Bool.eq_iff_iff, beq_iff_eq, beq_iff_eq, PyStr.ofString_injective.eq_iff]]
    cases t == param.1
    · exact ih
    · exact .some one.2

/-- Accepted entries keep their keys. -/
theorem accepted_keys {entries : List (PyStr × PyValue)} {params : List (String × ParamValue)}
    (accepted : List.Forall₂ EntryAccepted entries params) :
    entries.map Prod.fst = params.map (fun param => .ofString param.1) := by
  rw [← List.forall₂_eq_eq_eq, List.forall₂_map_left_iff, List.forall₂_map_right_iff]
  exact accepted.imp (fun _ _ one => one.1)

/-- What an accepted dictionary and its parameter map have in common: the keys,
once each, and the values as they are stored. -/
structure Accepted (d : PyDict) (p : ParamMap) : Prop where
  spelled : d.Spelled
  distinct : (p.entries.map Prod.fst).Nodup
  values : ∀ t, Option.Rel (fun v a => paramvalueFromPy v = .ok a) (d.get? (.ofString t))
    (p.entries.lookup t)

/-- Accepted parameters are the entries of the dictionary, sorted. A dictionary
has each key once, so the map does too. -/
theorem paramsFromPy_accepted {d : PyDict} {p : ParamMap}
    (accepted : paramsFromPy (some d) = .ok p) : Accepted d p := by
  rw [paramsFromPy] at accepted
  cases read : d.entries.mapM entryFromPy with
  | error e =>
    rw [read] at accepted
    cases accepted
  | ok params =>
    rw [read] at accepted
    obtain rfl := Except.ok.inj accepted
    have pairs : List.Forall₂ EntryAccepted d.entries params :=
      (Enumerate.mapM_ok_iff.mp read).imp (fun _ _ one => entryFromPy_ok_iff.mp one)
    have keys := accepted_keys pairs
    have distinct : (params.map Prod.fst).Nodup := by
      have fresh := d.distinct
      rw [keys, ← Function.comp_def PyStr.ofString, ← List.map_map] at fresh
      exact fresh.of_map _
    have sorted : (ParamMap.new params).entries.Perm params := params.perm_insertionSort _
    refine ⟨?_, (sorted.map Prod.fst).nodup_iff.mpr distinct, ?_⟩
    · intro entry member
      have listed : entry.1 ∈ d.entries.map Prod.fst := List.mem_map_of_mem member
      rw [keys] at listed
      obtain ⟨param, _, same⟩ := List.mem_map.mp listed
      exact ⟨param.1, same.symm⟩
    · intro t
      rw [← KeySort.lookup_perm distinct sorted.symm]
      exact accepted_lookup pairs t

/-! ## Parameter maps -/

namespace ParamMap

/-- A normalized map holds the normalized values under the same keys. -/
theorem lookup_canon (p : ParamMap) (t : String) :
    p.canon.entries.lookup t = (p.entries.lookup t).map ParamValue.canon :=
  KeySort.lookup_map Function.injective_id ParamValue.canon p.entries t

/-- Normalizing a map keeps its keys in their order. -/
theorem keys_canon (p : ParamMap) : p.canon.entries.map Prod.fst = p.entries.map Prod.fst := by
  rw [canon, List.map_map]
  rfl

/-- Maps of distinct keys are equal when every lookup finds equal values. The
order has been fixed by sorting. -/
theorem canon_eq_iff_lookup {p q : ParamMap} (distinct : (p.entries.map Prod.fst).Nodup)
    (distinct' : (q.entries.map Prod.fst).Nodup) : p.canon = q.canon ↔
      ∀ t, (p.entries.lookup t).map ParamValue.canon = (q.entries.lookup t).map ParamValue.canon := by
  simp only [← lookup_canon]
  constructor
  · intro same t
    rw [same]
  · intro same
    rw [← keys_canon] at distinct distinct'
    have sorts := (KeySort.sort_eq_iff Prod.fst distinct).mpr
      (KeySort.perm_of_lookup distinct distinct' same)
    rw [← new_entries p.canon, ← new_entries q.canon]
    exact ext sorts

end ParamMap

/-- A map with distinct keys is shown entry by entry. -/
theorem paramsToPy_entries {p : ParamMap} (distinct : (p.entries.map Prod.fst).Nodup) :
    (paramsToPy p).entries =
      p.entries.map (fun entry => (.ofString entry.1, paramvalueToPy entry.2)) := by
  have keys : ((p.entries.map (fun entry =>
      (PyStr.ofString entry.1, paramvalueToPy entry.2))).map Prod.fst).Nodup := by
    rw [List.map_map, show (Prod.fst ∘ fun entry : String × ParamValue =>
      (PyStr.ofString entry.1, paramvalueToPy entry.2)) = PyStr.ofString ∘ Prod.fst from rfl,
      ← List.map_map]
    exact distinct.map PyStr.ofString_injective
  have set := OrderedDict.set_all (d := (.empty : PyDict)) keys
  rw [List.foldl_map] at set
  exact set

/-- A map is shown with the values it holds. -/
theorem get?_paramsToPy {p : ParamMap} (distinct : (p.entries.map Prod.fst).Nodup) (t : String) :
    (paramsToPy p).get? (.ofString t) = (p.entries.lookup t).map paramvalueToPy := by
  rw [OrderedDict.get?, paramsToPy_entries distinct,
    KeySort.lookup_map PyStr.ofString_injective paramvalueToPy]

/-- The keys of a shown map are texts. -/
theorem spelled_paramsToPy {p : ParamMap} (distinct : (p.entries.map Prod.fst).Nodup) :
    (paramsToPy p).Spelled := by
  intro entry member
  rw [paramsToPy_entries distinct] at member
  obtain ⟨param, _, rfl⟩ := List.mem_map.mp member
  exact ⟨param.1, rfl⟩

namespace Accepted

variable {d d' : PyDict} {p p' q : ParamMap}

/-- A key has no value on both sides, or a value and what it was taken for. -/
theorem found (accepted : Accepted d p) (t : String) :
    (d.get? (.ofString t) = none ∧ p.entries.lookup t = none) ∨
      ∃ v a, d.get? (.ofString t) = some v ∧ p.entries.lookup t = some a ∧
        paramvalueFromPy v = .ok a := by
  have read := accepted.values t
  cases given : d.get? (.ofString t) with
  | none =>
    rw [given] at read
    exact Or.inl ⟨rfl, by cases kept : p.entries.lookup t <;> simp_all⟩
  | some v =>
    cases kept : p.entries.lookup t with
    | none => simp_all
    | some a =>
      rw [given, kept, Option.rel_some_some] at read
      exact Or.inr ⟨v, a, rfl, rfl, read⟩

/-- A dictionary is in range when each of its values is, and all its keys are
texts already. -/
theorem inRange_iff (accepted : Accepted d p) : d.InRange ↔
    ∀ t v, d.get? (.ofString t) = some v → v.InRange := by
  constructor
  · intro inRange t v found
    exact inRange _ ((KeySort.lookup_eq_some_iff d.distinct).mp found)
  · intro each entry member
    obtain ⟨t, spelled⟩ := accepted.spelled entry member
    refine each t entry.2 ((KeySort.lookup_eq_some_iff d.distinct).mpr ?_)
    rw [← spelled]
    exact member

/-- A map equal to the stored one is shown as the dictionary was if that is in
range. -/
theorem shown_iff (accepted : Accepted d p) (distinct : (q.entries.map Prod.fst).Nodup)
    (equal : q.canon = p.canon) : (paramsToPy q).Same d ↔ d.InRange := by
  rw [(spelled_paramsToPy distinct).same_iff accepted.spelled, accepted.inRange_iff]
  refine forall_congr' (fun t => ?_)
  have stored := (ParamMap.canon_eq_iff_lookup distinct accepted.distinct).mp equal t
  rw [get?_paramsToPy distinct]
  rcases accepted.found t with ⟨given, kept⟩ | ⟨v, a, given, kept, taken⟩
  · rw [kept] at stored
    rw [given, Option.map_eq_none_iff.mp stored]
    simp
  · rw [kept] at stored
    obtain ⟨b, found, equal⟩ := Option.map_eq_some_iff.mp stored
    rw [given, found]
    simpa using shown_same_iff taken equal

/-- What is shown of parameters that were accepted within range is the dictionary
they were made of. -/
theorem get?_eq (accepted : Accepted d p) (inRange : d.InRange) (t : String) :
    d.get? (.ofString t) = (p.entries.lookup t).map paramvalueToPy := by
  rcases accepted.found t with ⟨given, kept⟩ | ⟨v, a, given, kept, taken⟩
  · rw [given, kept]
    rfl
  · have within := accepted.inRange_iff.mp inRange t v given
    rw [given, kept, Option.map_some, paramvalueToPy_fromPy taken within]

/-- Dictionaries in range are the same when the store takes their maps for
equal. -/
theorem same_iff (accepted : Accepted d p) (accepted' : Accepted d' p') (inRange : d.InRange)
    (inRange' : d'.InRange) : d.Same d' ↔ p.canon = p'.canon := by
  rw [accepted.spelled.same_iff accepted'.spelled,
    ParamMap.canon_eq_iff_lookup accepted.distinct accepted'.distinct]
  refine forall_congr' (fun t => ?_)
  rw [accepted.get?_eq inRange, accepted'.get?_eq inRange']
  cases p.entries.lookup t <;> cases p'.entries.lookup t <;> simp [paramvalueToPy_same_iff]

end Accepted

/-! ## Stores -/

/-- The tokens of its members, if it is a stage, can be read. Fusion writes no
others. -/
def NodeKey.Decodes : NodeKey → Prop
  | .stage _ members => ∀ op ∈ members, (parseOpToken op.token).isSome
  | _ => True

/-- Every node of the store can be shown, so that `nodes()` does not raise. -/
def GraphStore.Decodes (store : GraphStore) : Prop := ∀ key ∈ store.nodes, key.Decodes

namespace PyGraphStore

/-- A member can be shown exactly when its token parses. -/
theorem memberView_ok_iff (op : StageOp) :
    (∃ view, memberView op = .ok view) ↔ (parseOpToken op.token).isSome := by
  rw [memberView]
  cases parseOpToken op.token with
  | none => simp
  | some parts => simp

/-- A node can be shown exactly when its members can. -/
theorem nodeView_ok_iff (outputs : List NodeId) (id : NodeId) (key : NodeKey) :
    (∃ view, nodeView outputs id key = .ok view) ↔ key.Decodes := by
  cases key with
  | stage inputs members =>
    rw [NodeKey.Decodes, ← forall₂_congr (fun op _ => memberView_ok_iff op),
      ← Enumerate.mapM_ok_exists_iff]
    cases shown : members.mapM memberView <;> simp [nodeView, shown, Except.map]
  | _ => exact ⟨fun _ => trivial, fun _ => ⟨_, rfl⟩⟩

/-- The nodes can be shown when every stage member can. One that cannot fails the
whole call. -/
theorem nodes_ok_iff (store : GraphStore) : (∃ views, nodes store = .ok views) ↔ store.Decodes := by
  rw [nodes, Enumerate.mapM_ok_exists_iff, GraphStore.Decodes]
  constructor
  · intro each key member
    obtain ⟨id, inside, rfl⟩ := List.getElem_of_mem member
    exact (nodeView_ok_iff _ _ _).mp (each (store.nodes[id], id)
      (List.mem_zipIdx_iff_getElem?.mpr (List.getElem?_eq_getElem inside)))
  · intro each entry member
    exact (nodeView_ok_iff _ _ _).mpr
      (each entry.1 (List.mem_of_getElem? (List.mem_zipIdx_iff_getElem?.mp member)))

/-- A view is at the id of its node. -/
theorem nodes_getElem? {store : GraphStore} {views : List NodeView}
    (shown : nodes store = .ok views) {id : NodeId} {key : NodeKey}
    (stored : store.nodes[id]? = some key) :
    ∃ view, views[id]? = some view ∧ nodeView store.outputs id key = .ok view := by
  obtain ⟨lengths, each⟩ := List.forall₂_iff_get.mp (Enumerate.mapM_ok_iff.mp shown)
  obtain ⟨inside, rfl⟩ := List.getElem?_eq_some_iff.mp stored
  have listed : id < store.nodes.zipIdx.length := by rwa [List.length_zipIdx]
  have did := each id listed (lengths ▸ listed)
  simp only [List.get_eq_getElem, List.getElem_zipIdx, Nat.zero_add] at did
  exact ⟨_, List.getElem?_eq_getElem (lengths ▸ listed), did⟩

end PyGraphStore

/-- Exposed calls record no stages, and so nothing that cannot be shown. -/
theorem decodes_run {store : GraphStore} {calls : List Call}
    (exposed : ∀ call ∈ calls, call.IsExposed) :
    (Call.run store calls).Decodes ↔ store.Decodes := by
  constructor
  · intro decodes key member
    exact decodes key ((Call.extends_run store calls).nodes.subset member)
  · intro decodes key member
    rcases Call.mem_run_nodes member with old | ⟨call, listed, asks⟩
    · exact decodes key old
    · cases call with
      | addKey key => exact absurd (exposed _ listed) id
      | markOutput id => cases asks
      | _ =>
        obtain rfl := Option.some.inj asks
        trivial

/-- An op is recorded by an exposed call. -/
theorem exposed_addOp (name : String) (inputs : List NodeId) (p : ParamMap) :
    ∀ call ∈ [Call.addOp name inputs p], call.IsExposed := by
  simp [Call.IsExposed]

namespace PyGraphStore

/-- The dictionary is among the views, as the parameters of the node. -/
def Shows (views : List NodeView) (id : NodeId) (d : PyDict) : Prop :=
  ∃ view, views[id]? = some view ∧ view.params.Same d

/-- What a call that answered an id found or left in the store: its op over the
same inputs, with equal parameters. -/
structure Recorded (store : GraphStore) (id : NodeId) (name : String) (inputs : List NodeId)
    (d : PyDict) (p q : ParamMap) : Prop where
  accepted : Accepted d p
  equal : q.canon = p.canon
  stored : store.nodes[id]? = some (.op name q inputs)

namespace Recorded

variable {store : GraphStore} {id id' : NodeId} {name : String} {inputs : List NodeId}
  {d d' : PyDict} {p p' q q' : ParamMap}

/-- What is recorded has distinct keys. -/
theorem distinct (recorded : Recorded store id name inputs d p q) :
    (q.entries.map Prod.fst).Nodup := by
  rw [← q.keys_canon, recorded.equal, p.keys_canon]
  exact recorded.accepted.distinct

/-- What is recorded stays where it is. -/
theorem later {after : GraphStore} (recorded : Recorded store id name inputs d p q)
    (grown : store.Extends after) : Recorded after id name inputs d p q :=
  ⟨recorded.accepted, recorded.equal, grown.lookup recorded.stored⟩

/-- Two recorded ops of one name over the same inputs have one id exactly when
their parameters are equal. -/
theorem id_eq_iff (interned : store.Interned) (recorded : Recorded store id name inputs d p q)
    (recorded' : Recorded store id' name inputs d' p' q') : id = id' ↔ p.canon = p'.canon := by
  rw [← recorded.equal, ← recorded'.equal]
  constructor
  · rintro rfl
    have same := Option.some.inj (recorded.stored.symm.trans recorded'.stored)
    rw [NodeKey.op.injEq] at same
    rw [same.2.1]
  · intro same
    refine interned.injective recorded.stored recorded'.stored ((NodeKey.eq_iff _ _).mpr ?_)
    rw [NodeKey.canon, NodeKey.canon, same]

/-- A recorded op is shown with the very dictionary exactly when the dictionary is
in range. -/
theorem shows_iff {views : List NodeView} (recorded : Recorded store id name inputs d p q)
    (shown : nodes store = .ok views) : Shows views id d ↔ d.InRange := by
  obtain ⟨view, placed, viewed⟩ := nodes_getElem? shown recorded.stored
  have params : view.params = paramsToPy q := by
    obtain rfl := Except.ok.inj viewed
    rfl
  rw [← recorded.accepted.shown_iff recorded.distinct recorded.equal, ← params]
  constructor
  · rintro ⟨view', placed', same⟩
    obtain rfl := Option.some.inj (placed.symm.trans placed')
    exact same
  · intro same
    exact ⟨view, placed, same⟩

end Recorded

/-- A key over equal parameters is stored under the id that interning an op
answers. -/
theorem intern_op {store after : GraphStore} (interned : store.Interned) {name : String}
    {inputs : List NodeId} {p : ParamMap} {id : NodeId}
    (did : store.intern (.op name p inputs) = (.ok id, after)) :
    ∃ q, q.canon = p.canon ∧ after.nodes[id]? = some (.op name q inputs) := by
  rcases store.intern_cases (.op name p inputs) with
    ⟨_, _, _, refused⟩ | ⟨_, ⟨id', hit, found⟩ | ⟨_, fresh⟩⟩
  · cases did.symm.trans refused
  · obtain ⟨rfl, rfl⟩ : id = id' ∧ after = store := by simpa using did.symm.trans found
    obtain ⟨stored, present, equal⟩ := (interned.found _ id).mp hit
    have canon := (NodeKey.eq_iff _ _).mp equal
    cases stored with
    | op name' q inputs' =>
      obtain ⟨rfl, same, rfl⟩ : name' = name ∧ q.canon = p.canon ∧ inputs' = inputs := by
        simpa [NodeKey.canon] using canon
      exact ⟨q, same, present⟩
    | _ => cases canon
  · obtain ⟨rfl, rfl⟩ : id = store.nodes.length ∧ after = store.push (.op name p inputs) := by
      simpa using did.symm.trans fresh
    exact ⟨p, rfl, by simp [GraphStore.push]⟩

/-- A call that is answered an id recorded what it was given. -/
theorem addOp_recorded {store after : GraphStore} (interned : store.Interned) {name : String}
    {inputs : List NodeId} {d : PyDict} {id : NodeId}
    (added : addOp store name inputs (some d) = (.ok id, after)) :
    ∃ p q, after = Call.run store [.addOp name inputs p] ∧
      Recorded after id name inputs d p q := by
  rw [addOp] at added
  cases read : paramsFromPy (some d) with
  | error e => simp [read] at added
  | ok p =>
    have did : store.addOp name inputs p = (.ok id, after) := by
      cases result : store.addOp name inputs p with
      | mk answer after' =>
        cases answer <;> simp_all
    obtain ⟨q, equal, stored⟩ := intern_op interned did
    refine ⟨p, q, ?_, paramsFromPy_accepted read, equal, stored⟩
    exact (congrArg (fun result => (Call.answerNode result).2) did).symm

/-- Two calls that were answered, as they are seen after later calls: their ids
and their views say whether they were the same. -/
theorem recorded_iff {store : GraphStore} (interned : store.Interned) {later : List Call}
    (exposed : ∀ call ∈ later, call.IsExposed) {name : String} {inputs : List NodeId}
    {d d' : PyDict} {id id' : NodeId} {p p' q q' : ParamMap}
    (recorded : Recorded store id name inputs d p q)
    (recorded' : Recorded store id' name inputs d' p' q') :
    ((id = id' ↔ d.Same d') ∧ ∃ views, nodes (Call.run store later) = .ok views ∧
      Shows views id d ∧ Shows views id' d') ↔ d.InRange ∧ d'.InRange ∧ store.Decodes := by
  have kept := recorded.later (Call.extends_run store later)
  have kept' := recorded'.later (Call.extends_run store later)
  rw [recorded.id_eq_iff interned recorded', ← decodes_run exposed, ← nodes_ok_iff]
  constructor
  · rintro ⟨_, views, shown, left, right⟩
    exact ⟨(kept.shows_iff shown).mp left, (kept'.shows_iff shown).mp right, views, shown⟩
  · rintro ⟨inRange, inRange', views, shown⟩
    exact ⟨(recorded.accepted.same_iff recorded'.accepted inRange inRange').symm, views, shown,
      (kept.shows_iff shown).mpr inRange, (kept'.shows_iff shown).mpr inRange'⟩

/-- Two calls for one name over the same inputs, at any two moments of the life of
a store: the ids tell the dictionaries apart and the nodes show them as they were
given exactly when every integer in them has 64 bits and, for the nodes to be
shown at all, the stages of the store can be decoded. -/
theorem params_identity_iff {requests : List Request} {store first second : GraphStore}
    (reached : store ∈ (Session.run requests).stores) {between later : List Call}
    (exposed : ∀ call ∈ between, call.IsExposed) (exposed' : ∀ call ∈ later, call.IsExposed)
    {name : String} {inputs : List NodeId} {d d' : PyDict} {id id' : NodeId}
    (adds : addOp store name inputs (some d) = (.ok id, first))
    (adds' : addOp (Call.run first between) name inputs (some d') = (.ok id', second)) :
    ((id = id' ↔ d.Same d') ∧ ∃ views, nodes (Call.run second later) = .ok views ∧
      Shows views id d ∧ Shows views id' d') ↔ d.InRange ∧ d'.InRange ∧ store.Decodes := by
  have interned := ((Session.settled_run requests).stores store reached).interned
  obtain ⟨p, q, rfl, recorded⟩ := addOp_recorded interned adds
  have kept := Call.interned_run (Call.interned_run interned [.addOp name inputs p]) between
  obtain ⟨p', q', rfl, recorded'⟩ := addOp_recorded kept adds'
  have still := recorded.later ((Call.extends_run _ between).trans
    (Call.extends_run _ [.addOp name inputs p']))
  have seen := recorded_iff (Call.interned_run kept _) exposed' still recorded'
  rwa [decodes_run (exposed_addOp _ _ _), decodes_run exposed, decodes_run (exposed_addOp _ _ _)]
    at seen

/-- A store of one source, for an op to read. -/
def sourceStore : GraphStore := Call.run .new [.addSource "e" (.new [])]

/-- The first integer that has no place in 64 bits, and the float that is nearest
to it. -/
def wideDict : PyDict := ⟨[(.ofString "v", .int 0x8000000000000000)], by decide⟩

/-- A float that an int out of range is converted to. -/
def floatDict : PyDict := ⟨[(.ofString "v", .float 0x43e0000000000000)], by decide⟩

/-- The largest int that fits, and a bool. Neither is taken for the other type. -/
def mixedDict : PyDict :=
  ⟨[(.ofString "w", .int 0x7fffffffffffffff), (.ofString "v", .bool true)], by decide⟩

/-- The same entries in another order, which is no other dictionary. -/
def shuffledDict : PyDict :=
  ⟨[(.ofString "v", .bool true), (.ofString "w", .int 0x7fffffffffffffff)], by decide⟩

/-- A session holds the store. -/
theorem sourceStore_reached : sourceStore ∈
    (Session.run [.newStore, .call 0 (.addSource "e" (.new [])) trivial]).stores := by
  exact List.mem_singleton.mpr rfl

/-- Two dictionaries in different orders are one op, and each is shown. -/
theorem params_identity_iff_of_mixed :
    (((1 : NodeId) = 1 ↔ mixedDict.Same shuffledDict) ∧ ∃ views,
      nodes (Call.run (addOp (addOp sourceStore "k" [0] (some mixedDict)).2 "k" [0]
        (some shuffledDict)).2 []) = .ok views ∧ Shows views 1 mixedDict ∧
        Shows views 1 shuffledDict) ↔
      mixedDict.InRange ∧ shuffledDict.InRange ∧ sourceStore.Decodes :=
  @params_identity_iff [.newStore, .call 0 (.addSource "e" (.new [])) trivial] sourceStore
    (addOp sourceStore "k" [0] (some mixedDict)).2
    (addOp (addOp sourceStore "k" [0] (some mixedDict)).2 "k" [0] (some shuffledDict)).2
    sourceStore_reached [] [] (by simp) (by simp) "k" [0] mixedDict shuffledDict 1 1
    (by decide +kernel) (by decide +kernel)

/-- An integer of 65 bits is the float that is nearest to it, and is shown as that
float. -/
theorem wide_params_merge :
    sourceStore ∈ (Session.run [.newStore, .call 0 (.addSource "e" (.new [])) trivial]).stores ∧
    (addOp sourceStore "k" [0] (some wideDict)).1 = .ok 1 ∧
    (addOp (addOp sourceStore "k" [0] (some wideDict)).2 "k" [0] (some floatDict)).1 = .ok 1 ∧
    ¬ wideDict.Same floatDict ∧
    ∃ views, nodes (addOp sourceStore "k" [0] (some wideDict)).2 = .ok views ∧
      views[1]?.map NodeView.params = some floatDict ∧ ¬ Shows views 1 wideDict := by
  have differ : ¬ Option.Rel PyValue.Same (wideDict.get? (.ofString "v"))
      (floatDict.get? (.ofString "v")) := by
    rintro ⟨same⟩
    exact same
  have differ' : ¬ Option.Rel PyValue.Same (floatDict.get? (.ofString "v"))
      (wideDict.get? (.ofString "v")) := by
    rintro ⟨same⟩
    exact same
  refine ⟨sourceStore_reached, by decide +kernel, by decide +kernel, fun same => differ (same _),
    _, rfl, rfl, ?_⟩
  rintro ⟨view, placed, same⟩
  obtain rfl := Option.some.inj placed
  exact differ' (same _)

end PyGraphStore

end GraphedCore
