import GraphedCore.Identity

/-!
# Recording calls

Each of the four recording methods reads its arguments before it touches the store. A
descriptor is an object of the extension or a dictionary, and only six fields of it are read.
What a call recorded is told apart by its kind, its name or descriptor, its inputs and its
dictionary, and is shown so, whatever is recorded in between or later.
-/

namespace GraphedCore

open Dag GraphStore

/-! ## Descriptors -/

/-- What is offered as a descriptor. In a dictionary, the value of a field may be
`None`. -/
inductive PyDescriptor where
  | object (inner : PayloadDescriptor)
  | dict (fields : OrderedDict PyStr (Option PyValue))
  | other

/-- A field of a descriptor as a text. The text of a failed extraction is the
library's. -/
def extractField : Option PyValue → Except PyErr String
  | some (.str a) =>
    match a.extract with
    | some s => .ok s
    | none => .error .unicodeEncodeError
  | _ => .error (.typeError "not a str")

/-- A field that a descriptor must have. A missing one is named in the error. -/
def requiredField (fields : OrderedDict PyStr (Option PyValue)) (key : String) :
    Except PyErr String :=
  match fields.get? (.ofString key) with
  | some v => extractField v
  | none => .error (.valueError s!"descriptor missing required field '{key}'")

/-- A field that may be absent. `None` is the same as no field. -/
def optionalField (fields : OrderedDict PyStr (Option PyValue)) (key : String) :
    Except PyErr (Option String) :=
  match (fields.get? (.ofString key)).join with
  | some v => (extractField (some v)).map some
  | none => .ok none

/-- A descriptor is an object of the class or a dictionary of its fields. The
optional field is read first, and then the others in the order of the record, so
that the first failing one in this order decides the error. -/
def descriptorFromPy : PyDescriptor → Except PyErr PayloadDescriptor
  | .object inner => .ok inner
  | .dict fields =>
    (optionalField fields "preprocessing_ref").bind (fun preprocessingRef =>
      (requiredField fields "kind").bind (fun kind =>
        (requiredField fields "content_hash").bind (fun contentHash =>
          (requiredField fields "framework").bind (fun framework =>
            (requiredField fields "version").bind (fun version =>
              (requiredField fields "io_schema").map (fun ioSchema =>
                { kind, contentHash, framework, version, ioSchema, preprocessingRef }))))))
  | .other => .error (.typeError "descriptor must be a PayloadDescriptor or dict")

/-- The fields of a descriptor, in the order in which they are shown and read. -/
def PayloadDescriptor.items (d : PayloadDescriptor) : List (String × Option String) :=
  [("kind", some d.kind), ("content_hash", some d.contentHash), ("framework", some d.framework),
    ("version", some d.version), ("io_schema", some d.ioSchema),
    ("preprocessing_ref", d.preprocessingRef)]

/-- A descriptor as a dictionary, set field by field. An absent preprocessing is
shown as `None`. -/
def descriptorToPy (d : PayloadDescriptor) : OrderedDict PyStr (Option PyValue) :=
  (d.items.map (fun item =>
    (PyStr.ofString item.1, item.2.map (fun s => PyValue.str (.ofString s))))).foldl
      (fun dict entry => dict.set entry.1 entry.2) .empty

namespace PyDescriptor

/-- The fields of a descriptor as a dictionary shows them, for an object and for a
dictionary of the caller. -/
def fields : PyDescriptor → OrderedDict PyStr (Option PyValue)
  | .object inner => descriptorToPy inner
  | .dict fields => fields
  | .other => .empty

/-- The value of a field, where `None` is the same as no field. -/
def value (d : PyDescriptor) (key : String) : Option PyValue :=
  (d.fields.get? (.ofString key)).join

/-- The fields that are read. Others in the dictionary of a caller are ignored. -/
def fieldNames : List String :=
  ["kind", "content_hash", "framework", "version", "io_schema", "preprocessing_ref"]

/-- The fields that are read have the same values in both. -/
def Same (d d' : PyDescriptor) : Prop := ∀ key ∈ fieldNames, d.value key = d'.value key

/-- What a descriptor states in its dictionary: each of its fields, and nothing
for an absent one. -/
def States (d : PyDescriptor) (a : PayloadDescriptor) : Prop :=
  ∀ item ∈ a.items, d.value item.1 = item.2.map (fun s => .str (.ofString s))

end PyDescriptor

/-- A field that is extracted is a str of the very text. -/
theorem extractField_ok_iff {v : Option PyValue} {s : String} :
    extractField v = .ok s ↔ v = some (.str (.ofString s)) := by
  rw [extractField.eq_def]
  split
  · rename_i a
    rw [Option.some.injEq, PyValue.str.injEq, ← PyStr.extract_eq_some_iff]
    cases a.extract with
    | none => simp
    | some t => simp
  · rename_i other
    constructor
    · intro read
      cases read
    · intro spelled
      exact absurd spelled (other _)

/-- A required field is read when the dictionary has it, as a str of the very
text. -/
theorem requiredField_ok_iff {fields : OrderedDict PyStr (Option PyValue)} {key s : String} :
    requiredField fields key = .ok s ↔
      (fields.get? (.ofString key)).join = some (.str (.ofString s)) := by
  rw [requiredField]
  cases fields.get? (.ofString key) with
  | none => simp
  | some v => exact extractField_ok_iff

/-- An optional field is absent when the dictionary lacks it or holds None. -/
theorem optionalField_ok_iff {fields : OrderedDict PyStr (Option PyValue)} {key : String}
    {s : Option String} : optionalField fields key = .ok s ↔
      (fields.get? (.ofString key)).join = s.map (fun t => .str (.ofString t)) := by
  rw [optionalField]
  cases (fields.get? (.ofString key)).join with
  | none => cases s <;> simp
  | some v =>
    have read (t : String) := @extractField_ok_iff (some v) t
    cases given : extractField (some v) with
    | error e =>
      simp only [given, reduceCtorEq, false_iff] at read
      cases s with
      | none => simp [given, Except.map]
      | some t => simpa [given, Except.map] using read t
    | ok t =>
      obtain rfl : v = .str (.ofString t) := Option.some.inj ((read t).mp given)
      cases s <;> simp [given, Except.map, PyStr.ofString_injective.eq_iff]

/-- A dictionary is taken for the descriptor whose fields it states. -/
theorem descriptorFromPy_dict_iff {fields : OrderedDict PyStr (Option PyValue)}
    {a : PayloadDescriptor} :
    descriptorFromPy (.dict fields) = .ok a ↔ (PyDescriptor.dict fields).States a := by
  have bound {α β : Type} {first : Except PyErr α} {next : α → Except PyErr β} {result : β} :
      first.bind next = .ok result ↔ ∃ read, first = .ok read ∧ next read = .ok result := by
    cases first <;> simp [Except.bind]
  have mapped {α β : Type} {first : Except PyErr α} {wrap : α → β} {result : β} :
      first.map wrap = .ok result ↔ ∃ read, first = .ok read ∧ wrap read = result := by
    cases first <;> simp [Except.map]
  simp only [descriptorFromPy, bound, mapped, requiredField_ok_iff, optionalField_ok_iff]
  simp only [PyDescriptor.States, PayloadDescriptor.items, List.forall_mem_cons,
    List.not_mem_nil, IsEmpty.forall_iff, implies_true, and_true, PyDescriptor.value,
    PyDescriptor.fields, Option.map_some]
  constructor
  · rintro ⟨reference, optional, kind, first, hash, second, framework, third, version, fourth,
      schema, fifth, rfl⟩
    exact ⟨first, second, third, fourth, fifth, optional⟩
  · rintro ⟨first, second, third, fourth, fifth, optional⟩
    exact ⟨_, optional, _, first, _, second, _, third, _, fourth, _, fifth, rfl⟩

/-- The dictionary of a descriptor lists its fields in the order of the record. -/
theorem descriptorToPy_entries (d : PayloadDescriptor) :
    (descriptorToPy d).entries =
      d.items.map (fun item => (.ofString item.1, item.2.map (fun s => .str (.ofString s)))) := by
  have names : (d.items.map Prod.fst).Nodup := by simp [PayloadDescriptor.items]
  have keys : ((d.items.map (fun item =>
      (PyStr.ofString item.1, item.2.map (fun s => PyValue.str (.ofString s))))).map
        Prod.fst).Nodup := by
    rw [List.map_map]
    have distinct := names.map PyStr.ofString_injective
    rwa [List.map_map] at distinct
  exact OrderedDict.set_all keys

/-- A descriptor is read back from what is shown of it. -/
theorem descriptorFromPy_toPy (d : PayloadDescriptor) :
    descriptorFromPy (.dict (descriptorToPy d)) = .ok d := by
  rw [descriptorFromPy_dict_iff]
  intro item listed
  have found : (descriptorToPy d).get? (.ofString item.1) =
      some (item.2.map (fun s => .str (.ofString s))) := by
    rw [OrderedDict.get?, KeySort.lookup_eq_some_iff (descriptorToPy d).distinct,
      descriptorToPy_entries]
    exact List.mem_map_of_mem listed
  rw [PyDescriptor.value, PyDescriptor.fields, found, Option.join_some]

/-- What was accepted as a descriptor states so. -/
theorem descriptorFromPy_states {d : PyDescriptor} {a : PayloadDescriptor}
    (accepted : descriptorFromPy d = .ok a) : d.States a := by
  cases d with
  | object inner =>
    obtain rfl := Except.ok.inj accepted
    exact descriptorFromPy_dict_iff.mp (descriptorFromPy_toPy inner)
  | dict fields => exact descriptorFromPy_dict_iff.mp accepted
  | other => cases accepted

/-- Descriptors are equal when all that is read of them is. -/
theorem descriptors_same_iff {d d' : PyDescriptor} {a a' : PayloadDescriptor} (stated : d.States a)
    (stated' : d'.States a') : d.Same d' ↔ a = a' := by
  have spelled (s t : Option String) : s.map (fun u => PyValue.str (.ofString u)) =
      t.map (fun u => PyValue.str (.ofString u)) ↔ s = t := by
    have injective : Function.Injective (fun u => PyValue.str (.ofString u)) :=
      fun u v same => PyStr.ofString_injective (PyValue.str.inj same)
    exact (Option.map_injective injective).eq_iff
  simp only [PyDescriptor.States, PayloadDescriptor.items, List.forall_mem_cons,
    List.not_mem_nil, IsEmpty.forall_iff, implies_true, and_true] at stated stated'
  simp only [PyDescriptor.Same, PyDescriptor.fieldNames, List.forall_mem_cons,
    List.not_mem_nil, IsEmpty.forall_iff, implies_true, and_true, stated, stated', spelled]
  cases a
  cases a'
  simp

/-! ## The four methods -/

namespace PyGraphStore

/-- What the store answered, as Python is told: an id, or an error with the bad
id. -/
def answered : Except BadNodeId NodeId × GraphStore → Except PyErr NodeId × GraphStore
  | (.ok id, store) => (.ok id, store)
  | (.error bad, store) => (.error (mapErr bad), store)

/-- `add_source` of the bindings: the parameters are converted before the store is
asked. -/
def addSource (store : GraphStore) (name : String) (params : Option PyDict) :
    Except PyErr NodeId × GraphStore :=
  match paramsFromPy params with
  | .error e => (.error e, store)
  | .ok p => answered (store.addSource name p)

/-- `add_reduction` of the bindings. Parameters that are refused leave the store
as it was. -/
def addReduction (store : GraphStore) (name : String) (inputs : List NodeId)
    (params : Option PyDict) : Except PyErr NodeId × GraphStore :=
  match paramsFromPy params with
  | .error e => (.error e, store)
  | .ok p => answered (store.addReduction name inputs p)

/-- `add_external` of the bindings: the descriptor is read first, then the
parameters. -/
def addExternal (store : GraphStore) (descriptor : PyDescriptor) (inputs : List NodeId)
    (params : Option PyDict) : Except PyErr NodeId × GraphStore :=
  match descriptorFromPy descriptor with
  | .error e => (.error e, store)
  | .ok d =>
    match paramsFromPy params with
    | .error e => (.error e, store)
    | .ok p => answered (store.addExternal d inputs p)

end PyGraphStore

/-- A call of one of the four methods, with its arguments as Python gives them. -/
inductive PyCall where
  | addSource (name : String) (params : Option PyDict)
  | addOp (name : String) (inputs : List NodeId) (params : Option PyDict)
  | addReduction (name : String) (inputs : List NodeId) (params : Option PyDict)
  | addExternal (descriptor : PyDescriptor) (inputs : List NodeId) (params : Option PyDict)

namespace PyCall

/-- The call on the store, with what it answers. Arguments are converted before
the store is touched. -/
def perform (store : GraphStore) : PyCall → Except PyErr NodeId × GraphStore
  | .addSource name params => PyGraphStore.addSource store name params
  | .addOp name inputs params => PyGraphStore.addOp store name inputs params
  | .addReduction name inputs params => PyGraphStore.addReduction store name inputs params
  | .addExternal descriptor inputs params =>
    PyGraphStore.addExternal store descriptor inputs params

/-- The dictionary of a call; without one it is empty. -/
def params : PyCall → PyDict
  | .addSource _ params | .addOp _ _ params | .addReduction _ _ params
  | .addExternal _ _ params => params.getD .empty

/-- The same method with the same arguments, as far as they are read. -/
def Same : PyCall → PyCall → Prop
  | .addSource name p, .addSource name' p' =>
    name = name' ∧ PyDict.Same (p.getD .empty) (p'.getD .empty)
  | .addOp name inputs p, .addOp name' inputs' p' =>
    name = name' ∧ inputs = inputs' ∧ PyDict.Same (p.getD .empty) (p'.getD .empty)
  | .addReduction name inputs p, .addReduction name' inputs' p' =>
    name = name' ∧ inputs = inputs' ∧ PyDict.Same (p.getD .empty) (p'.getD .empty)
  | .addExternal d inputs p, .addExternal d' inputs' p' =>
    d.Same d' ∧ inputs = inputs' ∧ PyDict.Same (p.getD .empty) (p'.getD .empty)
  | _, _ => False

/-- The view shows the call: the kind, the name, the inputs and the parameters
that it was made with. -/
def ShownBy (call : PyCall) (view : NodeView) : Prop :=
  view.params.Same call.params ∧
    match call with
    | .addSource name _ => view.kind = "source" ∧ view.name = name ∧ view.inputs = []
    | .addOp name inputs _ => view.kind = "op" ∧ view.name = name ∧ view.inputs = inputs
    | .addReduction name inputs _ =>
      view.kind = "reduction" ∧ view.name = name ∧ view.inputs = inputs
    | .addExternal d inputs _ => view.kind = "external" ∧ view.inputs = inputs ∧
      ∃ a, view.descriptor = some a ∧ d.Same (.dict (descriptorToPy a))

/-- The key that a call asks to intern, if its arguments are accepted. -/
def key : PyCall → Except PyErr NodeKey
  | .addSource name params => (paramsFromPy params).map (NodeKey.source name)
  | .addOp name inputs params => (paramsFromPy params).map (fun p => .op name p inputs)
  | .addReduction name inputs params =>
    (paramsFromPy params).map (fun p => .reduction name p inputs)
  | .addExternal descriptor inputs params =>
    (descriptorFromPy descriptor).bind (fun d =>
      (paramsFromPy params).map (fun p => .external d p inputs))

/-- A call either fails before the store is asked, and leaves it alone, or interns
the key that it asks for. -/
theorem perform_eq (store : GraphStore) (call : PyCall) : call.perform store =
    match call.key with
    | .ok key => PyGraphStore.answered (store.intern key)
    | .error e => (.error e, store) := by
  cases call with
  | addSource name params =>
    rw [perform, PyGraphStore.addSource, key]
    cases paramsFromPy params <;> rfl
  | addOp name inputs params =>
    rw [perform, PyGraphStore.addOp, key]
    cases paramsFromPy params with
    | error e => rfl
    | ok p =>
      have asks : store.addOp name inputs p = store.intern (.op name p inputs) := rfl
      simp only [asks, Except.map]
      cases store.intern (.op name p inputs) with
      | mk answer after => cases answer <;> rfl
  | addReduction name inputs params =>
    rw [perform, PyGraphStore.addReduction, key]
    cases paramsFromPy params <;> rfl
  | addExternal descriptor inputs params =>
    rw [perform, PyGraphStore.addExternal, key]
    cases descriptorFromPy descriptor with
    | error e => rfl
    | ok d => cases paramsFromPy params <;> rfl

/-- An answered call interned its key. -/
theorem perform_ok {store after : GraphStore} {call : PyCall} {id : NodeId}
    (did : call.perform store = (.ok id, after)) :
    ∃ key, call.key = .ok key ∧ store.intern key = (.ok id, after) := by
  rw [perform_eq] at did
  cases asked : call.key with
  | error e => simp [asked] at did
  | ok key =>
    simp only [asked] at did
    cases answer : store.intern key with
    | mk outcome later =>
      cases outcome with
      | error bad => simp [answer, PyGraphStore.answered] at did
      | ok id' =>
        rw [answer, PyGraphStore.answered, Prod.mk.injEq, Except.ok.injEq] at did
        exact ⟨key, rfl, by rw [answer, did.1, did.2]⟩

/-- No dictionary counts as an empty one. -/
theorem paramsFromPy_given {params : Option PyDict} {wrap : ParamMap → NodeKey} {key : NodeKey}
    (accepted : (paramsFromPy params).map wrap = .ok key) :
    ∃ p, Accepted (params.getD .empty) p ∧ key = wrap p := by
  cases read : paramsFromPy params with
  | error e => simp [read, Except.map] at accepted
  | ok p =>
    rw [read] at accepted
    have same : paramsFromPy (some (params.getD .empty)) = .ok p := by
      cases params <;> exact read
    exact ⟨p, paramsFromPy_accepted same, (Except.ok.inj accepted).symm⟩

/-- What an accepted call asks to intern, by the method that was called. -/
inductive Asks : PyCall → NodeKey → Prop
  | addSource {name : String} {params : Option PyDict} {p : ParamMap} :
      Accepted (params.getD .empty) p → Asks (.addSource name params) (.source name p)
  | addOp {name : String} {inputs : List NodeId} {params : Option PyDict} {p : ParamMap} :
      Accepted (params.getD .empty) p → Asks (.addOp name inputs params) (.op name p inputs)
  | addReduction {name : String} {inputs : List NodeId} {params : Option PyDict} {p : ParamMap} :
      Accepted (params.getD .empty) p →
        Asks (.addReduction name inputs params) (.reduction name p inputs)
  | addExternal {descriptor : PyDescriptor} {d : PayloadDescriptor} {inputs : List NodeId}
      {params : Option PyDict} {p : ParamMap} : descriptor.States d →
        Accepted (params.getD .empty) p →
          Asks (.addExternal descriptor inputs params) (.external d p inputs)

/-- The key of an accepted call says what the call asked for, kind by kind. -/
theorem key_asks {call : PyCall} {key : NodeKey} (accepted : call.key = .ok key) :
    call.Asks key := by
  cases call with
  | addSource name params =>
    obtain ⟨p, given, rfl⟩ := paramsFromPy_given accepted
    exact .addSource given
  | addOp name inputs params =>
    obtain ⟨p, given, rfl⟩ := paramsFromPy_given accepted
    exact .addOp given
  | addReduction name inputs params =>
    obtain ⟨p, given, rfl⟩ := paramsFromPy_given accepted
    exact .addReduction given
  | addExternal descriptor inputs params =>
    rw [PyCall.key] at accepted
    cases told : descriptorFromPy descriptor with
    | error e => simp [told, Except.bind] at accepted
    | ok d =>
      rw [told] at accepted
      obtain ⟨p, given, rfl⟩ := paramsFromPy_given accepted
      exact .addExternal (descriptorFromPy_states told) given

/-- Accepted calls ask for equal keys when they are the same. -/
theorem Asks.same_iff {call call' : PyCall} {key key' : NodeKey} (asks : call.Asks key)
    (asks' : call'.Asks key') (inRange : call.params.InRange) (inRange' : call'.params.InRange) :
    call.Same call' ↔ key.canon = key'.canon := by
  cases asks with
  | addSource accepted =>
    cases asks' <;> simp only [Same, NodeKey.canon, NodeKey.source.injEq, reduceCtorEq]
    rename_i accepted'
    rw [accepted.same_iff accepted' inRange inRange']
  | addOp accepted =>
    cases asks' <;> simp only [Same, NodeKey.canon, NodeKey.op.injEq, reduceCtorEq]
    rename_i accepted'
    rw [accepted.same_iff accepted' inRange inRange']
    tauto
  | addReduction accepted =>
    cases asks' <;> simp only [Same, NodeKey.canon, NodeKey.reduction.injEq, reduceCtorEq]
    rename_i accepted'
    rw [accepted.same_iff accepted' inRange inRange']
    tauto
  | addExternal stated accepted =>
    cases asks' <;> simp only [Same, NodeKey.canon, NodeKey.external.injEq, reduceCtorEq]
    rename_i stated' accepted'
    rw [accepted.same_iff accepted' inRange inRange', descriptors_same_iff stated stated']
    tauto

/-- A node whose key equals the one that is asked for shows the call. -/
theorem Asks.shown {call : PyCall} {key stored : NodeKey} (asks : call.Asks key)
    (inRange : call.params.InRange) (equal : stored.canon = key.canon) {outputs : List NodeId}
    {id : NodeId} {view : NodeView}
    (shown : PyGraphStore.nodeView outputs id stored = .ok view) : call.ShownBy view := by
  -- the stored parameters have the keys of the dictionary, so they are shown as it was given
  have params {d : PyDict} {p q : ParamMap} (accepted : Accepted d p) (inRange : d.InRange)
      (same : q.canon = p.canon) : (paramsToPy q).Same d := by
    have distinct : (q.entries.map Prod.fst).Nodup := by
      rw [← q.keys_canon, same, p.keys_canon]
      exact accepted.distinct
    exact (accepted.shown_iff distinct same).mpr inRange
  cases asks with
  | addSource accepted =>
    cases stored <;> simp only [NodeKey.canon, reduceCtorEq, NodeKey.source.injEq] at equal
    obtain rfl := Except.ok.inj shown
    exact ⟨params accepted inRange equal.2, rfl, equal.1, rfl⟩
  | addOp accepted =>
    cases stored <;> simp only [NodeKey.canon, reduceCtorEq, NodeKey.op.injEq] at equal
    obtain rfl := Except.ok.inj shown
    exact ⟨params accepted inRange equal.2.1, rfl, equal.1, equal.2.2⟩
  | addReduction accepted =>
    cases stored <;> simp only [NodeKey.canon, reduceCtorEq, NodeKey.reduction.injEq] at equal
    obtain rfl := Except.ok.inj shown
    exact ⟨params accepted inRange equal.2.1, rfl, equal.1, equal.2.2⟩
  | addExternal stated accepted =>
    cases stored <;> simp only [NodeKey.canon, reduceCtorEq, NodeKey.external.injEq] at equal
    obtain rfl := Except.ok.inj shown
    obtain ⟨rfl, same, inputs⟩ := equal
    have shows := descriptorFromPy_states (descriptorFromPy_toPy ‹PayloadDescriptor›)
    exact ⟨params accepted inRange same, rfl, inputs, _, rfl,
      (descriptors_same_iff stated shows).mpr rfl⟩

end PyCall

/-- An interned key is stored, up to equality, under the id that is answered. -/
theorem GraphStore.Interned.answered {store after : GraphStore} (interned : store.Interned)
    {key : NodeKey} {id : NodeId} (did : store.intern key = (.ok id, after)) :
    ∃ stored, after.nodes[id]? = some stored ∧ stored.canon = key.canon := by
  rcases store.intern_cases key with ⟨_, _, _, refused⟩ | ⟨_, ⟨id', hit, found⟩ | ⟨_, fresh⟩⟩
  · cases did.symm.trans refused
  · obtain ⟨rfl, rfl⟩ : id = id' ∧ after = store := by simpa using did.symm.trans found
    obtain ⟨stored, present, equal⟩ := (interned.found _ id).mp hit
    exact ⟨stored, present, (NodeKey.eq_iff _ _).mp equal⟩
  · obtain ⟨rfl, rfl⟩ : id = store.nodes.length ∧ after = store.push key := by
      simpa using did.symm.trans fresh
    exact ⟨key, by simp [GraphStore.push], rfl⟩

/-- Two calls at any moments of the life of a store are answered one id when they
are the same call, and whatever is recorded later, each is shown at its id as it
was made. -/
theorem calls_told_apart {requests : List Request} {store first second : GraphStore}
    (reached : store ∈ (Session.run requests).stores) (between later : List Call)
    {call call' : PyCall} {id id' : NodeId} (did : call.perform store = (.ok id, first))
    (did' : call'.perform (Call.run first between) = (.ok id', second))
    (inRange : call.params.InRange) (inRange' : call'.params.InRange) :
    (id = id' ↔ call.Same call') ∧
      ∀ views, PyGraphStore.nodes (Call.run second later) = .ok views →
        (∃ view, views[id]? = some view ∧ call.ShownBy view) ∧
          ∃ view, views[id']? = some view ∧ call'.ShownBy view := by
  obtain ⟨key, accepted, interns⟩ := PyCall.perform_ok did
  obtain ⟨key', accepted', interns'⟩ := PyCall.perform_ok did'
  have asks := PyCall.key_asks accepted
  have asks' := PyCall.key_asks accepted'
  have interned := ((Session.settled_run requests).stores store reached).interned
  obtain ⟨stored, present, equal⟩ := interned.answered interns
  have kept : first.Interned := by
    have after := interned.intern key
    rwa [interns] at after
  have middle := Call.interned_run kept between
  obtain ⟨stored', present', equal'⟩ := middle.answered interns'
  have kept' : second.Interned := by
    have after := middle.intern key'
    rwa [interns'] at after
  have grows : (Call.run first between).Extends second := by
    have after := extends_intern (Call.run first between) key'
    rwa [interns'] at after
  have still : second.nodes[id]? = some stored :=
    ((Call.extends_run first between).trans grows).lookup present
  constructor
  · rw [asks.same_iff asks' inRange inRange', ← equal, ← equal']
    constructor
    · rintro rfl
      rw [Option.some.inj (still.symm.trans present')]
    · intro same
      exact kept'.injective still present' ((NodeKey.eq_iff _ _).mpr same)
  · intro views shown
    have grown := Call.extends_run second later
    obtain ⟨view, placed, viewed⟩ := PyGraphStore.nodes_getElem? shown (grown.lookup still)
    obtain ⟨view', placed', viewed'⟩ := PyGraphStore.nodes_getElem? shown (grown.lookup present')
    exact ⟨⟨view, placed, asks.shown inRange equal viewed⟩,
      view', placed', asks'.shown inRange' equal' viewed'⟩

/-- A payload, and a dictionary that says the same of it, with a field that is not
read. -/
def payload : PayloadDescriptor where
  kind := "onnx"
  contentHash := "sha256:1f"
  framework := "onnx"
  version := "1"
  ioSchema := "x->y"
  preprocessingRef := none

/-- A payload as a dictionary in an order of its own, with a field that no
descriptor has and None for the optional one. -/
def payloadDict : PyDescriptor :=
  .dict ⟨[(.ofString "preprocessing_ref", none), (.ofString "size", some (.int 3)),
    (.ofString "io_schema", some (.str (.ofString "x->y"))),
    (.ofString "version", some (.str (.ofString "1"))),
    (.ofString "framework", some (.str (.ofString "onnx"))),
    (.ofString "content_hash", some (.str (.ofString "sha256:1f"))),
    (.ofString "kind", some (.str (.ofString "onnx")))], by decide⟩

/-- A payload on the first node, given as a dictionary. -/
def payloadCall : PyCall := .addExternal payloadDict [0] none

/-- The same payload given as an object of the descriptor class. -/
def payloadCall' : PyCall := .addExternal (.object payload) [0] (some .empty)

/-- The dictionary and the object are recorded as one node, and shown as both
asked for. -/
theorem calls_told_apart_of_payload :
    ((1 : NodeId) = 1 ↔ payloadCall.Same payloadCall') ∧
      ∀ views, PyGraphStore.nodes (Call.run (payloadCall'.perform (payloadCall.perform
          PyGraphStore.sourceStore).2).2 []) = .ok views →
        (∃ view, views[1]? = some view ∧ payloadCall.ShownBy view) ∧
          ∃ view, views[1]? = some view ∧ payloadCall'.ShownBy view := by
  have plain : ∀ entry ∈ (OrderedDict.empty : PyDict).entries, entry.2.InRange := by
    simp [OrderedDict.empty]
  exact @calls_told_apart [.newStore, .call 0 (.addSource "e" (.new [])) trivial]
    PyGraphStore.sourceStore (payloadCall.perform PyGraphStore.sourceStore).2
    (payloadCall'.perform (payloadCall.perform PyGraphStore.sourceStore).2).2
    PyGraphStore.sourceStore_reached [] [] payloadCall payloadCall' 1 1 (by decide +kernel)
    (by decide +kernel) plain plain

end GraphedCore
