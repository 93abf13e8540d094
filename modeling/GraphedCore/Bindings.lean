import GraphedCore.Interning
import GraphedCore.OpTokens
import GraphedCore.Lib.OrderedDict

/-!
# Values of Python

A `str` is a sequence of code points, surrogates among them; an `int` has no bounds. A
parameter is offered to the four extractions one after another, and the first that takes it
decides its type. The bindings turn a dictionary into a parameter map on the way in, and a
parameter map into a dictionary on the way out.
-/

namespace GraphedCore

/-- A string of Python is a sequence of code points, surrogates among them. Not
every such string is one of the program. -/
structure PyStr where
  codePoints : List (Fin 0x110000)
deriving DecidableEq

namespace PyStr

/-- `None` for a surrogate, which has no UTF-8 encoding. All other code points are
characters. -/
def char? (c : Fin 0x110000) : Option Char :=
  if c.val.isValidChar then some (Char.ofNat c.val) else none

/-- `extract::<String>()`: the text, or nothing when a code point is a surrogate,
which no text of the program holds. -/
def extract (s : PyStr) : Option String := (s.codePoints.mapM char?).map String.ofList

/-- Every character is a code point of Python. -/
theorem codePoint_lt (c : Char) : c.toNat < 0x110000 := by
  have valid := c.valid
  simp only [UInt32.isValidChar, Nat.isValidChar] at valid
  simp only [Char.toNat]
  omega

/-- A character as a code point, which is how Python keeps it. -/
def codePoint (c : Char) : Fin 0x110000 := ⟨c.toNat, codePoint_lt c⟩

/-- A text of the program, as Python sees it. Reading it back is
`extract_ofString`. -/
def ofString (s : String) : PyStr := ⟨s.toList.map codePoint⟩

end PyStr

/-- A value of a dictionary of parameters, before its type is looked at. Integers
have any size there. -/
inductive PyValue where
  | int (a : Int)
  | float (a : F64)
  | bool (a : Bool)
  | str (a : PyStr)
deriving DecidableEq

/-- A dictionary of Python: distinct keys in the order in which they were first
set. -/
abbrev PyDict := OrderedDict PyStr PyValue

/-- What the bindings raise. An unparseable stage member is a `ValueError` that
shows the token. -/
inductive PyErr where
  | typeError (message : String)
  | valueError (message : String)
  | unparseableMember (token : String)
  | unicodeEncodeError
deriving DecidableEq

/-! ## Conversions of the library -/

/-- Divide by a power of two and round half to even, as Python rounds an integer
to a float. -/
def roundShift (n shift : Nat) : Nat :=
  let low := n % (1 <<< shift)
  let high := n >>> shift
  if 1 <<< shift < 2 * low ∨ (1 <<< shift = 2 * low ∧ high % 2 = 1) then high + 1 else high

/-- The nearest float. `none` models the error of an integer that is too large for
one. -/
def floatOfInt (a : Int) : Option F64 :=
  let magnitude := a.natAbs
  if magnitude = 0 then some 0
  else
    let exponent := magnitude.log2
    let fraction :=
      if exponent ≤ 52 then magnitude <<< (52 - exponent) else roundShift magnitude (exponent - 52)
    let bits := (exponent + 1022) <<< 52 + fraction
    if 0x7ff0000000000000 ≤ bits then none
    else some (UInt64.ofNat (if a < 0 then 0x8000000000000000 + bits else bits))

/-- The integers of 64 bits. Others come through as floats, when they are in
range. -/
def Fits64 (a : Int) : Prop := -0x8000000000000000 ≤ a ∧ a < 0x8000000000000000

instance (a : Int) : Decidable (Fits64 a) := inferInstanceAs (Decidable (_ ∧ _))

namespace PyValue

/-- `bool` is a subclass of `int`, and `float` takes integers of both. So it has
to be looked for first. -/
def isBool : PyValue → Bool
  | .bool _ => true
  | _ => false

/-- `extract::<bool>()`, which takes nothing but a bool. -/
def extractBool : PyValue → Option Bool
  | .bool a => some a
  | _ => none

/-- `extract::<i64>()`: an int that fits, or a bool, which is an int of Python. -/
def extractI64 : PyValue → Option Int64
  | .int a => if Fits64 a then some (Int64.ofInt a) else none
  | .bool a => some (if a then 1 else 0)
  | _ => none

/-- `extract::<f64>()`: a float, or what a number of another type is converted to.
An integer may lose digits, or be out of range. -/
def extractF64 : PyValue → Option F64
  | .float a => some a
  | .int a => floatOfInt a
  | .bool a => some (if a then 0x3ff0000000000000 else 0)
  | .str _ => none

/-- `extract::<String>()` of a value, which fails where the text holds a
surrogate. -/
def extractString : PyValue → Option String
  | .str a => a.extract
  | _ => none

end PyValue

example : floatOfInt 0x20000000000003 = some 0x4340000000000002 := by decide +kernel

example : floatOfInt (-3) = some 0xc008000000000000 := by decide +kernel

/-! ## The bindings -/

/-- The types are tried in the order of the source, bool first, since a bool is an
int too. What is no bool, int, float or str is refused. -/
def paramvalueFromPy (v : PyValue) : Except PyErr ParamValue :=
  if v.isBool then
    match v.extractBool with
    | some a => .ok (.bool a)
    | none => .error (.typeError "not a bool")
  else
    match v.extractI64 with
    | some i => .ok (.int i)
    | none =>
      match v.extractF64 with
      | some f => .ok (.float f)
      | none =>
        match v.extractString with
        | some s => .ok (.str s)
        | none => .error (.typeError "param values must be int, float, bool, or str")

/-- One entry of a dictionary: the key is extracted before the value is looked at,
so its failure comes first. -/
def entryFromPy (entry : PyStr × PyValue) : Except PyErr (String × ParamValue) :=
  match entry.1.extract with
  | some key => (paramvalueFromPy entry.2).map (fun value => (key, value))
  | none => .error .unicodeEncodeError

/-- The parameters of a call; without a dictionary there are none. The first entry
that fails decides the error. -/
def paramsFromPy (obj : Option PyDict) : Except PyErr ParamMap :=
  match obj with
  | none => .ok (.new [])
  | some dict => (dict.entries.mapM entryFromPy).map ParamMap.new

/-- A parameter as a value of Python. Each type of the core has one of Python. -/
def paramvalueToPy : ParamValue → PyValue
  | .int a => .int a.toInt
  | .float a => .float a
  | .bool a => .bool a
  | .str a => .str (.ofString a)

/-- Parameters as a dictionary, set key by key in their sorted order. Of several
entries of one key the last value is seen. -/
def paramsToPy (params : ParamMap) : PyDict :=
  params.entries.foldl
    (fun dict entry => dict.set (.ofString entry.1) (paramvalueToPy entry.2)) .empty

/-- A fused op of a stage as it is shown: its token parsed, and its references. -/
structure MemberView where
  kind : String
  name : String
  params : PyDict
  inputs : List StageRef

/-- A node as it is shown. Only an external node has a descriptor, and only a
stage members. -/
structure NodeView where
  id : NodeId
  output : Bool
  inputs : List NodeId
  kind : String
  name : String
  params : PyDict
  descriptor : Option PayloadDescriptor := none
  members : Option (List MemberView) := none

namespace PyGraphStore

/-- The error that a caller in Python sees for an id out of range, with the text
that names the id. -/
def mapErr (e : BadNodeId) : PyErr := .valueError s!"no node with id {e.id}"

/-- `add_op` of the bindings: the parameters are converted before the store is
asked. -/
def addOp (store : GraphStore) (name : String) (inputs : List NodeId) (params : Option PyDict) :
    Except PyErr NodeId × GraphStore :=
  match paramsFromPy params with
  | .error e => (.error e, store)
  | .ok p =>
    match store.addOp name inputs p with
    | (.ok id, store) => (.ok id, store)
    | (.error bad, store) => (.error (mapErr bad), store)

/-- A stage member as it is shown: its kind, name and parameters are read out of
its token. A token of no op is refused. -/
def memberView (op : StageOp) : Except PyErr MemberView :=
  match parseOpToken op.token with
  | some (kind, name, params) => .ok ⟨kind, name, paramsToPy params, op.inputs⟩
  | none => .error (.unparseableMember op.token)

/-- A node as `nodes()` shows it, kind by kind. Only a stage can fail to be shown,
when a token of a member cannot be parsed. -/
def nodeView (outputs : List NodeId) (id : NodeId) (key : NodeKey) : Except PyErr NodeView :=
  let output := decide (id ∈ outputs)
  match key with
  | .source name params =>
    .ok ⟨id, output, key.inputs, "source", name, paramsToPy params, none, none⟩
  | .op name params _ => .ok ⟨id, output, key.inputs, "op", name, paramsToPy params, none, none⟩
  | .reduction name params _ =>
    .ok ⟨id, output, key.inputs, "reduction", name, paramsToPy params, none, none⟩
  | .external d params _ =>
    .ok ⟨id, output, key.inputs, "external", "", paramsToPy params, some d, none⟩
  | .stage _ members =>
    (members.mapM memberView).map
      (fun views => ⟨id, output, key.inputs, "stage", "", .empty, none, some views⟩)

/-- All nodes in the order of their ids. One that cannot be shown fails the
call. -/
def nodes (store : GraphStore) : Except PyErr (List NodeView) :=
  store.nodes.zipIdx.mapM (fun entry => nodeView store.outputs entry.2 entry.1)

end PyGraphStore

end GraphedCore
