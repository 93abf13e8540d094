import GraphedCore.EqualBytes
import GraphedCore.Lib.Dag
import GraphedCore.Lib.KeySort
import GraphedCore.Lib.Numeral
import GraphedCore.Lib.Separated

/-!
# The drawing of a store

A store is drawn as text: a line for every node in the order of the ids, then a line for every
input in the order of the nodes that read it. A label may hold any text, line breaks and what
looks like an edge among it, and only its quotes and backslashes are escaped. The drawing tells
the labels, the inputs and the marks all the same.
-/

namespace GraphedCore

open Separated Numeral Dag

/-- How the standard library prints a float, and a string for a programmer to
read. The drawing relies on nothing else of it. -/
structure Formats where
  float : F64 → String
  debug : String → String

section Labels

variable (formats : Formats)

/-- A parameter as it is printed in a label. A text is printed as it is for a
programmer, in quotes. -/
def ParamValue.display : ParamValue → String
  | .int a => a.toInt.repr
  | .float a => formats.float a
  | .bool a => if a then "true" else "false"
  | .str a => formats.debug a

/-- Parameters as they are printed in a label, in their sorted order and between
braces. -/
def ParamMap.display (p : ParamMap) : String :=
  "\x7b" ++
    ", ".intercalate (p.entries.map (fun entry => entry.1 ++ "=" ++ entry.2.display formats)) ++
    "\x7d"

/-- The kind and the name of a node, and its parameters when there are any. -/
def fmtLabel (kind name : String) (params : ParamMap) : String :=
  if params.isEmpty then kind ++ " " ++ name
  else kind ++ " " ++ name ++ " " ++ params.display formats

/-- The label of a node, kind by kind. Of a stage it tells the number of its
members only. -/
def NodeKey.label : NodeKey → String
  | .source name params => fmtLabel formats "Source" name params
  | .op name params _ => fmtLabel formats "Op" name params
  | .reduction name params _ => fmtLabel formats "Reduction" name params
  | .external d params _ =>
    let base := "External " ++ d.kind ++ ":" ++ d.contentHash ++ " [" ++ d.framework ++ " " ++
      d.version ++ "]"
    if params.isEmpty then base else base ++ " " ++ params.display formats
  | .stage _ members => "Stage[" ++ members.length.repr ++ " members]"

end Labels

/-- Backslashes first, then quotes. So a backslash before a quote is told from an
escaped quote. -/
def escape (s : String) : List Char :=
  replaceChar '"' ['\\', '"'] (replaceChar '\\' ['\\', '\\'] s.toList)

/-- The line of a node, with another shape for an output. The label is escaped and
stands between quotes. -/
def nodeLine (id : NodeId) (marked : Bool) (label : String) : List Char :=
  "  n".toList ++ id.repr.toList ++ " [label=\"".toList ++ escape label ++ "\"".toList ++
    (if marked then ", shape=doublecircle".toList else []) ++ "];\n".toList

/-- The line of one input of a node, from the input to the node. -/
def edgeLine (src id : NodeId) : List Char :=
  "  n".toList ++ src.repr.toList ++ " -> n".toList ++ id.repr.toList ++ ";\n".toList

/-- Nodes in the order of their ids, edges in the order of the nodes and their
inputs. -/
def GraphStore.toDot (formats : Formats) (store : GraphStore) : String :=
  String.ofList ("digraph graphed \x7b\n".toList ++
    store.nodes.zipIdx.flatMap (fun entry =>
      nodeLine entry.2 (decide (entry.2 ∈ store.outputs)) (entry.1.label formats)) ++
    store.nodes.zipIdx.flatMap (fun entry =>
      entry.1.inputs.flatMap (fun src => edgeLine src entry.2)) ++
    "\x7d\n".toList)

/-! ## Reading a line -/

/-- The escape of one character. Escaping a label is the same as escaping its
characters one by one. -/
def labelChar (c : Char) : List Char :=
  if c = '\\' then ['\\', '\\'] else if c = '"' then ['\\', '"'] else [c]

/-- Escaping is done character by character. -/
theorem escape_eq (s : String) : escape s = s.toList.flatMap labelChar := by
  simp only [escape, replaceChar, List.flatMap_assoc]
  congr 1
  funext c
  by_cases backslash : c = '\\'
  · simp [backslash, labelChar]
  by_cases quote : c = '"'
  · simp [quote, labelChar]
  · simp [labelChar, backslash, quote]

/-- No escaped character is the beginning of another, so a label is read back from
its escaped form. -/
theorem labelChar_prefixFree : PrefixFree labelChar where
  nonempty c := by
    unfold labelChar
    repeat' split
    all_goals simp
  recover c d rest rest' same := by
    unfold labelChar at same
    repeat' split at same
    all_goals simp_all [eq_comm]

/-- An escaped character never begins with a quotation mark, which ends a
label. -/
theorem labelChar_head (c : Char) : '"' ∉ (labelChar c).head? := by
  unfold labelChar
  repeat' split
  all_goals simp_all [eq_comm]

/-- An id in front of a blank. -/
theorem id_inj {m n : Nat} {rest rest' : List Char}
    (same : m.repr.toList ++ ' ' :: rest = n.repr.toList ++ ' ' :: rest') :
    m = n ∧ rest = rest' := by
  have free (k : Nat) : ' ' ∉ k.repr.toList :=
    fun member => absurd (nat_repr_digit member) (by decide)
  obtain ⟨ids, rests⟩ := split_inj ' ' (free m) (free n) same
  exact ⟨nat_repr_inj (String.toList_injective ids), rests⟩

/-- The line of a node in pieces, each of which ends where the next one begins. -/
theorem nodeLine_append (id : NodeId) (marked : Bool) (label : String) (rest : List Char) :
    nodeLine id marked label ++ rest = "  n".toList ++ (id.repr.toList ++ ' ' ::
      ("[label=\"".toList ++ (label.toList.flatMap labelChar ++ '"' ::
        ((if marked then ", shape=doublecircle".toList else []) ++ ("];\n".toList ++ rest))))) := by
  simp only [nodeLine, escape_eq, List.append_assoc]
  rfl

/-- The line of an edge in pieces. -/
theorem edgeLine_append (src id : NodeId) (rest : List Char) :
    edgeLine src id ++ rest = "  n".toList ++ (src.repr.toList ++ ' ' ::
      ("-> n".toList ++ (id.repr.toList ++ ';' :: ("\n".toList ++ rest)))) := by
  simp only [edgeLine, List.append_assoc]
  rfl

/-- The line of a node tells its id, its mark and its label, whatever follows
it. -/
theorem nodeLine_inj {id id' : NodeId} {marked marked' : Bool} {label label' : String}
    {rest rest' : List Char}
    (same : nodeLine id marked label ++ rest = nodeLine id' marked' label' ++ rest') :
    id = id' ∧ marked = marked' ∧ label = label' := by
  rw [nodeLine_append, nodeLine_append] at same
  obtain ⟨ids, tails⟩ := id_inj (List.append_cancel_left same)
  obtain ⟨labels, marks⟩ :=
    terminated_inj labelChar_prefixFree labelChar_head (List.append_cancel_left tails)
  refine ⟨ids, ?_, String.toList_injective labels⟩
  cases marked with
  | false =>
    cases marked' with
    | false => rfl
    | true => exact absurd (List.cons.inj marks).1 (by decide)
  | true =>
    cases marked' with
    | false => exact absurd (List.cons.inj marks).1 (by decide)
    | true => rfl

/-- The line of an edge tells both of its ends. -/
theorem edgeLine_inj {src src' id id' : NodeId} {rest rest' : List Char}
    (same : edgeLine src id ++ rest = edgeLine src' id' ++ rest') : src = src' ∧ id = id' := by
  have free (k : Nat) : ';' ∉ k.repr.toList :=
    fun member => absurd (nat_repr_digit member) (by decide)
  rw [edgeLine_append, edgeLine_append] at same
  obtain ⟨sources, tails⟩ := id_inj (List.append_cancel_left same)
  obtain ⟨ids, _⟩ := split_inj ';' (free id) (free id') (List.append_cancel_left tails)
  exact ⟨sources, nat_repr_inj (String.toList_injective ids)⟩

/-- What comes after the first id tells the two kinds of lines apart. -/
theorem nodeLine_ne_edgeLine {id src id' : NodeId} {marked : Bool} {label : String}
    {rest rest' : List Char} : nodeLine id marked label ++ rest ≠ edgeLine src id' ++ rest' := by
  intro same
  rw [nodeLine_append, edgeLine_append] at same
  obtain ⟨_, tails⟩ := id_inj (List.append_cancel_left same)
  exact absurd (List.cons.inj tails).1 (by decide)

/-- A line of a drawing: a node, or an edge for one input. -/
inductive DotLine where
  | node (id : NodeId) (marked : Bool) (label : String)
  | edge (src id : NodeId)

namespace DotLine

/-- The characters of a line, its end included. -/
def text : DotLine → List Char
  | .node id marked label => nodeLine id marked label
  | .edge src id => edgeLine src id

/-- The node that a line draws, if it draws one. -/
def node? : DotLine → Option (NodeId × Bool × String)
  | .node id marked label => some (id, marked, label)
  | .edge _ _ => none

/-- The edge that a line draws, if it draws one. -/
def edge? : DotLine → Option (NodeId × NodeId)
  | .node _ _ _ => none
  | .edge src id => some (src, id)

/-- Every line is indented, which tells the last line from the others. -/
theorem text_head (line : DotLine) : line.text.head? = some ' ' := by
  cases line <;> rfl

/-- No line is the beginning of another. A node and an edge differ after the id,
and two of one kind are told apart piece by piece. -/
theorem text_prefixFree : PrefixFree text where
  nonempty line := by
    intro empty
    have head := line.text_head
    rw [empty] at head
    cases head
  recover line line' rest rest' same := by
    cases line with
    | node id marked label =>
      cases line' with
      | node id' marked' label' =>
        obtain ⟨rfl, rfl, rfl⟩ := nodeLine_inj same
        rfl
      | edge src id' => exact absurd same nodeLine_ne_edgeLine
    | edge src id =>
      cases line' with
      | node id' marked' label' => exact absurd same.symm nodeLine_ne_edgeLine
      | edge src' id' =>
        obtain ⟨rfl, rfl⟩ := edgeLine_inj same
        rfl

end DotLine

/-! ## Reading a drawing -/

/-- The edges into every node, with the nodes numbered from `start`. They come in
the order of the inputs. -/
def edgesFrom (start : Nat) (reads : List (List NodeId)) : List (NodeId × NodeId) :=
  (reads.zipIdx start).flatMap (fun entry => entry.1.map (fun src => (src, entry.2)))

/-- The edges into a node come before those into later ones. -/
theorem edgesFrom_cons (start : Nat) (ids : List NodeId) (rest : List (List NodeId)) :
    edgesFrom start (ids :: rest) =
      ids.map (fun src => (src, start)) ++ edgesFrom (start + 1) rest :=
  rfl

/-- Edges from a position on end at later nodes. -/
theorem edgesFrom_target {start : Nat} {reads : List (List NodeId)} {edge : NodeId × NodeId}
    (member : edge ∈ edgesFrom start reads) : start ≤ edge.2 := by
  induction reads generalizing start with
  | nil => cases member
  | cons ids rest ih =>
    rw [edgesFrom_cons, List.mem_append, List.mem_map] at member
    rcases member with ⟨_, _, rfl⟩ | later
    · exact le_rfl
    · exact (Nat.le_succ start).trans (ih later)

/-- The edges tell what every node reads, in order. -/
theorem edgesFrom_inj {start : Nat} {reads reads' : List (List NodeId)}
    (length : reads.length = reads'.length)
    (same : edgesFrom start reads = edgesFrom start reads') : reads = reads' := by
  induction reads generalizing start reads' with
  | nil => exact (List.length_eq_zero_iff.mp length.symm).symm
  | cons ids rest ih =>
    cases reads' with
    | nil => cases length
    | cons ids' rest' =>
      have into (ids : List NodeId) (rest : List (List NodeId)) :
          ((edgesFrom start (ids :: rest)).filter (fun edge => edge.2 == start)).map Prod.fst =
              ids ∧
            (edgesFrom start (ids :: rest)).filter (fun edge => edge.2 != start) =
              edgesFrom (start + 1) rest := by
        have later {edge : NodeId × NodeId} (member : edge ∈ edgesFrom (start + 1) rest) :
            edge.2 ≠ start := Nat.ne_of_gt (edgesFrom_target member)
        constructor
        · rw [edgesFrom_cons, List.filter_append, List.filter_eq_self.mpr (by simp),
            List.filter_eq_nil_iff.mpr (fun edge member => by simpa using later member)]
          simp [Function.comp_def]
        · rw [edgesFrom_cons, List.filter_append, List.filter_eq_nil_iff.mpr (by simp),
            List.filter_eq_self.mpr (fun edge member => by simpa using later member),
            List.nil_append]
      obtain ⟨first, others⟩ := into ids rest
      obtain ⟨first', others'⟩ := into ids' rest'
      rw [same] at first others
      rw [← first.symm.trans first', ih (Nat.succ_injective length) (others.symm.trans others')]

section Drawings

variable (formats : Formats) (store store' : GraphStore)

/-- What the lines of the nodes show: id, mark and label, in the order of the
ids. -/
def GraphStore.dotNodes : List (NodeId × Bool × String) :=
  store.nodes.zipIdx.map (fun entry =>
    (entry.2, decide (entry.2 ∈ store.outputs), entry.1.label formats))

/-- The lines of a drawing: all nodes, and after them all edges. -/
def GraphStore.dotLines : List DotLine :=
  (store.dotNodes formats).map (fun entry => DotLine.node entry.1 entry.2.1 entry.2.2) ++
    (edgesFrom 0 (store.nodes.map NodeKey.inputs)).map (fun edge => DotLine.edge edge.1 edge.2)

namespace GraphStore

/-- The lines of a drawing are those of the nodes and then those of the edges. -/
theorem dotLines_text : (store.dotLines formats).flatMap DotLine.text =
    store.nodes.zipIdx.flatMap (fun entry =>
        nodeLine entry.2 (decide (entry.2 ∈ store.outputs)) (entry.1.label formats)) ++
      store.nodes.zipIdx.flatMap (fun entry =>
        entry.1.inputs.flatMap (fun src => edgeLine src entry.2)) := by
  rw [dotLines, dotNodes, edgesFrom, List.flatMap_append, List.flatMap_map, List.flatMap_map,
    List.flatMap_map, List.zipIdx_map, List.flatMap_map, List.flatMap_assoc]
  simp only [List.flatMap_map]
  rfl

/-- The text is the lines between the first and the last one. -/
theorem toDot_eq : store.toDot formats = String.ofList ("digraph graphed \x7b\n".toList ++
    ((store.dotLines formats).flatMap DotLine.text ++ "\x7d\n".toList)) := by
  have grouped (header nodes edges last : List Char) :
      header ++ nodes ++ edges ++ last = header ++ ((nodes ++ edges) ++ last) := by simp
  rw [dotLines_text]
  exact congrArg String.ofList (grouped _ _ _ _)

variable {formats store store'} in
/-- A drawing tells its lines. -/
theorem dotLines_inj (same : store.toDot formats = store'.toDot formats) :
    store.dotNodes formats = store'.dotNodes formats ∧
      edgesFrom 0 (store.nodes.map NodeKey.inputs) =
        edgesFrom 0 (store'.nodes.map NodeKey.inputs) := by
  rw [toDot_eq, toDot_eq] at same
  have texts := List.append_cancel_left (String.ofList_injective same)
  have free (line : DotLine) : '}' ∉ line.text.head? := by
    rw [line.text_head]
    decide
  have lines := (terminated_inj DotLine.text_prefixFree free texts).1
  have nodes (s : GraphStore) :
      (s.dotLines formats).filterMap DotLine.node? = s.dotNodes formats := by
    rw [dotLines, List.filterMap_append, List.filterMap_map, List.filterMap_map]
    simp [Function.comp_def, DotLine.node?]
  have edges (s : GraphStore) : (s.dotLines formats).filterMap DotLine.edge? =
      edgesFrom 0 (s.nodes.map NodeKey.inputs) := by
    rw [dotLines, List.filterMap_append, List.filterMap_map, List.filterMap_map]
    simp [Function.comp_def, DotLine.edge?]
  exact ⟨by rw [← nodes, ← nodes, lines], by rw [← edges, ← edges, lines]⟩

/-- The line of a node is the one of its number. -/
theorem dotNodes_at (id : NodeId) : (store.dotNodes formats)[id]? =
    (store.nodes.map (NodeKey.label formats))[id]?.map
      (fun label => (id, decide (id ∈ store.outputs), label)) := by
  rw [dotNodes, List.getElem?_map, List.getElem?_zipIdx, List.getElem?_map, Option.map_map,
    Option.map_map, Nat.zero_add]
  rfl

end GraphStore

/-- A drawing shows labels, what every node reads, and which nodes are marked. -/
theorem toDot_congr
    (labels : store.nodes.map (NodeKey.label formats) = store'.nodes.map (NodeKey.label formats))
    (reads : store.nodes.map NodeKey.inputs = store'.nodes.map NodeKey.inputs)
    (marks : ∀ id < store.nodes.length, id ∈ store.outputs ↔ id ∈ store'.outputs) :
    store.toDot formats = store'.toDot formats := by
  have shown : store.dotNodes formats = store'.dotNodes formats := by
    apply List.ext_getElem?
    intro id
    rw [GraphStore.dotNodes_at, GraphStore.dotNodes_at, ← labels]
    cases known : (store.nodes.map (NodeKey.label formats))[id]? with
    | none => rfl
    | some label =>
      have inside : id < store.nodes.length := by simpa using lookup_bound known
      rw [Option.map_some, Option.map_some, decide_eq_decide.mpr (marks id inside)]
  rw [GraphStore.toDot_eq, GraphStore.toDot_eq, GraphStore.dotLines, GraphStore.dotLines, shown,
    reads]

/-- Drawings are equal exactly when the labels, what every node reads and the
marks are. So a drawing loses nothing of these: lines are told apart, and escaping
keeps labels within their quotes. -/
theorem toDot_eq_iff : store.toDot formats = store'.toDot formats ↔
    store.nodes.map (NodeKey.label formats) = store'.nodes.map (NodeKey.label formats) ∧
      store.nodes.map NodeKey.inputs = store'.nodes.map NodeKey.inputs ∧
        ∀ id < store.nodes.length, id ∈ store.outputs ↔ id ∈ store'.outputs := by
  constructor
  · intro same
    obtain ⟨shown, reads⟩ := GraphStore.dotLines_inj same
    have told (id : NodeId) := congrArg (fun entries => entries[id]?) shown
    simp only [GraphStore.dotNodes_at] at told
    have labels : store.nodes.map (NodeKey.label formats) =
        store'.nodes.map (NodeKey.label formats) := by
      apply List.ext_getElem?
      intro id
      simpa [Function.comp_def] using congrArg (Option.map (fun entry => entry.2.2)) (told id)
    have length : store.nodes.length = store'.nodes.length := by
      simpa using congrArg List.length labels
    refine ⟨labels, edgesFrom_inj (by simpa using length) reads, fun id inside => ?_⟩
    obtain ⟨label, known⟩ := lookup_exists
      (show id < (store'.nodes.map (NodeKey.label formats)).length by simpa [← length] using inside)
    have both := told id
    rw [labels, known, Option.map_some, Option.map_some, Option.some.injEq, Prod.mk.injEq,
      Prod.mk.injEq, decide_eq_decide] at both
    exact both.2.1
  · rintro ⟨labels, reads, marks⟩
    exact toDot_congr formats _ _ labels reads marks

/-! ## Drawings of equal graphs -/

variable {formats}

/-- Every NaN is printed alike. The standard library does so, whatever the
bits. -/
def Formats.NanBlind (formats : Formats) : Prop :=
  ∀ a b, F64.isNan a = true → F64.isNan b = true → formats.float a = formats.float b

/-- Equal parameters are printed alike, when every NaN is. -/
theorem ParamValue.display_canon (blind : formats.NanBlind) (value : ParamValue) :
    value.canon.display formats = value.display formats := by
  cases value with
  | float a =>
    rw [canon, display, display, floatKey]
    split
    · rename_i nan
      exact blind _ _ F64.isNan_canonNan nan
    · rfl
  | _ => rfl

/-- Equal parameter maps are printed alike. -/
theorem ParamMap.display_canon (blind : formats.NanBlind) (p : ParamMap) :
    p.canon.display formats = p.display formats := by
  simp [display, canon, canonEntry, Function.comp_def, ParamValue.display_canon blind]

/-- Equal keys have one label. -/
theorem NodeKey.label_canon (blind : formats.NanBlind) (key : NodeKey) :
    key.canon.label formats = key.label formats := by
  cases key with
  | stage => rfl
  | _ => simp [canon, label, fmtLabel, ParamMap.isEmpty_canon, ParamMap.display_canon blind]

end Drawings

/-! ## Entries in any order -/

/-- Every key is entered with equal values, in the same order. Only the order of
entries of different keys may differ, and the bits of NaNs. -/
def ParamMap.EnteredAlike (entries entries' : List (String × ParamValue)) : Prop :=
  ∀ key : String, (entries.map canonEntry).filter (fun entry => decide (entry.1 = key)) =
    (entries'.map canonEntry).filter (fun entry => decide (entry.1 = key))

/-- Sorting keeps keys apart from values, so values may be normalized before. -/
theorem ParamMap.canon_new (entries : List (String × ParamValue)) :
    (new entries).canon = new (entries.map canonEntry) :=
  ext (List.map_insertionSort (fun a b : String × ParamValue => a.1 ≤ b.1)
    (fun a b : String × ParamValue => a.1 ≤ b.1) canonEntry entries (fun _ _ _ _ => Iff.rfl))

/-- Entries make equal maps exactly when they are entered alike. -/
theorem ParamMap.new_eq_iff (entries entries' : List (String × ParamValue)) :
    (new entries).eq (new entries') = true ↔ EnteredAlike entries entries' := by
  rw [ParamMap.eq_iff, canon_new, canon_new, EnteredAlike, ← KeySort.sort_eq_iff_filter Prod.fst]
  exact ⟨fun same => congrArg ParamMap.entries same, fun same => ext same⟩

/-- A call with its parameters as they are entered, before they are sorted. The
other data of a call is that of `Call`. -/
inductive EnteredCall where
  | addSource (name : String) (entries : List (String × ParamValue))
  | addOp (name : String) (inputs : List NodeId) (entries : List (String × ParamValue))
  | addReduction (name : String) (inputs : List NodeId) (entries : List (String × ParamValue))
  | addExternal (descriptor : PayloadDescriptor) (inputs : List NodeId)
      (entries : List (String × ParamValue))
  | addKey (key : NodeKey)
  | markOutput (id : NodeId)

namespace EnteredCall

/-- The call that the store gets. Sorting is all that happens to it on the way. -/
def call : EnteredCall → Call
  | .addSource name entries => .addSource name (.new entries)
  | .addOp name inputs entries => .addOp name inputs (.new entries)
  | .addReduction name inputs entries => .addReduction name inputs (.new entries)
  | .addExternal d inputs entries => .addExternal d inputs (.new entries)
  | .addKey key => .addKey key
  | .markOutput id => .markOutput id

/-- Equal names, descriptors and inputs, and parameters that are entered alike:
the same entries in any order of their keys. -/
def Same : EnteredCall → EnteredCall → Prop
  | .addSource name entries, .addSource name' entries' =>
    name = name' ∧ ParamMap.EnteredAlike entries entries'
  | .addOp name inputs entries, .addOp name' inputs' entries' =>
    name = name' ∧ inputs = inputs' ∧ ParamMap.EnteredAlike entries entries'
  | .addReduction name inputs entries, .addReduction name' inputs' entries' =>
    name = name' ∧ inputs = inputs' ∧ ParamMap.EnteredAlike entries entries'
  | .addExternal d inputs entries, .addExternal d' inputs' entries' =>
    d = d' ∧ inputs = inputs' ∧ ParamMap.EnteredAlike entries entries'
  | .addKey key, .addKey key' => key.eq key' = true
  | .markOutput id, .markOutput id' => id = id'
  | _, _ => False

/-- Once sorted, calls that are entered alike have equal arguments. -/
theorem Same.call {entered entered' : EnteredCall} (same : entered.Same entered') :
    entered.call.Same entered'.call := by
  cases entered <;> cases entered' <;>
    simp_all [EnteredCall.Same, EnteredCall.call, Call.Same, ParamMap.new_eq_iff]

end EnteredCall

/-- Corresponding calls with equal arguments are drawn alike, whatever bits their
NaNs have and in whatever order their parameters are entered. -/
theorem equal_drawings {formats : Formats} (blind : formats.NanBlind)
    {calls calls' : List EnteredCall} (same : List.Forall₂ EnteredCall.Same calls calls') :
    (Call.run .new (calls.map EnteredCall.call)).toDot formats =
      (Call.run .new (calls'.map EnteredCall.call)).toDot formats := by
  have start : Twins .new .new := ⟨GraphStore.interned_new, GraphStore.interned_new, rfl, rfl⟩
  have sorted : List.Forall₂ Call.Same (calls.map EnteredCall.call)
      (calls'.map EnteredCall.call) := by
    rw [List.forall₂_map_left_iff, List.forall₂_map_right_iff]
    exact same.imp fun _ _ => EnteredCall.Same.call
  have twins := (start.run sorted).1
  have told {α : Type} (f : NodeKey → α) (kept : ∀ key : NodeKey, f key.canon = f key) :
      (Call.run .new (calls.map EnteredCall.call)).nodes.map f =
        (Call.run .new (calls'.map EnteredCall.call)).nodes.map f := by
    have same := congrArg (List.map f) twins.nodes
    simpa [Function.comp_def, kept] using same
  exact toDot_congr formats _ _ (told _ (NodeKey.label_canon blind)) (told _ NodeKey.inputs_canon)
    (fun id _ => by rw [twins.outputs])

/-- Formats that are enough for NaNs and zeros, and for strings without
escapes. -/
def plainFormats : Formats where
  float a := if F64.isNan a then "NaN" else "0"
  debug s := "\"" ++ s ++ "\""

/-- A source with some parameters, which is marked as the output. -/
def markedSource (entries : List (String × ParamValue)) : List EnteredCall :=
  [.addSource "events" entries, .markOutput 0]

/-- Another NaN, and the two entries the other way round. -/
theorem equal_drawings_of_nan :
    (Call.run .new ((markedSource [("cut", .float quietNan), ("bins", .int 3)]).map
        EnteredCall.call)).toDot plainFormats =
      (Call.run .new ((markedSource [("bins", .int 3), ("cut", .float signedNan)]).map
        EnteredCall.call)).toDot plainFormats := by
  refine equal_drawings (fun a b nan nan' => by simp [plainFormats, nan, nan'])
    (.cons ⟨rfl, ?_⟩ (.cons rfl .nil))
  exact (ParamMap.new_eq_iff _ _).mp (by decide +kernel)

end GraphedCore
