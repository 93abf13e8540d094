import GraphedCore.Shipping
import GraphedCore.TaskIds

/-!
# Callables in a plan

A plan names each of its callables by an import path, or carries it pickled when the path does not
lead back to it. Whichever it was, the choice is in the bytes of the plan, so a worker recovers the
callable, or the copy that its pickle yields, and equal task ids never stand for different work.
-/

namespace GraphedCore.Plan

universe u
variable {C : Type u}

/-! ## Machines -/

/-- Why a callable is not recovered: what `from_callable` is prepared for, and
anything else. -/
inductive Fault where
  | importError
  | attributeError
  | valueError
  | other
deriving DecidableEq

/-- What a machine imports, reads off an object and pickles, and the names of its
callables. -/
structure Machine (C : Type u) where
  importModule : String → Except Fault C
  getattr : C → String → Except Fault C
  loads : List UInt8 → Except Fault C
  dumps : C → Except Fault (List UInt8)
  moduleName : C → Option String
  qualname : C → Option String

namespace OpSpec

/-- Whether the callable is carried as a pickle, which only a machine that trusts
it should load. -/
def isOpaque (op : OpSpec) : Bool := op.kind = .opaqueBlob

/-- What stands before and after the first colon. Without a colon there is nothing
after it. -/
def partitionRef (ref : String) : String × String :=
  match ref.toList.span (· ≠ ':') with
  | (modName, rest) => (String.ofList modName, String.ofList (rest.drop 1))

/-- `qual.split(".")`: the attributes, one after another. -/
def splitDots (qual : String) : List String := (qual.toList.splitOn '.').map String.ofList

/-- Import a module and read one attribute after another. A reference without
attributes is refused. -/
def follow (m : Machine C) (modName qual : String) : Except Fault C :=
  if qual = "" then .error .valueError
  else (m.importModule modName).bind (fun obj => (splitDots qual).foldlM m.getattr obj)

/-- A reference is followed by name, and an embedded callable is unpickled. -/
def resolve (m : Machine C) (op : OpSpec) : Except Fault C :=
  match op.kind with
  | .ref => follow m (partitionRef op.ref).1 (partitionRef op.ref).2
  | .opaqueBlob =>
    match Base64.b64decode op.blobB64 with
    | some blob => m.loads blob
    | none => .error .valueError

/-- A specification of a name. Nothing is looked up. -/
def fromRef (ref : String) : OpSpec := ⟨.ref, ref, ""⟩

/-- The path of a callable that has names, is not local and is not of the script
that runs. -/
def importPath (m : Machine C) (fn : C) : Option String :=
  match m.moduleName fn, m.qualname fn with
  | some mod, some qual =>
    if mod ≠ "" ∧ qual ≠ "" ∧ ¬ "<locals>".toList <:+: qual.toList ∧ mod ≠ "__main__" then
      some (mod ++ ":" ++ qual)
    else none
  | _, _ => none

/-- A specification that carries the pickle of a callable, in base64, if it can be
pickled. -/
def embed (m : Machine C) (fn : C) : Except Fault OpSpec :=
  (m.dumps fn).map (fun blob => ⟨.opaqueBlob, "", Base64.b64encode blob⟩)

/-- The path when it leads back to the callable, and otherwise the pickle. A path
that leads elsewhere is not used. -/
def fromCallable [DecidableEq C] (m : Machine C) (fn : C) (preferRef : Bool) :
    Except Fault OpSpec :=
  match (if preferRef then importPath m fn else none) with
  | some ref =>
    match (fromRef ref).resolve m with
    | .ok found => if found = fn then .ok (fromRef ref) else embed m fn
    | .error .other => .error .other
    | .error _ => embed m fn
  | none => embed m fn

/-- The path of the callable leads back to it, and paths are preferred. -/
def Importable (m : Machine C) (fn : C) (preferRef : Bool) : Prop :=
  preferRef = true ∧ ∃ path, importPath m fn = some path ∧ (fromRef path).resolve m = .ok fn

/-! ## What a machine makes and another one recovers -/

/-- How a specification of a callable is made: by its path, or by its pickle when
the path is no use. -/
inductive Made (m : Machine C) (fn : C) (preferRef : Bool) : OpSpec → Prop
  | named {path : String} : preferRef = true → importPath m fn = some path →
      (fromRef path).resolve m = .ok fn → Made m fn preferRef (fromRef path)
  | embedded {blob : List UInt8} : ¬ Importable m fn preferRef → m.dumps fn = .ok blob →
      Made m fn preferRef ⟨.opaqueBlob, "", Base64.b64encode blob⟩

section Made

variable {m client worker : Machine C} {fn other : C} {preferRef preferRef' : Bool}
  {op op' : OpSpec}

/-- What is embedded was made by embedding. -/
theorem embed_made (foreign : ¬ Importable m fn preferRef) (done : embed m fn = .ok op) :
    Made m fn preferRef op := by
  rw [embed] at done
  cases dumped : m.dumps fn with
  | error fault =>
    rw [dumped] at done
    cases done
  | ok blob =>
    rw [dumped] at done
    obtain rfl := Except.ok.inj done
    exact .embedded foreign dumped

/-- Whatever `from_callable` answers is made in one of the two ways: named, when
the path leads back to the callable, and embedded otherwise. The cases are those
of the source, one for each exception that the lookup can raise. -/
theorem fromCallable_made [DecidableEq C] (done : fromCallable m fn preferRef = .ok op) :
    Made m fn preferRef op := by
  rw [fromCallable] at done
  cases asked : (if preferRef then importPath m fn else none) with
  | none =>
    rw [asked] at done
    refine embed_made ?_ done
    rintro ⟨rfl, path, known, _⟩
    rw [if_pos rfl, known] at asked
    cases asked
  | some path =>
    rw [asked] at done
    dsimp only at done
    have preferred : preferRef = true := by
      by_contra without
      rw [if_neg without] at asked
      cases asked
    rw [if_pos preferred] at asked
    have only (foreign : (fromRef path).resolve m ≠ .ok fn) : ¬ Importable m fn preferRef := by
      rintro ⟨_, path', known, leads⟩
      obtain rfl := Option.some.inj (asked.symm.trans known)
      exact foreign leads
    cases leads : (fromRef path).resolve m with
    | ok found =>
      rw [leads] at done
      dsimp only at done
      by_cases back : found = fn
      · rw [if_pos back] at done
        obtain rfl := Except.ok.inj done
        exact .named preferred asked (leads.trans (congrArg Except.ok back))
      · rw [if_neg back] at done
        exact embed_made (only (fun same => back (Except.ok.inj (leads.symm.trans same)))) done
    | error fault =>
      have foreign : (fromRef path).resolve m ≠ .ok fn := by
        rw [leads]
        intro same
        cases same
      rw [leads] at done
      cases fault with
      | other => cases done
      | _ => exact embed_made (only foreign) done

/-- Made callables are the same to a task id when they are the same object, or
have the same pickle. -/
theorem Made.sameCallable_iff (made : Made m fn preferRef op)
    (made' : Made m other preferRef' op') :
    op.SameCallable op' ↔ op.isOpaque = op'.isOpaque ∧
      (op.isOpaque = false → fn = other) ∧ (op.isOpaque = true → m.dumps fn = m.dumps other) := by
  cases made with
  | @named path _ known leads =>
    cases made' with
    | @named path' _ known' leads' =>
      have same : path = path' ↔ fn = other := by
        constructor
        · rintro rfl
          exact Except.ok.inj (leads.symm.trans leads')
        · rintro rfl
          exact Option.some.inj (known.symm.trans known')
      simpa [SameCallable, isOpaque, fromRef] using same
    | embedded => simp [SameCallable, isOpaque, fromRef]
  | @embedded blob _ dumped =>
    cases made' with
    | named => simp [SameCallable, isOpaque, fromRef]
    | @embedded blob' _ dumped' =>
      simp [SameCallable, isOpaque, Base64.b64decode_b64encode, dumped, dumped']

/-- Callables that a task id does not tell apart are recovered alike
everywhere. -/
theorem SameCallable.resolve_eq (same : op.SameCallable op') (m : Machine C) :
    op.resolve m = op'.resolve m := by
  rw [SameCallable] at same
  rw [resolve, resolve]
  cases kind : op.kind <;> cases kind' : op'.kind <;> rw [kind, kind'] at same <;> dsimp only
  · rw [same]
  · exact same.elim
  · exact same.elim
  · rw [same]

end Made

end OpSpec

namespace DurablePlan

open OpSpec

/-- Some callable of the plan is embedded by value. -/
def isOpaque (p : DurablePlan) : Bool :=
  p.process.isOpaque || p.combine.isOpaque || p.empty.isOpaque

variable {p q : DurablePlan} {lib : Library} {x y : Execution.Partition} {a b : String}

/-- A machine that has two functions installed, and a lambda in its script that no
name leads to. -/
def mathMachine : Machine String where
  importModule name := if name ∈ ["math", "builtins"] then .ok name else .error .importError
  getattr obj name :=
    if (obj, name) ∈ [("math", "hypot"), ("builtins", "int")] then .ok name
    else .error .attributeError
  loads blob := if blob = [0x80, 5, 0x95, 0] then .ok "copy" else .error .other
  dumps _ := .ok [0x80, 5, 0x95, 0]
  moduleName fn :=
    match fn with
    | "hypot" => some "math"
    | "int" => some "builtins"
    | _ => some "__main__"
  qualname fn := some fn

/-- Two plans whose processes were made on one machine give one task id exactly
for one graph, one partition, and one importable callable or two with one pickle.
What runs under one task id is recovered alike on every machine. -/
theorem taskId_of_callables [DecidableEq C] (injective : Function.Injective lib.sha256)
    (built : x.Built) (built' : y.Built) (done : p.taskId lib x = some a)
    (done' : q.taskId lib y = some b) {m : Machine C} {fn other : C} {preferRef preferRef' : Bool}
    (made : fromCallable m fn preferRef = .ok p.process)
    (made' : fromCallable m other preferRef' = .ok q.process) :
    (a = b ↔ p.ir = q.ir ∧ x = y ∧ p.process.isOpaque = q.process.isOpaque ∧
      (p.process.isOpaque = false → fn = other) ∧
      (p.process.isOpaque = true → m.dumps fn = m.dumps other)) ∧
    (a = b → p.graph = q.graph ∧
      ∀ worker : Machine C, p.process.resolve worker = q.process.resolve worker) := by
  have callable := (fromCallable_made made).sameCallable_iff (fromCallable_made made')
  obtain ⟨identity, called, hashed⟩ := taskId_some done
  obtain ⟨identity', called', hashed'⟩ := taskId_some done'
  have identified := identity_iff called called'
  have parts (same : a = b) : p.ir = q.ir ∧ x = y ∧ p.process.SameCallable q.process := by
    subst same
    obtain ⟨ir, identities, partitions⟩ := taskId_parts injective done done'
    rw [called, called', Option.some.injEq] at identities
    exact ⟨ir, partitionBytes_inj built built' partitions, identified.mp identities⟩
  refine ⟨⟨fun same => ?_, ?_⟩, fun same => ?_⟩
  · obtain ⟨ir, task, process⟩ := parts same
    exact ⟨ir, task, callable.mp process⟩
  · rintro ⟨ir, rfl, process⟩
    rw [ir, identified.mpr (callable.mpr process)] at hashed
    exact Option.some.inj (hashed.symm.trans hashed')
  · obtain ⟨ir, _, process⟩ := parts same
    refine ⟨?_, process.resolve_eq⟩
    rw [graph, graph, ir]

/-- One function on two partitions has two task ids, and is recovered under
both. -/
theorem taskId_of_callables_of_hypot :
    (rangeTaskId = blindTaskId ↔ hypotPlan.ir = hypotPlan.ir ∧ rangeTask = blindTask ∧
      hypotPlan.process.isOpaque = hypotPlan.process.isOpaque ∧
      (hypotPlan.process.isOpaque = false → "hypot" = "hypot") ∧
      (hypotPlan.process.isOpaque = true →
        mathMachine.dumps "hypot" = mathMachine.dumps "hypot")) ∧
    (rangeTaskId = blindTaskId → hypotPlan.graph = hypotPlan.graph ∧ ∀ worker : Machine String,
      hypotPlan.process.resolve worker = hypotPlan.process.resolve worker) := by
  have made : fromCallable mathMachine "hypot" true = .ok hypotPlan.process := by rfl
  exact taskId_of_callables (Equiv.injective _) (Or.inl ⟨rfl, rfl⟩)
    (Or.inr ⟨"d", "t", 0, 1, rfl⟩) (show hypotPlan.taskId hypotLibrary rangeTask = _ by
      decide +kernel) (show hypotPlan.taskId hypotLibrary blindTask = _ by decide +kernel) made made

end DurablePlan

end GraphedCore.Plan
