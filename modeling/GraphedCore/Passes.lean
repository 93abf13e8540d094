import GraphedCore.Normalizing
import GraphedCore.Shipping

/-!
# Programs of passes

Recording, reducing and shipping follow one another in any order: a graph is reduced, the
reduced graph is sent away and read back, more is recorded on top of it, and what is then there
is reduced again, in another mode. Each pass keeps what an executor finds at the marks, so the
whole program does.
-/

namespace GraphedCore

open Dag Wired

universe u
variable {V : Type u}

/-! ## Passes -/

/-- What is done to a store before an executor walks it: recording more, reducing
it, or sending it elsewhere. -/
inductive Pass where
  | record (calls : List Call)
  | reduce (mode : FusionMode) (find : EngineGraph → Nat → Nat)
  | ship

namespace Pass

/-- What a pass makes of a store, if it succeeds. Shipping is writing and reading
back. -/
def perform (store : GraphStore) : Pass → Option GraphStore
  | .record calls => some (Call.run store calls)
  | .reduce mode find => Session.reduce store none mode (EggEngine.canonicalize find)
  | .ship => (Serialize.deserialize (Serialize.serialize store)).toOption

/-- One pass after another. The first that fails ends it. -/
def run (store : GraphStore) (passes : List Pass) : Option GraphStore :=
  passes.foldlM perform store

/-- Only calls that the bindings expose are recorded, and the e-graph library
keeps the rules. -/
def Sound : Pass → Prop
  | .record calls => ∀ call ∈ calls, call.IsExposed
  | .reduce _ find => EggSound find
  | .ship => True

end Pass

/-- What can be walked and written out: tokens that tell its nodes apart, and
lengths that fit. -/
structure GraphStore.Portable (store : GraphStore) : Prop where
  walkable : Walkable store.nodes
  fits : store.Fits

/-! ## What a pass keeps -/

/-- Every lawful executor finds at marks of the later store what it finds at the
marks of the earlier one. Where it finds them does not depend on the executor. -/
def Keeps (V : Type u) (store later : GraphStore) : Prop :=
  ∃ found, (∀ o ∈ store.outputs, found o ∈ later.outputs) ∧
    ∀ ex : Executor V, ex.Lawful → ex.FindsAt store store.outputs later found

namespace Keeps

variable {store later final : GraphStore}

/-- A store that only grew keeps what was found in it, at the same ids. -/
theorem of_extends (interned : store.Interned) (interned' : later.Interned)
    (walkable : Walkable later.nodes) (grown : store.Extends later) : Keeps V store later := by
  refine ⟨id, fun o member => grown.outputs.subset member, fun ex lawful => ?_⟩
  have clear' : ∀ key ∈ later.nodes, key.Interpretable later.nodes :=
    fun key member => walkable.interpretable member
  have clear : ∀ key ∈ store.nodes, key.Interpretable later.nodes :=
    fun key member => clear' key (grown.nodes.subset member)
  obtain ⟨views, shown⟩ := views_exist clear
  obtain ⟨views', shown'⟩ := views_exist clear'
  obtain ⟨vals, valuation⟩ := walkable.valuation (ex.meaning later.nodes) interned'.earlier
  have first := valuation_initial interned'.earlier grown.nodes valuation
  refine ⟨views, views', vals.take store.nodes.length, vals, shown, shown', ?_, ?_,
    fun o member => ?_⟩
  · rw [lawful.interpret_eq walkable.payloads clear shown]
    exact (eval_eq_some_iff _ _ interned.earlier _).mpr first
  · rw [lawful.interpret_eq walkable.payloads clear' shown']
    exact (eval_eq_some_iff _ _ interned'.earlier _).mpr valuation
  · have inside := interned.inside o member
    have bound : o < vals.length :=
      valuation.length ▸ inside.trans_le grown.nodes.length_le
    obtain ⟨value, known⟩ := lookup_exists bound
    exact ⟨value, (List.getElem?_take_of_lt inside).trans known, known⟩

/-- What is kept by two passes is kept by both together, with the places
composed. -/
theorem trans (first : Keeps V store later) (second : Keeps V later final) :
    Keeps V store final := by
  obtain ⟨found, marks, finds⟩ := first
  obtain ⟨found', marks', finds'⟩ := second
  refine ⟨found' ∘ found, fun o member => marks' _ (marks o member), fun ex lawful => ?_⟩
  obtain ⟨views, between, vals, middle, shown, visible, walked, through, same⟩ := finds ex lawful
  obtain ⟨again, views', middle', vals', visible', shown', through', walked', same'⟩ :=
    finds' ex lawful
  obtain rfl := Except.ok.inj (visible.symm.trans visible')
  obtain rfl := Option.some.inj (through.symm.trans through')
  refine ⟨views, views', vals, vals', shown, shown', walked, walked', fun o member => ?_⟩
  obtain ⟨value, present, moved⟩ := same o member
  obtain ⟨value', present', moved'⟩ := same' _ (marks o member)
  obtain rfl := Option.some.inj (moved.symm.trans present')
  exact ⟨value, present, moved'⟩

end Keeps

/-- Calls that a client can make keep a store settled. -/
theorem Call.settled_run {store : GraphStore} (settled : store.Settled) {calls : List Call}
    (exposed : ∀ call ∈ calls, call.IsExposed) : (Call.run store calls).Settled := by
  induction calls generalizing store with
  | nil => exact settled
  | cons call rest ih =>
    exact ih (settled.perform (exposed call List.mem_cons_self))
      (fun other member => exposed other (List.mem_cons_of_mem _ member))

namespace Pass

variable {store later : GraphStore} {pass : Pass}

/-- Every pass that succeeds leaves a settled store. -/
theorem perform_settled (settled : store.Settled) (sound : pass.Sound)
    (done : pass.perform store = some later) : later.Settled := by
  cases pass with
  | record calls =>
    obtain rfl := Option.some.inj done
    exact Call.settled_run settled sound
  | reduce mode find =>
    have reduces : Session.reduce store none mode (EggEngine.canonicalize find) = some later :=
      done
    exact Session.reduce_settled settled reduces
  | ship =>
    cases decoded : Serialize.deserialize (Serialize.serialize store) with
    | error e =>
      rw [perform, decoded] at done
      cases done
    | ok read =>
      rw [perform, decoded] at done
      obtain rfl := Option.some.inj done
      exact Serialize.deserialize_settled decoded

/-- No pass is refused on what can be walked and written out. Where its result can
be walked, the result keeps what was found. -/
theorem perform_keeps (settled : store.Settled) (portable : store.Portable) (sound : pass.Sound) :
    ∃ later, pass.perform store = some later ∧ (Walkable later.nodes → Keeps V store later) := by
  cases pass with
  | record calls =>
    refine ⟨_, rfl, fun walkable => ?_⟩
    exact .of_extends settled.interned (Call.interned_run settled.interned calls) walkable
      (Call.extends_run store calls)
  | reduce mode find =>
    obtain ⟨reduced, report, found, reduces, marks, finds⟩ :=
      portable.walkable.agrees (V := V) sound settled.interned settled.interned.inside mode
    rw [GraphStore.reduceWithOutputs_marks settled.interned] at reduces
    obtain ⟨result, reduces, same⟩ := Option.map_eq_some_iff.mp reduces
    obtain rfl := Except.ok.inj same
    refine ⟨reduced, by rw [perform, Session.reduce, reduces, Option.map_some], fun _ => ?_⟩
    refine ⟨found, fun o member => ?_, finds⟩
    rw [marks]
    exact (GraphStore.mem_marked _ _ _).mpr (Or.inr (List.mem_map_of_mem member))
  | ship =>
    obtain ⟨read, decoded, nodes, outputs⟩ :=
      Serialize.deserialize_serialize settled portable.fits
    refine ⟨read, by rw [perform, decoded]; rfl, fun walkable => ?_⟩
    have grown : store.Extends read := ⟨by rw [nodes], by rw [outputs]⟩
    exact .of_extends settled.interned (Serialize.deserialize_settled decoded).interned walkable
      grown

/-- Every store that a program leads to is one that can be walked and written out.
The last one need not be given apart. -/
def Portably (store : GraphStore) (passes : List Pass) : Prop :=
  ∀ done between, done <+: passes → run store done = some between → between.Portable

/-- A program keeps what the marks mean, by induction on its passes. Each store on
the way can be walked and written out, so the next pass does not fail. -/
theorem run_keeps {passes : List Pass} (settled : store.Settled)
    (sound : ∀ pass ∈ passes, pass.Sound) (portably : Portably store passes) :
    ∃ final, run store passes = some final ∧ Keeps V store final := by
  have portable := portably [] store (List.nil_prefix) rfl
  induction passes generalizing store with
  | nil =>
    exact ⟨store, rfl, .of_extends settled.interned settled.interned portable.walkable (.refl _)⟩
  | cons pass rest ih =>
    have known := sound pass List.mem_cons_self
    obtain ⟨later, performed, keeps⟩ := perform_keeps (V := V) settled portable known
    have onward : Portably later rest := by
      intro done between initial reached
      apply portably (pass :: done) between ((List.prefix_cons_inj pass).mpr initial)
      rw [run, List.foldlM_cons, performed]
      exact reached
    have portable' := onward [] later (List.nil_prefix) rfl
    obtain ⟨final, ran, keeps'⟩ := ih (perform_settled settled known performed)
      (fun other member => sound other (List.mem_cons_of_mem _ member)) onward portable'
    refine ⟨final, ?_, (keeps portable'.walkable).trans keeps'⟩
    rw [run, List.foldlM_cons, performed]
    exact ran

end Pass

/-- However recording, reducing and shipping follow one another from a store of a
session, no step fails, and an executor finds at marks of the last store what it
finds at the marks of the first. Which marks these are does not depend on the
executor. -/
theorem marks_kept (V : Type u) (requests : List Request) {store : GraphStore}
    (produced : store ∈ (Session.run requests).stores) (passes : List Pass)
    (sound : ∀ pass ∈ passes, pass.Sound) (portably : Pass.Portably store passes) :
    ∃ final found, Pass.run store passes = some final ∧
      (∀ o ∈ store.outputs, found o ∈ final.outputs) ∧
      ∀ ex : Executor V, ex.Lawful → ex.FindsAt store store.outputs final found := by
  have settled := (Session.settled_run requests).stores store produced
  obtain ⟨final, ran, found, marks, finds⟩ := Pass.run_keeps (V := V) settled sound portably
  exact ⟨final, found, ran, marks, finds⟩

/-- A library that stops before it merges anything. -/
theorem unmerged_sound : EggSound (fun _ i => i) := by
  rintro graph _ i _ _ _ rfl
  exact least_equivalence.refl i

/-- Drop what is not marked, ship the rest, sum the stage up on the other side and
reduce again. -/
def summedPasses : List Pass :=
  [.reduce .maximal (fun _ i => i), .ship,
    .record [.addReduction "sum" [1] (.new []), .markOutput 2],
    .reduce .singleUse (fun _ i => i)]

/-- Every store on the way holds nodes of the first one, or the sum. -/
theorem summedPasses_nodes : ∀ k ≤ 4, ∀ between ∈ Pass.run extendedStore (summedPasses.take k),
    between.Fits ∧ ∀ key ∈ between.nodes,
      key ∈ extendedStore.nodes ∨ key = .reduction "sum" (.new []) [1] := by
  decide +kernel

/-- Every store on the way can be walked and written out. -/
theorem summedPasses_portably : Pass.Portably extendedStore summedPasses := by
  intro done between initial reached
  have taken := List.prefix_iff_eq_take.mp initial
  rw [taken] at reached
  obtain ⟨fits, listed⟩ := summedPasses_nodes _ initial.length_le between reached
  refine ⟨extendedStore_walkable.mono (fun key member => ?_), fits⟩
  rcases listed key member with kept | rfl
  · exact Or.inl kept
  · exact Or.inr ⟨not_false, Or.inl trivial⟩

/-- The stage is marked, and after it the sum. -/
theorem marks_kept_of_summed : ∃ final found, Pass.run extendedStore summedPasses = some final ∧
    final.outputs = [1, 2] ∧ found 1 ∈ final.outputs ∧
    (tally 1).FindsAt extendedStore [1] final found := by
  have sound : ∀ pass ∈ summedPasses, pass.Sound := by
    simp [summedPasses, Pass.Sound, Call.IsExposed, unmerged_sound]
  obtain ⟨final, found, ran, marks, finds⟩ :=
    marks_kept Int extendedRequests (List.mem_of_getElem? extendedRequests_stores) summedPasses
      sound summedPasses_portably
  have outputs : (Pass.run extendedStore summedPasses).map GraphStore.outputs = some [1, 2] := by
    decide +kernel
  rw [ran] at outputs
  have last : final.outputs = [1, 2] := Option.some.inj outputs
  exact ⟨final, found, ran, last, marks 1 (by decide), finds _ (tally_lawful 1)⟩

end GraphedCore
