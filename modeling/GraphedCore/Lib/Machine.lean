import Mathlib.Init

/-!
# Machines that answer

A machine takes an input, answers it and goes on from the state it is left in. What every
admitted input keeps holds at the end of a run, and what it makes of the answer holds of every
answer. Two machines that answer alike from related states, and are related again afterwards,
are not told apart by the answers to any sequence of inputs.
-/

namespace GraphedCore.Machine

variable {σ σ' ι ο : Type}

/-- The answers to inputs in their order, and the state after them. -/
def transcript (step : σ → ι → ο × σ) : σ → List ι → List ο × σ
  | state, [] => ([], state)
  | state, input :: rest =>
    let (answer, next) := step state input
    let (answers, last) := transcript step next rest
    (answer :: answers, last)

section Run

variable {step : σ → ι → ο × σ} {state : σ} {input : ι} {rest : List ι}

/-- The answer to the first input, and those to the rest from the state it
leaves. -/
theorem transcript_cons : transcript step state (input :: rest) =
    ((step state input).1 :: (transcript step (step state input).2 rest).1,
      (transcript step (step state input).2 rest).2) := rfl

/-- The states of a run are those of its steps alone. -/
theorem transcript_state {next : σ → ι → σ}
    (same : ∀ state input, (step state input).2 = next state input) (inputs : List ι) :
    (transcript step state inputs).2 = inputs.foldl next state := by
  induction inputs generalizing state with
  | nil => rfl
  | cons input inputs ih => rw [transcript_cons, ih, same, List.foldl_cons]

variable (step) in
/-- An invariant that admitted inputs keep, and under which they are answered
well. -/
theorem transcript_keeps {Keeps : σ → Prop} {Admits : ι → Prop} (Good : ο → Prop)
    (kept : ∀ state input, Keeps state → Admits input →
      Good (step state input).1 ∧ Keeps (step state input).2)
    {inputs : List ι} (admitted : ∀ input ∈ inputs, Admits input) (start : Keeps state) :
    (∀ answer ∈ (transcript step state inputs).1, Good answer) ∧
      Keeps (transcript step state inputs).2 := by
  induction inputs generalizing state with
  | nil => exact ⟨fun answer none => absurd none List.not_mem_nil, start⟩
  | cons input inputs ih =>
    obtain ⟨good, next⟩ := kept state input start (admitted input List.mem_cons_self)
    obtain ⟨answers, last⟩ :=
      ih (fun other member => admitted other (List.mem_cons_of_mem _ member)) next
    rw [transcript_cons]
    exact ⟨List.forall_mem_cons.mpr ⟨good, answers⟩, last⟩

end Run

/-- Machines in lockstep give the same transcripts. -/
theorem transcript_lockstep (step : σ → ι → ο × σ) (step' : σ' → ι → ο × σ')
    {Alike : σ → σ' → Prop}
    (lockstep : ∀ state state' input, Alike state state' →
      (step state input).1 = (step' state' input).1 ∧
        Alike (step state input).2 (step' state' input).2)
    (inputs : List ι) {state : σ} {state' : σ'} (alike : Alike state state') :
    (transcript step state inputs).1 = (transcript step' state' inputs).1 ∧
      Alike (transcript step state inputs).2 (transcript step' state' inputs).2 := by
  induction inputs generalizing state state' with
  | nil => exact ⟨rfl, alike⟩
  | cons input inputs ih =>
    obtain ⟨answer, next⟩ := lockstep state state' input alike
    obtain ⟨answers, last⟩ := ih next
    rw [transcript_cons, transcript_cons]
    exact ⟨congr (congrArg List.cons answer) answers, last⟩

end GraphedCore.Machine
