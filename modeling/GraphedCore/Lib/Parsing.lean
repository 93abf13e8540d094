import Mathlib.Data.List.Basic

/-!
# Readers over a list of tokens

A reader takes what it needs from the front of the unread tokens, or fails. It
consumes a list of tokens as a value when it takes exactly these tokens, whatever
follows them. A writer is inverted by a reader that consumes everything written,
and the rules below follow the shape of the reader.
-/

namespace Parsing

universe u
variable {β ε α γ : Type u}

/-- The reader takes these tokens, no more and no fewer, and answers the value. -/
def Consumes (reader : StateT (List β) (Except ε) α) (tokens : List β) (value : α) : Prop :=
  ∀ rest, reader (tokens ++ rest) = .ok (value, rest)

/-- An answer that is known takes nothing. -/
theorem consumes_pure (value : α) :
    Consumes (pure value : StateT (List β) (Except ε) α) [] value :=
  fun _ => rfl

/-- One reader after another. -/
theorem Consumes.bind {first : StateT (List β) (Except ε) α}
    {next : α → StateT (List β) (Except ε) γ} {front back : List β} {value : α} {result : γ}
    (leads : Consumes first front value) (follows : Consumes (next value) back result) :
    Consumes (first >>= next) (front ++ back) result := by
  intro rest
  show (first (front ++ back ++ rest)).bind (fun answer => next answer.1 answer.2) = _
  rw [List.append_assoc, leads]
  exact follows rest

/-- A reader after which nothing more is read. -/
theorem Consumes.finish {first : StateT (List β) (Except ε) α}
    {next : α → StateT (List β) (Except ε) γ} {tokens : List β} {value : α} {result : γ}
    (leads : Consumes first tokens value) (ends : Consumes (next value) [] result) :
    Consumes (first >>= next) tokens result := by
  rw [← List.append_nil tokens]
  exact leads.bind ends

/-- A reader whose answer is only wrapped up. -/
theorem Consumes.map {first : StateT (List β) (Except ε) α} {tokens : List β} {value : α}
    (consumes : Consumes first tokens value) (wrap : α → γ) :
    Consumes (first >>= fun answer => pure (wrap answer)) tokens (wrap value) :=
  consumes.finish (consumes_pure (wrap value))

/-- What a successful sequence did. -/
theorem bind_ok_iff {first : StateT (List β) (Except ε) α}
    {next : α → StateT (List β) (Except ε) γ} {tokens rest : List β} {result : γ} :
    (first >>= next) tokens = .ok (result, rest) ↔
      ∃ value middle, first tokens = .ok (value, middle) ∧
        next value middle = .ok (result, rest) := by
  show (first tokens).bind (fun answer => next answer.1 answer.2) = _ ↔ _
  cases answer : first tokens with
  | error bad => simp [Except.bind]
  | ok found =>
    obtain ⟨value, middle⟩ := found
    simp [Except.bind]

/-- How a sequence fails. -/
theorem bind_error_iff {first : StateT (List β) (Except ε) α}
    {next : α → StateT (List β) (Except ε) γ} {tokens : List β} {bad : ε} :
    (first >>= next) tokens = .error bad ↔ first tokens = .error bad ∨
      ∃ value middle, first tokens = .ok (value, middle) ∧ next value middle = .error bad := by
  show (first tokens).bind (fun answer => next answer.1 answer.2) = _ ↔ _
  cases answer : first tokens with
  | error other => simp [Except.bind]
  | ok found =>
    obtain ⟨value, middle⟩ := found
    simp [Except.bind]

/-- What a reader does that only answers. -/
theorem pure_ok_iff {tokens rest : List β} {value result : α} :
    (pure value : StateT (List β) (Except ε) α) tokens = .ok (result, rest) ↔
      value = result ∧ tokens = rest := by
  show (Except.ok (value, tokens) : Except ε _) = _ ↔ _
  simp

/-! ## What is read -/

/-- Whatever the reader answers has the property. -/
structure Yields (P : α → Prop) (reader : StateT (List β) (Except ε) α) : Prop where
  answers : ∀ {tokens rest : List β} {value : α}, reader tokens = .ok (value, rest) → P value

section Yields

variable {P : α → Prop} {Q : γ → Prop} {reader other : StateT (List β) (Except ε) α}

/-- An answer that is known has its properties. -/
theorem yields_pure {value : α} (holds : P value) :
    Yields P (pure value : StateT (List β) (Except ε) α) where
  answers read := by
    obtain ⟨rfl, _⟩ := pure_ok_iff.mp read
    exact holds

/-- The second reader may rely on what the first one yields. -/
theorem Yields.bind {next : α → StateT (List β) (Except ε) γ} (leads : Yields P reader)
    (follows : ∀ value, P value → Yields Q (next value)) : Yields Q (reader >>= next) where
  answers read := by
    obtain ⟨value, middle, first, later⟩ := bind_ok_iff.mp read
    exact (follows value (leads.answers first)).answers later

/-- Each branch may rely on its condition. -/
theorem Yields.ite {c : Prop} [Decidable c] (yes : c → Yields P reader)
    (no : ¬ c → Yields P other) : Yields P (if c then reader else other) := by
  by_cases holds : c
  · rw [if_pos holds]
    exact yes holds
  · rw [if_neg holds]
    exact no holds

end Yields

/-! ## Running out -/

/-- More tokens do not change what was decided without them: not an answer, and no
failure but for running out. -/
structure Lasting (out : ε) (reader : StateT (List β) (Except ε) α) : Prop where
  ok : ∀ {tokens rest : List β} {value : α} (more : List β),
    reader tokens = .ok (value, rest) → reader (tokens ++ more) = .ok (value, rest ++ more)
  error : ∀ {tokens : List β} {bad : ε} (more : List β),
    reader tokens = .error bad → bad ≠ out → reader (tokens ++ more) = .error bad

section Lasting

variable {out : ε} {reader : StateT (List β) (Except ε) α}

/-- An answer that is known does not wait for more. -/
theorem lasting_pure (value : α) : Lasting out (pure value : StateT (List β) (Except ε) α) where
  ok more read := by
    obtain ⟨rfl, rfl⟩ := pure_ok_iff.mp read
    rfl
  error _ failed := nomatch failed

/-- Two readers that last do so one after another. -/
theorem Lasting.bind {next : α → StateT (List β) (Except ε) γ} (leads : Lasting out reader)
    (follows : ∀ value, Lasting out (next value)) : Lasting out (reader >>= next) where
  ok more read := by
    obtain ⟨value, middle, first, later⟩ := bind_ok_iff.mp read
    exact bind_ok_iff.mpr ⟨value, middle ++ more, leads.ok more first,
      (follows value).ok more later⟩
  error more failed other := by
    rw [bind_error_iff] at failed ⊢
    rcases failed with first | ⟨value, middle, first, later⟩
    · exact Or.inl (leads.error more first other)
    · exact Or.inr ⟨value, middle ++ more, leads.ok more first,
        (follows value).error more later other⟩

/-- So does the one that a condition picks. -/
theorem Lasting.ite {c : Prop} [Decidable c] {other : StateT (List β) (Except ε) α}
    (yes : Lasting out reader) (no : Lasting out other) :
    Lasting out (if c then reader else other) := by
  by_cases holds : c
  · rwa [if_pos holds]
  · rwa [if_neg holds]

/-- A reader that takes all tokens runs out of them on any shorter front. -/
theorem Lasting.runs_out (lasting : Lasting out reader) {front back : List β} {value : α}
    (whole : reader (front ++ back) = .ok (value, [])) (short : back ≠ []) :
    reader front = .error out := by
  cases answer : reader front with
  | ok found =>
    obtain ⟨early, rest⟩ := found
    have same := (lasting.ok back answer).symm.trans whole
    have nothing : rest ++ back = [] := (Prod.mk.inj (Except.ok.inj same)).2
    exact absurd (List.append_eq_nil_iff.mp nothing).2 short
  | error bad =>
    by_contra other
    have differ : bad ≠ out := fun same => other (congrArg Except.error same)
    cases (lasting.error back answer differ).symm.trans whole

end Lasting

/-! ## Strict readers -/

/-- Of what the lenient reader reads after `before`, the strict reader accepts
exactly what the writer writes for the answer, and the writer takes as many tokens
as were read. -/
structure Tightens (before : List β) (lenient strict : StateT (List β) (Except ε) α)
    (write : α → List β) : Prop where
  accepts : ∀ {tokens rest : List β} {value : α}, strict tokens = .ok (value, rest) →
    lenient tokens = .ok (value, rest)
  spans : ∀ {tokens rest : List β} {value : α}, lenient tokens = .ok (value, rest) →
    ∃ front body, tokens = front ++ rest ∧ write value = before ++ body ∧
      front.length = body.length ∧ (strict tokens = .ok (value, rest) ↔ front = body)

section Strict

variable {before : List β} {lenient strict : StateT (List β) (Except ε) α} {write : α → List β}

/-- A reader that takes nothing but what the writer writes. -/
theorem tightens_self (exact : ∀ {tokens rest : List β} {value : α},
    lenient tokens = .ok (value, rest) → tokens = write value ++ rest) :
    Tightens [] lenient lenient write where
  accepts read := read
  spans := by
    intro tokens rest value read
    exact ⟨write value, write value, exact read, rfl, rfl, by simp [read]⟩

/-- An answer that is known is told by what was written before. -/
theorem tightens_pure {value : α} (written : write value = before) :
    Tightens before (pure value : StateT (List β) (Except ε) α) (pure value) write where
  accepts read := read
  spans := by
    intro tokens rest answer read
    obtain ⟨rfl, rfl⟩ := pure_ok_iff.mp read
    exact ⟨[], [], rfl, by rw [written, List.append_nil], rfl, by simp [read]⟩

/-- Readers that never answer agree. -/
theorem tightens_fail (left : ∀ tokens answer, lenient tokens ≠ .ok answer)
    (right : ∀ tokens answer, strict tokens ≠ .ok answer) :
    Tightens before lenient strict write where
  accepts read := absurd read (right _ _)
  spans read := absurd read (left _ _)

/-- A condition picks the branch of both readers. -/
theorem Tightens.ite {c : Prop} [Decidable c] {lenient' strict' : StateT (List β) (Except ε) α}
    (yes : c → Tightens before lenient strict write)
    (no : ¬ c → Tightens before lenient' strict' write) :
    Tightens before (if c then lenient else lenient') (if c then strict else strict') write := by
  by_cases holds : c
  · rw [if_pos holds, if_pos holds]
    exact yes holds
  · rw [if_neg holds, if_neg holds]
    exact no holds

/-- What the first readers have in common is written before what the second ones
read, and these may rely on the lenient answer. -/
theorem Tightens.bind {w : α → List β} {write : γ → List β}
    {next next' : α → StateT (List β) (Except ε) γ} (leads : Tightens [] lenient strict w)
    (follows : ∀ value, (∃ tokens rest, lenient tokens = .ok (value, rest)) →
      Tightens (before ++ w value) (next value) (next' value) write) :
    Tightens before (lenient >>= next) (strict >>= next') write where
  accepts := by
    intro tokens rest result read
    obtain ⟨value, middle, first, later⟩ := bind_ok_iff.mp read
    have first' := leads.accepts first
    exact bind_ok_iff.mpr ⟨value, middle, first',
      (follows value ⟨tokens, middle, first'⟩).accepts later⟩
  spans := by
    intro tokens rest result read
    obtain ⟨value, middle, first, later⟩ := bind_ok_iff.mp read
    obtain ⟨front, _, rfl, written, lengths, accepted⟩ := leads.spans first
    rw [List.nil_append] at written
    obtain ⟨front', body', rfl, written', lengths', accepted'⟩ :=
      (follows value ⟨_, _, first⟩).spans later
    subst written
    refine ⟨front ++ front', w value ++ body', by simp, by simp [written'],
      by simp [lengths, lengths'], ?_⟩
    constructor
    · intro tight
      obtain ⟨value', middle', first', later'⟩ := bind_ok_iff.mp tight
      obtain ⟨rfl, rfl⟩ : value = value' ∧ front' ++ rest = middle' := by
        simpa using first.symm.trans (leads.accepts first')
      rw [accepted.mp first', accepted'.mp later']
    · intro same
      obtain ⟨same, same'⟩ := List.append_inj same lengths
      exact bind_ok_iff.mpr ⟨value, _, accepted.mpr same, accepted'.mpr same'⟩

end Strict

/-! ## Notes taken on the way -/

section Notes

universe v
variable {ν : Type v} {reader : StateT (List β) (Except ε) α}

/-- The notes that are taken after a reader, on what it left and with what it
answered. If it failed there are none. -/
def follow (reader : StateT (List β) (Except ε) α) (notes : α → List β → List ν)
    (tokens : List β) : List ν :=
  match reader tokens with
  | .ok (value, rest) => notes value rest
  | .error _ => []

/-- What is noted after an answer. -/
theorem follow_ok {notes : α → List β → List ν} {tokens rest : List β} {value : α}
    (read : reader tokens = .ok (value, rest)) : follow reader notes tokens = notes value rest := by
  rw [follow, read]

/-- Whenever the reader succeeds, it has taken that many tokens or more. -/
structure Takes (least : Nat) (reader : StateT (List β) (Except ε) α) : Prop where
  left : ∀ {tokens rest : List β} {value : α}, reader tokens = .ok (value, rest) →
    rest.length + least ≤ tokens.length

/-- An answer takes no token. -/
theorem takes_pure (value : α) : Takes 0 (pure value : StateT (List β) (Except ε) α) where
  left read := by
    obtain ⟨_, rfl⟩ := pure_ok_iff.mp read
    exact Nat.le_refl _

/-- A reader that takes so many tokens takes any smaller number of them, too. -/
theorem Takes.weaken {least fewer : Nat} (takes : Takes least reader) (le : fewer ≤ least) :
    Takes fewer reader where
  left read := Nat.le_trans (Nat.add_le_add_left le _) (takes.left read)

/-- A reader never puts tokens back. -/
theorem Takes.zero {least : Nat} (takes : Takes least reader) : Takes 0 reader :=
  takes.weaken (Nat.zero_le least)

/-- One reader after another takes what both take. -/
theorem Takes.bind {next : α → StateT (List β) (Except ε) γ} {first second : Nat}
    (leads : Takes first reader) (follows : ∀ value, Takes second (next value)) :
    Takes (first + second) (reader >>= next) where
  left read := by
    obtain ⟨value, middle, early, later⟩ := bind_ok_iff.mp read
    have took := leads.left early
    have took' := (follows value).left later
    omega

/-- What the first reader takes, whatever comes after it. -/
theorem Takes.first {next : α → StateT (List β) (Except ε) γ} {least : Nat}
    (leads : Takes least reader) (follows : ∀ value, Takes 0 (next value)) :
    Takes least (reader >>= next) :=
  leads.bind follows

/-- A condition picks between readers that take as much. -/
theorem Takes.ite {c : Prop} [Decidable c] {other : StateT (List β) (Except ε) α} {least : Nat}
    (yes : Takes least reader) (no : Takes least other) :
    Takes least (if c then reader else other) := by
  by_cases holds : c
  · rwa [if_pos holds]
  · rwa [if_neg holds]

/-- Whenever the reader succeeds, no note on its way weighs more than the tokens
that were there. -/
structure Affordable (weight : ν → Nat) (reader : StateT (List β) (Except ε) α)
    (notes : List β → List ν) : Prop where
  paid : ∀ {tokens rest : List β} {value : α}, reader tokens = .ok (value, rest) →
    ∀ note ∈ notes tokens, weight note ≤ tokens.length

variable {weight : ν → Nat}

/-- A reader on whose way nothing is noted. -/
theorem affordable_silent (reader : StateT (List β) (Except ε) α) :
    Affordable weight reader (fun _ => []) where
  paid _ _ member := absurd member List.not_mem_nil

/-- The notes of a reader after which nothing is noted. -/
theorem Affordable.last {notes : List β → List ν} (leads : Affordable weight reader notes)
    (next : α → StateT (List β) (Except ε) γ) : Affordable weight (reader >>= next) notes where
  paid read := by
    obtain ⟨value, middle, first, _⟩ := bind_ok_iff.mp read
    exact leads.paid first

/-- The notes of one reader, and then those of the next, which finds no more
tokens. -/
theorem Affordable.bind {next : α → StateT (List β) (Except ε) γ} {notes : List β → List ν}
    {later : α → List β → List ν} (leads : Affordable weight reader notes)
    (takes : Takes 0 reader) (follows : ∀ value, Affordable weight (next value) (later value)) :
    Affordable weight (reader >>= next) (fun tokens => notes tokens ++ follow reader later tokens)
    where
  paid := by
    intro tokens rest result read note member
    obtain ⟨value, middle, first, second⟩ := bind_ok_iff.mp read
    rw [follow_ok first] at member
    rcases List.mem_append.mp member with early | late
    · exact leads.paid first note early
    · have shorter : middle.length ≤ tokens.length := takes.left first
      exact Nat.le_trans ((follows value).paid second note late) shorter

/-- A silent reader, and then the notes of the next. -/
theorem Takes.affordable {next : α → StateT (List β) (Except ε) γ}
    {later : α → List β → List ν} (takes : Takes 0 reader)
    (follows : ∀ value, Affordable weight (next value) (later value)) :
    Affordable weight (reader >>= next) (follow reader later) where
  paid := by
    intro tokens rest result read note member
    obtain ⟨value, middle, first, second⟩ := bind_ok_iff.mp read
    rw [follow_ok first] at member
    have shorter : middle.length ≤ tokens.length := takes.left first
    exact Nat.le_trans ((follows value).paid second note member) shorter

/-- A condition picks between readers that note what their tokens pay for. -/
theorem Affordable.ite {c : Prop} [Decidable c] {other : StateT (List β) (Except ε) α}
    {notes notes' : List β → List ν} (yes : Affordable weight reader notes)
    (no : Affordable weight other notes') :
    Affordable weight (if c then reader else other) (if c then notes else notes') := by
  by_cases holds : c
  · rwa [if_pos holds, if_pos holds]
  · rwa [if_neg holds, if_neg holds]

end Notes

end Parsing
