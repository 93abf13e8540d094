import Mathlib.Data.List.Forall2

/-!
# Indexed scans that may stop

A scan visits the items of a list in order, handing each item its position. A
step that answers `none` abandons the whole scan: in a program that indexes
arrays this is the failed index. The invariant rule below is the only induction
over such a loop that its users need.
-/

namespace Enumerate

universe u v
variable {α : Type u} {σ : Type v}

section Lookups

variable {β : Type v}

/-- A list of lookups succeeds exactly when each of them does. -/
theorem mapM_eq_some_iff (lookup : α → Option β) (items : List α) (found : List β) :
    items.mapM lookup = some found ↔ items.map lookup = found.map some := by
  induction items generalizing found with
  | nil => cases found <;> simp
  | cons item rest ih =>
    cases first : lookup item with
    | none => cases found <;> simp [first]
    | some value =>
      cases found with
      | nil => cases others : rest.mapM lookup <;> simp [first, others]
      | cons head tail =>
        simp only [List.mapM_cons, first, List.map_cons, List.cons.injEq, Option.some.injEq]
        rw [← ih tail]
        cases others : rest.mapM lookup <;> simp

/-- A lookup that finds every item finds the list of what it finds. -/
theorem mapM_complete (lookup : α → Option β) (value : α → β) (items : List α)
    (found : ∀ item ∈ items, lookup item = some (value item)) :
    items.mapM lookup = some (items.map value) := by
  rw [mapM_eq_some_iff, List.map_map]
  exact List.map_congr_left found

/-- Actions that have no effect, in any monad. -/
theorem mapM_eq_pure {m : Type v → Type w} [Monad m] [LawfulMonad m] {act : α → m β}
    {value : α → β} {items : List α} (did : ∀ item ∈ items, act item = pure (value item)) :
    items.mapM act = pure (items.map value) := by
  induction items with
  | nil => rw [List.mapM_nil, List.map_nil]
  | cons item rest ih =>
    rw [List.mapM_cons, did item List.mem_cons_self, pure_bind,
      ih (fun item member => did item (List.mem_cons_of_mem _ member)), pure_bind, List.map_cons]

/-- A pass that may raise returns what every action returns. -/
theorem mapM_ok_iff {ε : Type u} {act : α → Except ε β} {items : List α} {found : List β} :
    items.mapM act = .ok found ↔ List.Forall₂ (fun item value => act item = .ok value) items found := by
  induction items generalizing found with
  | nil =>
    rw [List.mapM_nil, List.forall₂_nil_left_iff]
    exact ⟨fun same => (Except.ok.inj same).symm, fun same => congrArg Except.ok same.symm⟩
  | cons item rest ih =>
    rw [List.mapM_cons, List.forall₂_cons_left_iff]
    cases first : act item with
    | error e =>
      refine iff_of_false (fun same => ?_) (fun found => ?_)
      · cases same
      · obtain ⟨_, _, raised, _⟩ := found
        cases raised
    | ok value =>
      cases others : rest.mapM act with
      | error e =>
        refine iff_of_false (fun same => ?_) (fun found => ?_)
        · cases same
        · obtain ⟨_, values, _, more, _⟩ := found
          cases others.symm.trans (ih.mpr more)
      | ok values =>
        constructor
        · intro same
          exact ⟨value, values, rfl, ih.mp others, (Except.ok.inj same).symm⟩
        · rintro ⟨value', values', head, tail, rfl⟩
          obtain rfl := Except.ok.inj head
          obtain rfl := Except.ok.inj (others.symm.trans (ih.mpr tail))
          rfl

/-- A list of lookups succeeds when every item is found. -/
theorem mapM_exists_iff (lookup : α → Option β) (items : List α) :
    (∃ found, items.mapM lookup = some found) ↔
      ∀ item ∈ items, ∃ value, lookup item = some value := by
  constructor
  · rintro ⟨found, all⟩ item member
    have value : lookup item ∈ found.map some :=
      (mapM_eq_some_iff lookup items found).mp all ▸ List.mem_map_of_mem member
    obtain ⟨value, _, same⟩ := List.mem_map.mp value
    exact ⟨value, same.symm⟩
  · intro each
    induction items with
    | nil => exact ⟨[], rfl⟩
    | cons item rest ih =>
      obtain ⟨value, first⟩ := each item List.mem_cons_self
      obtain ⟨found, others⟩ := ih (fun other member => each other (List.mem_cons_of_mem item member))
      exact ⟨value :: found, by simp [first, others]⟩

/-- A pass that may raise returns when every action does. -/
theorem mapM_ok_exists_iff {ε : Type u} {act : α → Except ε β} {items : List α} :
    (∃ found, items.mapM act = .ok found) ↔ ∀ item ∈ items, ∃ value, act item = .ok value := by
  simp only [mapM_ok_iff]
  constructor
  · rintro ⟨found, pairs⟩ item member
    obtain ⟨k, inside, rfl⟩ := List.getElem_of_mem member
    obtain ⟨lengths, did⟩ := List.forall₂_iff_get.mp pairs
    exact ⟨_, did k inside (lengths ▸ inside)⟩
  · intro each
    induction items with
    | nil => exact ⟨[], .nil⟩
    | cons item rest ih =>
      obtain ⟨value, first⟩ := each item List.mem_cons_self
      obtain ⟨found, others⟩ := ih (fun other member => each other (List.mem_cons_of_mem item member))
      exact ⟨value :: found, .cons first others⟩

/-- What holds of every lookup holds of the list of them, position by position. -/
theorem mapM_found {lookup : α → Option β} {P : α → β → Prop} {items : List α}
    (each : ∀ item ∈ items, ∃ value, lookup item = some value ∧ P item value) :
    ∃ found, items.mapM lookup = some found ∧ List.Forall₂ P items found := by
  induction items with
  | nil => exact ⟨[], rfl, .nil⟩
  | cons item rest ih =>
    obtain ⟨value, first, holds⟩ := each item List.mem_cons_self
    obtain ⟨found, others, all⟩ :=
      ih (fun other member => each other (List.mem_cons_of_mem item member))
    exact ⟨value :: found, by simp [first, others], .cons holds all⟩

/-- Lookups that agree on the items agree on the list. -/
theorem mapM_congr (left right : α → Option β) (items : List α)
    (same : ∀ item ∈ items, left item = right item) :
    items.mapM left = items.mapM right := by
  induction items with
  | nil => rfl
  | cons item rest ih =>
    rw [List.mapM_cons, List.mapM_cons, same item List.mem_cons_self,
      ih (fun other member => same other (List.mem_cons_of_mem item member))]

/-- Two lists of lookups that agree position by position. -/
theorem mapM_forall₂ {γ : Type u} {left : α → Option β} {right : γ → Option β} {items : List α}
    {others : List γ}
    (agree : List.Forall₂ (fun item other => left item = right other) items others) :
    items.mapM left = others.mapM right := by
  induction agree with
  | nil => rfl
  | cons same _ ih => rw [List.mapM_cons, List.mapM_cons, same, ih]

/-- Every item of one list has a partner in the other. -/
theorem forall₂_partner {γ : Type u} {R : α → γ → Prop} {xs : List α} {ys : List γ}
    (pairs : List.Forall₂ R xs ys) {x : α} (member : x ∈ xs) : ∃ y ∈ ys, R x y := by
  obtain ⟨k, inside, rfl⟩ := List.getElem_of_mem member
  obtain ⟨lengths, related⟩ := List.forall₂_iff_get.mp pairs
  exact ⟨_, List.get_mem _ ⟨k, lengths ▸ inside⟩, related k inside (lengths ▸ inside)⟩

end Lookups

/-- Visit the items in order, the first one at position `index`. -/
def scanFrom (step : σ → Nat → α → Option σ) : Nat → List α → σ → Option σ
  | _, [], state => some state
  | index, item :: rest, state =>
      (step state index item).bind (scanFrom step (index + 1) rest)

/-- Visit the items in order from position zero. -/
def scan (step : σ → Nat → α → Option σ) (items : List α) (state : σ) : Option σ :=
  scanFrom step 0 items state

/-- Scanning mapped items is scanning with the map in the step. -/
theorem scanFrom_map {β : Type u} (step : σ → Nat → β → Option σ) (f : α → β) (items : List α)
    (index : Nat) (state : σ) : scanFrom step index (items.map f) state =
      scanFrom (fun state index item => step state index (f item)) index items state := by
  induction items generalizing index state with
  | nil => rfl
  | cons item rest ih =>
    rw [List.map_cons, scanFrom, scanFrom]
    exact congrArg (Option.bind _) (funext (ih (index + 1)))

/-- A scan of renamed items is a scan that renames each item. -/
theorem scan_map {β : Type u} (step : σ → Nat → β → Option σ) (f : α → β) (items : List α)
    (state : σ) : scan step (items.map f) state =
      scan (fun state index item => step state index (f item)) items state :=
  scanFrom_map step f items 0 state

/-- A scan whose every step keeps the invariant comes to an end, with the
invariant at the position after the last item. -/
theorem scan_from_complete (step : σ → Nat → α → Option σ) (invariant : Nat → σ → Prop)
    (items : List α) (index : Nat) (state : σ) (holds : invariant index state)
    (preserved : ∀ (offset : Nat) (item : α) (current : σ), items[offset]? = some item →
      invariant (index + offset) current →
      ∃ next, step current (index + offset) item = some next ∧
        invariant (index + offset + 1) next) :
    ∃ final, scanFrom step index items state = some final ∧
      invariant (index + items.length) final := by
  induction items generalizing index state with
  | nil => exact ⟨state, rfl, holds⟩
  | cons item rest ih =>
    obtain ⟨next, stepped, advanced⟩ := preserved 0 item state rfl holds
    have later : ∀ (offset : Nat) (found : α) (current : σ), rest[offset]? = some found →
        invariant (index + 1 + offset) current →
        ∃ next, step current (index + 1 + offset) found = some next ∧
          invariant (index + 1 + offset + 1) next := by
      intro offset found current lookup kept
      have shifted : index + 1 + offset = index + (offset + 1) := by omega
      rw [shifted] at kept ⊢
      exact preserved (offset + 1) found current (by simpa using lookup) kept
    obtain ⟨final, finished, kept⟩ := ih (index + 1) next advanced later
    refine ⟨final, ?_, ?_⟩
    · simpa [scanFrom, show step state index item = some next from stepped] using finished
    · simpa [Nat.add_assoc, Nat.add_comm 1] using kept

/-- A loop invariant that holds before the scan and is kept by every step, which
therefore never stops, holds after the last item. -/
theorem scan_complete (step : σ → Nat → α → Option σ) (invariant : Nat → σ → Prop)
    (items : List α) (state : σ) (holds : invariant 0 state)
    (preserved : ∀ (index : Nat) (item : α) (current : σ), items[index]? = some item →
      invariant index current →
      ∃ next, step current index item = some next ∧ invariant (index + 1) next) :
    ∃ final, scan step items state = some final ∧ invariant items.length final := by
  obtain ⟨final, finished, kept⟩ := scan_from_complete step invariant items 0 state holds
    (by simpa using preserved)
  exact ⟨final, finished, by simpa using kept⟩

end Enumerate
