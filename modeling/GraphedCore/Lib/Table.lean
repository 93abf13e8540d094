import GraphedCore.Lib.Dag

/-!
# Finite maps searched with a Boolean equality

A table is the list of its insertions, newest first, and is searched with an
equality supplied by its user. That equality compares canonical forms, so the
table is a finite map on canonical forms.

The usual table sits beside a list and records where every item of the list
stands. Such an index answers exactly the positions of the list.
-/

namespace Table

universe u v w
variable {κ : Type u} {ν : Type v} {γ : Type w}

/-- The newest value stored under an equal key. -/
def get? (same : κ → κ → Bool) (table : List (κ × ν)) (key : κ) : Option ν :=
  (table.find? (fun entry => same entry.1 key)).map Prod.snd

/-- Keep the stored value, or store the supplied one. -/
def orInsert (same : κ → κ → Bool) (table : List (κ × ν)) (key : κ) (value : ν) :
    List (κ × ν) :=
  match get? same table key with
  | some _ => table
  | none => (key, value) :: table

/-- An equality that compares canonical forms. -/
def Compares (same : κ → κ → Bool) (canon : κ → γ) : Prop :=
  ∀ a b, same a b = true ↔ canon a = canon b

/-- Equality compares keys by themselves. -/
theorem compares_beq [BEq κ] [LawfulBEq κ] : Compares (· == · : κ → κ → Bool) id := by
  intro a b
  simp

variable {same : κ → κ → Bool} {canon : κ → γ}

/-- An empty table finds nothing. -/
@[simp] theorem get?_nil (key : κ) : get? same ([] : List (κ × ν)) key = none := rfl

/-- The newest entry is looked at first. -/
theorem get?_cons (table : List (κ × ν)) (stored key : κ) (value : ν) :
    get? same ((stored, value) :: table) key =
      if same stored key then some value else get? same table key := by
  by_cases equal : same stored key = true <;> simp [get?, equal]

/-- Keys that count as equal find the same. -/
theorem get?_congr (compares : Compares same canon) (table : List (κ × ν)) {key other : κ}
    (equal : canon key = canon other) : get? same table key = get? same table other := by
  have agree : ∀ stored, same stored key = same stored other := by
    intro stored
    rw [Bool.eq_iff_iff, compares, compares, equal]
  simp [get?, agree]

/-- Inserting keeps every answer that there was, and answers the new key where
there was none. -/
theorem get?_orInsert (compares : Compares same canon) (table : List (κ × ν)) (stored key : κ)
    (value : ν) : get? same (orInsert same table stored value) key =
      (get? same table key).or (if same stored key then some value else none) := by
  cases present : get? same table stored with
  | none =>
    simp only [orInsert, present, get?_cons]
    by_cases equal : same stored key = true
    · have absent := get?_congr compares table ((compares _ _).mp equal)
      rw [present] at absent
      simp [equal, ← absent]
    · simp [equal]
  | some old =>
    simp only [orInsert, present]
    by_cases equal : same stored key = true
    · have found := get?_congr compares table ((compares _ _).mp equal)
      rw [present] at found
      simp [← found]
    · simp [equal]

/-- Storing every item under its name, first come first stored, finds the first
item of that name. -/
theorem get?_foldl_orInsert (compares : Compares same canon) (name : ν → κ) (items : List ν)
    (table : List (κ × ν)) (key : κ) :
    get? same (items.foldl (fun table item => orInsert same table (name item) item) table) key =
      (get? same table key).or (items.find? (fun item => same (name item) key)) := by
  induction items generalizing table with
  | nil => simp
  | cons item rest ih =>
    rw [List.foldl_cons, ih, get?_orInsert compares, Option.or_assoc]
    congr 1
    by_cases equal : same (name item) key = true <;> simp [equal]

/-! ## Indexes of a list -/

/-- The table answers a key with the position of an equal item, and no two items
are equal. -/
def Indexes (same : κ → κ → Bool) (table : List (κ × Nat)) (items : List κ) : Prop :=
  ∀ key i, get? same table key = some i ↔ ∃ item, items[i]? = some item ∧ same item key = true

/-- The empty table indexes the empty list. -/
theorem indexes_nil : Indexes same [] [] := by
  intro key i
  simp

/-- A key that was not found is indexed at the end. -/
theorem Indexes.snoc {table : List (κ × Nat)} {items : List κ} {fresh : κ}
    (indexes : Indexes same table items) (compares : Compares same canon)
    (absent : get? same table fresh = none) :
    Indexes same ((fresh, items.length) :: table) (items ++ [fresh]) := by
  intro key i
  rw [get?_cons]
  by_cases equal : same fresh key = true
  · rw [if_pos equal, Option.some.injEq]
    constructor
    · rintro rfl
      exact ⟨fresh, by simp, equal⟩
    · rintro ⟨item, lookup, matched⟩
      rcases (Dag.getElem?_snoc items fresh item i).mp lookup with old | ⟨rfl, rfl⟩
      · have found : get? same table fresh = some i := (indexes fresh i).mpr
          ⟨item, old, (compares _ _).mpr (((compares _ _).mp matched).trans
            ((compares _ _).mp equal).symm)⟩
        rw [absent] at found
        cases found
      · rfl
  · rw [if_neg equal, indexes key i]
    constructor
    · rintro ⟨item, lookup, matched⟩
      exact ⟨item, (Dag.getElem?_snoc items fresh item i).mpr (Or.inl lookup), matched⟩
    · rintro ⟨item, lookup, matched⟩
      rcases (Dag.getElem?_snoc items fresh item i).mp lookup with old | ⟨rfl, rfl⟩
      · exact ⟨item, old, matched⟩
      · exact absurd matched equal

/-- No two positions hold keys that count as equal. -/
theorem Indexes.injective {table : List (κ × Nat)} {items : List κ}
    (indexes : Indexes same table items) {i j : Nat} {item other : κ}
    (first : items[i]? = some item) (second : items[j]? = some other)
    (equal : same item other = true) (reflexive : ∀ key, same key key = true) : i = j := by
  have left : get? same table other = some i := (indexes other i).mpr ⟨item, first, equal⟩
  have right : get? same table other = some j := (indexes other j).mpr ⟨other, second, reflexive _⟩
  rw [left] at right
  exact Option.some.inj right

/-- A key counts as equal to itself. -/
theorem Compares.reflexive (compares : Compares same canon) (key : κ) : same key key = true :=
  (compares key key).mpr rfl

/-- Nothing is found exactly for the keys that equal no item. -/
theorem Indexes.absent {table : List (κ × Nat)} {items : List κ}
    (indexes : Indexes same table items) {key : κ} :
    get? same table key = none ↔ ∀ item ∈ items, same item key = false := by
  constructor
  · intro missing item member
    obtain ⟨i, lookup⟩ := List.mem_iff_getElem?.mp member
    by_contra matched
    have found := (indexes key i).mpr ⟨item, lookup, by simpa using matched⟩
    rw [missing] at found
    cases found
  · intro distinct
    cases found : get? same table key with
    | none => rfl
    | some i =>
      obtain ⟨item, lookup, matched⟩ := (indexes key i).mp found
      rw [distinct item (List.mem_iff_getElem?.mpr ⟨i, lookup⟩)] at matched
      cases matched

/-! ## Maps behind an interface -/

/-- A map that a component keeps its keys in: what it starts from, what it answers
for a key, and what it holds once a value is stored. A component that is written
over the interface is the same program over every map. -/
class Keyed (κ : outParam (Type u)) (ν : outParam (Type v)) (τ : Type w) where
  empty : τ
  get? : τ → κ → Option ν
  insert : τ → κ → ν → τ

/-- A map that answers as a search does: with what was stored last under an equal
key. -/
class LawfulKeyed (τ : Type w) [Keyed κ ν τ] (same : outParam (κ → κ → Bool)) : Prop where
  get?_empty : ∀ key, Keyed.get? (Keyed.empty : τ) key = none
  get?_insert : ∀ (table : τ) (stored key : κ) (value : ν),
    Keyed.get? (Keyed.insert table stored value) key =
      if same stored key then some value else Keyed.get? table key

namespace Keyed

/-- Two maps, of one kind or of two, that answer every key alike. -/
def Agree {τ τ' : Type w} [Keyed κ ν τ] [Keyed κ ν τ'] (table : τ) (table' : τ') : Prop :=
  ∀ key, Keyed.get? table key = Keyed.get? table' key

variable {τ τ' : Type w} [Keyed κ ν τ] [Keyed κ ν τ']

/-- Maps agree before anything is stored. -/
theorem agree_empty [LawfulKeyed τ same] [LawfulKeyed τ' same] :
    Agree (empty : τ) (empty : τ') := by
  intro key
  rw [LawfulKeyed.get?_empty, LawfulKeyed.get?_empty]

/-- Maps that agree, agree once both store a value under one key. -/
theorem Agree.insert [LawfulKeyed τ same] [LawfulKeyed τ' same] {table : τ} {table' : τ'}
    (agree : Agree table table') (key : κ) (value : ν) :
    Agree (Keyed.insert table key value) (Keyed.insert table' key value) := by
  intro other
  rw [LawfulKeyed.get?_insert, LawfulKeyed.get?_insert, agree other]

end Keyed

end Table
