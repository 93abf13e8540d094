import GraphedCore.Lib.Separated

/-!
# Writings that end themselves

A value is written in front of other values, and nothing tells where its writing ends but the
writing. It ends itself when what follows makes no difference: two writings with something
behind them are the same only if the same was written, up to a canonical form, and the same
stands behind. Items of one length, items before a stop that is not in them, writings in
sequence, behind a tag and behind their number are such writings.
-/

namespace Delimited

universe u v w x y
variable {α : Type u} {β : Type v} {γ : Type w} {α' : Type x} {γ' : Type y}

/-- In front of anything, the writing of an admitted value tells the value and its
end. -/
def EndsItself (valid : α → Prop) (canon : α → γ) (write : α → List β) : Prop :=
  ∀ a b rest rest', valid a → valid b → write a ++ rest = write b ++ rest' →
    canon a = canon b ∧ rest = rest'

section Rules

variable {valid : α → Prop} {canon : α → γ} {write : α → List β}
  {valid' : α' → Prop} {canon' : α' → γ'} {write' : α' → List β}

/-- Two equal words spell one thing: nothing follows them. -/
theorem EndsItself.injective (ends : EndsItself valid canon write) {a b : α} (holds : valid a)
    (holds' : valid b) (same : write a = write b) : canon a = canon b :=
  (ends a b [] [] holds holds' (by rw [same])).1

/-- Where the writing tells all of the value. -/
theorem EndsItself.exact (ends : EndsItself valid id write) {a b : α} {rest rest' : List β}
    (holds : valid a) (holds' : valid b) (same : write a ++ rest = write b ++ rest') :
    a = b ∧ rest = rest' :=
  ends a b rest rest' holds holds' same

/-- Words of one length end by themselves. -/
theorem endsItself_of_length {n : Nat} (length : ∀ a, (write a).length = n)
    (injective : ∀ a b, valid a → valid b → write a = write b → canon a = canon b) :
    EndsItself valid canon write := by
  intro a b rest rest' holds holds' same
  obtain ⟨written, behind⟩ := List.append_inj same ((length a).trans (length b).symm)
  exact ⟨injective a b holds holds' written, behind⟩

/-- A stop that is in no word ends each of them. -/
theorem endsItself_stopped {stop : β} (absent : ∀ a, stop ∉ write a)
    (injective : ∀ a b, valid a → valid b → write a = write b → canon a = canon b) :
    EndsItself valid canon (fun a => write a ++ [stop]) := by
  intro a b rest rest' holds holds' same
  simp only [List.append_assoc, List.singleton_append] at same
  obtain ⟨written, behind⟩ := Separated.split_inj stop (absent a) (absent b) same
  exact ⟨injective a b holds holds' written, behind⟩

/-- One word after another: the first one ends by itself, and then so does the
second. -/
theorem EndsItself.append (first : EndsItself valid canon write)
    (second : EndsItself valid' canon' write') :
    EndsItself (fun p => valid p.1 ∧ valid' p.2) (Prod.map canon canon')
      (fun p => write p.1 ++ write' p.2) := by
  rintro ⟨a, a'⟩ ⟨b, b'⟩ rest rest' ⟨holdsA, holdsA'⟩ ⟨holdsB, holdsB'⟩ same
  simp only [List.append_assoc] at same
  obtain ⟨left, same⟩ := first a b _ _ holdsA holdsB same
  obtain ⟨right, behind⟩ := second a' b' _ _ holdsA' holdsB' same
  exact ⟨Prod.ext left right, behind⟩

/-- A tag in front leaves only values of one tag to be told apart. -/
theorem EndsItself.tagged {tag : α' → α} (tags : EndsItself valid canon write)
    (admitted : ∀ a, valid (tag a))
    (told : ∀ a b rest rest', valid' a → valid' b → canon (tag a) = canon (tag b) →
      write' a ++ rest = write' b ++ rest' → canon' a = canon' b ∧ rest = rest') :
    EndsItself valid' canon' (fun a => write (tag a) ++ write' a) := by
  intro a b rest rest' holds holds' same
  simp only [List.append_assoc] at same
  obtain ⟨tagged, same⟩ := tags _ _ _ _ (admitted a) (admitted b) same
  exact told a b rest rest' holds holds' tagged same

/-- Items behind their number. -/
theorem EndsItself.counted {count : Nat → List β} {few : Nat → Prop}
    (counts : EndsItself few id count) (each : EndsItself valid canon write) :
    EndsItself (fun items => few items.length ∧ ∀ a ∈ items, valid a) (List.map canon)
      (fun items => count items.length ++ items.flatMap write) := by
  have listed (items others : List α) (rest rest' : List β) (length : items.length = others.length)
      (holds : ∀ a ∈ items, valid a) (holds' : ∀ a ∈ others, valid a)
      (same : items.flatMap write ++ rest = others.flatMap write ++ rest') :
      items.map canon = others.map canon ∧ rest = rest' := by
    induction items generalizing others with
    | nil =>
      obtain rfl := List.length_eq_zero_iff.mp length.symm
      exact ⟨rfl, same⟩
    | cons a items ih =>
      obtain ⟨b, others, rfl⟩ := List.exists_cons_of_length_eq_add_one length.symm
      rw [List.flatMap_cons, List.flatMap_cons, List.append_assoc, List.append_assoc] at same
      obtain ⟨head, same⟩ :=
        each a b _ _ (holds a List.mem_cons_self) (holds' b List.mem_cons_self) same
      obtain ⟨tail, behind⟩ := ih others (Nat.succ.inj length)
        (fun c member => holds c (List.mem_cons_of_mem _ member))
        (fun c member => holds' c (List.mem_cons_of_mem _ member)) same
      exact ⟨by rw [List.map_cons, List.map_cons, head, tail], behind⟩
  intro items others rest rest' holds holds' same
  simp only [List.append_assoc] at same
  obtain ⟨length, same⟩ := counts _ _ _ _ holds.1 holds'.1 same
  exact listed items others rest rest' length holds.2 holds'.2 same

end Rules

end Delimited
