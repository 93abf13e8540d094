import Mathlib.Data.List.Basic

/-!
# Text split at separators

A field that does not contain the separator is recovered from what precedes the
first separator, and fields joined by a separator that none of them contains are
recovered one by one. A code that maps every symbol to a nonempty word is
recovered symbol by symbol when no word begins another.
-/

namespace Separated

universe u v
variable {α : Type u} {β : Type v}

/-- The part before the first separator determines the split. -/
theorem split_inj (separator : α) {left left' right right' : List α}
    (free : separator ∉ left) (free' : separator ∉ left')
    (same : left ++ separator :: right = left' ++ separator :: right') :
    left = left' ∧ right = right' := by
  induction left generalizing left' with
  | nil =>
    cases left' with
    | nil => simpa using same
    | cons x rest =>
      obtain ⟨rfl, _⟩ := List.cons.inj same
      simp at free'
  | cons x rest ih =>
    cases left' with
    | nil =>
      obtain ⟨rfl, _⟩ := List.cons.inj same
      simp at free
    | cons y rest' =>
      obtain ⟨rfl, tails⟩ := List.cons.inj same
      obtain ⟨rfl, rights⟩ := ih (fun member => free (List.mem_cons_of_mem x member))
        (fun member => free' (List.mem_cons_of_mem x member)) tails
      exact ⟨rfl, rights⟩

/-- An optional tail begins with the separator. -/
theorem optional_inj (separator : α) {left left' : List α} {tail tail' : Option (List α)}
    (free : separator ∉ left) (free' : separator ∉ left')
    (same : left ++ (tail.map (separator :: ·)).getD [] =
      left' ++ (tail'.map (separator :: ·)).getD []) :
    left = left' ∧ tail = tail' := by
  cases tail with
  | none =>
    cases tail' with
    | none => simpa using same
    | some right' =>
      have clash : left = left' ++ separator :: right' := by simpa using same
      exact absurd (by simp [clash]) free
  | some right =>
    cases tail' with
    | none =>
      have clash : left' = left ++ separator :: right := by simpa using same.symm
      exact absurd (by simp [clash]) free'
    | some right' =>
      obtain ⟨lefts, rights⟩ := split_inj separator free free' (by simpa using same)
      exact ⟨lefts, congrArg some rights⟩

/-- Nonempty lists of fields joined by a separator that no field contains. -/
theorem intercalate_inj (separator : α) {fields fields' : List (List α)}
    (free : ∀ field ∈ fields, separator ∉ field) (free' : ∀ field ∈ fields', separator ∉ field)
    (some_field : fields ≠ []) (some_field' : fields' ≠ [])
    (same : List.intercalate [separator] fields = List.intercalate [separator] fields') :
    fields = fields' := by
  induction fields generalizing fields' with
  | nil => exact absurd rfl some_field
  | cons x rest ih =>
    cases fields' with
    | nil => exact absurd rfl some_field'
    | cons y rest' =>
      have joined (z : List α) (more : List (List α)) : List.intercalate [separator] (z :: more) =
          z ++ ((if more = [] then none else some (List.intercalate [separator] more)).map
            (separator :: ·)).getD [] := by
        cases more with
        | nil => simp
        | cons w more => simp [List.intercalate_cons_cons]
      rw [joined, joined] at same
      obtain ⟨rfl, tails⟩ := optional_inj separator (free x List.mem_cons_self)
        (free' y List.mem_cons_self) same
      by_cases last : rest = []
      · by_cases last' : rest' = []
        · rw [last, last']
        · simp [last, last'] at tails
      · by_cases last' : rest' = []
        · simp [last, last'] at tails
        · simp only [last, last', if_false, Option.some.injEq] at tails
          rw [ih (fun field member => free field (List.mem_cons_of_mem x member))
            (fun field member => free' field (List.mem_cons_of_mem x member)) last last' tails]

/-! ## Splitting -/

section Splitting

variable [DecidableEq α]

/-- What precedes the first separator, and what follows it. -/
def splitOnce (separator : α) : List α → Option (List α × List α)
  | [] => none
  | x :: rest =>
    if x = separator then some ([], rest)
    else (splitOnce separator rest).map (fun split => (x :: split.1, split.2))

/-- At most `n` parts, of which only the last may contain the separator. -/
def splitN (separator : α) : Nat → List α → List (List α)
  | 0, _ => []
  | 1, text => [text]
  | n + 2, text =>
    match splitOnce separator text with
    | none => [text]
    | some (part, rest) => part :: splitN separator (n + 1) rest

/-- A text is split at the first separator. -/
theorem splitOnce_append {separator : α} {left : List α} (free : separator ∉ left)
    (right : List α) : splitOnce separator (left ++ separator :: right) = some (left, right) := by
  induction left with
  | nil => simp [splitOnce]
  | cons x rest ih =>
    rw [List.mem_cons, not_or] at free
    rw [List.cons_append, splitOnce, if_neg (Ne.symm free.1), ih free.2]
    rfl

/-- Without a separator nothing is split. -/
theorem splitOnce_free {separator : α} {text : List α} (free : separator ∉ text) :
    splitOnce separator text = none := by
  induction text with
  | nil => rfl
  | cons x rest ih =>
    rw [List.mem_cons, not_or] at free
    rw [splitOnce, if_neg (Ne.symm free.1), ih free.2]
    rfl

/-- The first part ends at the first separator, and one part less is left to split
off. -/
theorem splitN_append {separator : α} {left : List α} (free : separator ∉ left) (n : Nat)
    (right : List α) :
    splitN separator (n + 2) (left ++ separator :: right) =
      left :: splitN separator (n + 1) right := by
  rw [splitN, splitOnce_append free]

/-- Without a separator the text is the only part. -/
theorem splitN_free {separator : α} {text : List α} (free : separator ∉ text) (n : Nat) :
    splitN separator (n + 1) text = [text] := by
  cases n with
  | zero => rfl
  | succ n => rw [splitN, splitOnce_free free]

end Splitting

/-! ## Codes -/

/-- No code word begins another, and none is empty. -/
structure PrefixFree (code : β → List α) : Prop where
  nonempty : ∀ b, code b ≠ []
  recover : ∀ b b' rest rest', code b ++ rest = code b' ++ rest' → b = b'

/-- Code words of which none begins another can be told in a row. -/
theorem flatMap_inj {code : β → List α} (prefixFree : PrefixFree code) {xs ys : List β}
    (same : xs.flatMap code = ys.flatMap code) : xs = ys := by
  induction xs generalizing ys with
  | nil =>
    cases ys with
    | nil => rfl
    | cons y rest =>
      have nothing : [] = code y ++ rest.flatMap code := same
      exact absurd (List.append_eq_nil_iff.mp nothing.symm).1 (prefixFree.nonempty y)
  | cons x rest ih =>
    cases ys with
    | nil =>
      have nothing : code x ++ rest.flatMap code = [] := same
      exact absurd (List.append_eq_nil_iff.mp nothing).1 (prefixFree.nonempty x)
    | cons y rest' =>
      have both : code x ++ rest.flatMap code = code y ++ rest'.flatMap code := same
      obtain rfl := prefixFree.recover x y _ _ both
      rw [ih (List.append_cancel_left both)]

/-- Words that are followed by something that begins no word. -/
theorem terminated_inj {code : β → List α} (prefixFree : PrefixFree code) {stop : α}
    (begins : ∀ b, stop ∉ (code b).head?) {xs ys : List β} {rest rest' : List α}
    (same : xs.flatMap code ++ stop :: rest = ys.flatMap code ++ stop :: rest') :
    xs = ys ∧ rest = rest' := by
  have clash (y : β) (tail tail' : List α) (bad : stop :: tail = code y ++ tail') : False := by
    cases word : code y with
    | nil => exact prefixFree.nonempty y word
    | cons first others =>
      rw [word, List.cons_append] at bad
      exact begins y (by rw [word, ← (List.cons.inj bad).1]; rfl)
  induction xs generalizing ys with
  | nil =>
    cases ys with
    | nil => exact ⟨rfl, (List.cons.inj same).2⟩
    | cons y more => exact (clash y _ _ (by simpa using same)).elim
  | cons x more ih =>
    cases ys with
    | nil => exact (clash x _ _ (by simpa using same.symm)).elim
    | cons y more' =>
      simp only [List.flatMap_cons, List.append_assoc] at same
      obtain rfl := prefixFree.recover x y _ _ same
      obtain ⟨rfl, rests⟩ := ih (List.append_cancel_left same)
      exact ⟨rfl, rests⟩

/-! ## Words of equal lengths -/

/-- Two words of one length that tell whether `same` holds. -/
structure Tells (word word' : List α) (same : Prop) : Prop where
  length : word.length = word'.length
  tells : word = word' → same

/-- A word is as long as itself. -/
theorem Tells.self (word : List α) : Tells word word True := ⟨rfl, fun _ => trivial⟩

/-- What words tell, they tell of anything that follows from it. -/
theorem Tells.imp {word word' : List α} {same same' : Prop} (told : Tells word word' same)
    (weaker : same → same') : Tells word word' same' :=
  ⟨told.length, fun equal => weaker (told.tells equal)⟩

/-- One word after another: the lengths say where the second one starts. -/
theorem Tells.append {word word' rest rest' : List α} {same same' : Prop}
    (told : Tells word word' same) (told' : Tells rest rest' same') :
    Tells (word ++ rest) (word' ++ rest') (same ∧ same') where
  length := by rw [List.length_append, List.length_append, told.length, told'.length]
  tells equal := by
    obtain ⟨words, rests⟩ := List.append_inj equal told.length
    exact ⟨told.tells words, told'.tells rests⟩

/-- Lists that are written item by item, in words of equal lengths. -/
theorem Tells.flatMap {code : β → List α} {R : β → β → Prop}
    (told : ∀ b b', R b b' → Tells (code b) (code b') (b = b')) {xs ys : List β}
    (pairs : List.Forall₂ R xs ys) : Tells (xs.flatMap code) (ys.flatMap code) (xs = ys) := by
  induction pairs with
  | nil => exact ⟨rfl, fun _ => rfl⟩
  | cons first _ ih =>
    refine ((told _ _ first).append ih).imp ?_
    rintro ⟨rfl, rfl⟩
    rfl

end Separated
