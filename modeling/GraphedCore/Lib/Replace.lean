import Mathlib.Data.List.Basic

/-!
# Replacing a pattern

Every occurrence of a pattern is replaced, from the left and without overlaps. In a
text of words, where the first item of the pattern only begins words and these are as
long as the pattern, exactly the words that are the pattern are replaced.
-/

universe u v

namespace Replace

variable {α : Type u} {β : Type v} [DecidableEq α]

/-- Replace the occurrences of `first :: others`, after `skip` items that were
replaced before. -/
def scan (first : α) (others replacement : List α) : Nat → List α → List α
  | _, [] => []
  | skip + 1, _ :: rest => scan first others replacement skip rest
  | 0, x :: rest =>
    if (first :: others).isPrefixOf (x :: rest) then
      replacement ++ scan first others replacement others.length rest
    else x :: scan first others replacement 0 rest

/-- Replace the pattern by another text wherever it is found, from the left and
without overlap. -/
def replace (first : α) (others replacement text : List α) : List α :=
  scan first others replacement 0 text

variable {first : α} {others replacement : List α}

/-- Items that were matched are skipped. -/
theorem scan_skip (front rest : List α) :
    scan first others replacement front.length (front ++ rest) =
      scan first others replacement 0 rest := by
  induction front with
  | nil => rfl
  | cons x front ih => rw [List.length_cons, List.cons_append, scan, ih]

/-- Where the pattern cannot begin, nothing is replaced. -/
theorem replace_free {front : List α} (free : first ∉ front) (rest : List α) :
    replace first others replacement (front ++ rest) =
      front ++ replace first others replacement rest := by
  induction front with
  | nil => rfl
  | cons x front ih =>
    rw [List.mem_cons, not_or] at free
    obtain ⟨differ, free⟩ := free
    have apart : (first :: others).isPrefixOf (x :: (front ++ rest)) = false := by
      simp [List.isPrefixOf, differ]
    rw [replace, List.cons_append, scan, apart, if_neg Bool.false_ne_true]
    exact congrArg (x :: ·) (ih free)

/-- The pattern at the front is replaced, and the rest is scanned after it. -/
theorem replace_pattern (rest : List α) :
    replace first others replacement (first :: others ++ rest) =
      replacement ++ replace first others replacement rest := by
  have found : (first :: others).isPrefixOf (first :: (others ++ rest)) = true := by simp
  rw [replace, List.cons_append, scan, found, if_pos rfl, scan_skip]
  rfl

/-- A word as long as the pattern that begins as it does, but is not it. -/
theorem replace_other {body : List α} (length : body.length = others.length)
    (differ : body ≠ others) (free : first ∉ body) (rest : List α) :
    replace first others replacement (first :: body ++ rest) =
      first :: body ++ replace first others replacement rest := by
  have apart : (first :: others).isPrefixOf (first :: (body ++ rest)) = false := by
    rw [Bool.eq_false_iff, Ne, List.isPrefixOf_iff_prefix, List.cons_prefix_cons]
    rintro ⟨_, tail, same⟩
    exact differ (List.append_inj_left same length.symm).symm
  rw [replace, List.cons_append, scan, apart, if_neg Bool.false_ne_true, List.cons_append]
  exact congrArg (first :: ·) (replace_free free rest)

/-- Words in which the first item of the pattern can only begin a word of its
length. -/
structure Words (first : α) (others : List α) (word : β → List α) : Prop where
  inner : ∀ b, first ∉ (word b).tail
  length : ∀ b, (word b).head? = some first → (word b).tail.length = others.length

/-- In a text of words the pattern is found only where it is a whole word. -/
theorem replace_flatMap {word : β → List α} (words : Words first others word) (text : List β) :
    replace first others replacement (text.flatMap word) =
      text.flatMap (fun b => if word b = first :: others then replacement else word b) := by
  induction text with
  | nil => rfl
  | cons b text ih =>
    rw [List.flatMap_cons, List.flatMap_cons, ← ih]
    have inner := words.inner b
    have length := words.length b
    cases spelled : word b with
    | nil => simp
    | cons x body =>
      rw [spelled, List.tail_cons] at inner length
      by_cases begins : x = first
      · subst begins
        by_cases same : body = others
        · rw [same, replace_pattern, if_pos rfl]
        · rw [replace_other (length rfl) same inner, if_neg (by simpa using same)]
      · have free : first ∉ x :: body := by
          rw [List.mem_cons, not_or]
          exact ⟨Ne.symm begins, inner⟩
        rw [replace_free free, if_neg (fun same => begins (List.cons.inj same).1)]

end Replace
