import Mathlib.Data.List.Basic

/-!
# Numerals

A decimal numeral is recovered from its text, alone or in front of anything that cannot
continue it. A reader of numerals takes an optional sign and digits to a bounded integer.
-/

namespace Numeral

/-- Decimals tell natural numbers. -/
theorem nat_repr_inj {m n : Nat} (same : m.repr = n.repr) : m = n := by
  have digits := congrArg (fun s => Nat.ofDigitChars 10 s.toList 0) same
  simpa using digits

/-- A natural number is written in digits. -/
theorem nat_repr_digit {n : Nat} {c : Char} (member : c ∈ n.repr.toList) : c.isDigit = true := by
  rw [Nat.toList_repr] at member
  exact Nat.isDigit_of_mem_toDigits (by decide) (by decide) member

/-- It starts with no sign. -/
theorem minus_not_repr (n : Nat) (rest : List Char) : n.repr.toList ≠ '-' :: rest := by
  intro same
  have digit : ('-').isDigit = true := nat_repr_digit (n := n) (by rw [same]; simp)
  exact absurd digit (by decide)

/-- Decimals tell integers. -/
theorem int_repr_inj {a b : Int} (same : a.repr = b.repr) : a = b := by
  have minus (n : Nat) : ("-" ++ n.repr).toList = '-' :: n.repr.toList := by simp
  rw [Int.repr_eq_if, Int.repr_eq_if] at same
  split at same <;> split at same
  · have digits := nat_repr_inj same
    omega
  · have clash := congrArg String.toList same
    rw [minus] at clash
    exact absurd clash (minus_not_repr _ _)
  · have clash := congrArg String.toList same.symm
    rw [minus] at clash
    exact absurd clash (minus_not_repr _ _)
  · have clash := congrArg String.toList same
    rw [minus, minus] at clash
    have digits := nat_repr_inj (String.toList_injective (List.cons.inj clash).2)
    omega

/-- An integer is written in digits and a sign. -/
theorem int_repr_chars {a : Int} {c : Char} (member : c ∈ a.repr.toList) :
    c = '-' ∨ c.isDigit = true := by
  rw [Int.repr_eq_if] at member
  split at member
  · exact Or.inr (nat_repr_digit member)
  · rw [String.toList_append, List.mem_append] at member
    rcases member with sign | digits
    · exact Or.inl (by simpa using sign)
    · exact Or.inr (nat_repr_digit digits)

/-- Words of one kind of symbol, each followed by what is of another kind. -/
theorem span_inj {α : Type} (p : α → Prop) {left left' right right' : List α}
    (all : ∀ x ∈ left, p x) (all' : ∀ x ∈ left', p x) (stop : ∀ x ∈ right.head?, ¬ p x)
    (stop' : ∀ x ∈ right'.head?, ¬ p x) (same : left ++ right = left' ++ right') :
    left = left' ∧ right = right' := by
  induction left generalizing left' with
  | nil =>
    cases left' with
    | nil => exact ⟨rfl, same⟩
    | cons y rest' =>
      rw [List.nil_append] at same
      exact absurd (all' y List.mem_cons_self) (stop y (by rw [same]; rfl))
  | cons x rest ih =>
    cases left' with
    | nil =>
      rw [List.nil_append] at same
      exact absurd (all x List.mem_cons_self) (stop' x (by rw [← same]; rfl))
    | cons y rest' =>
      obtain ⟨rfl, tails⟩ := List.cons.inj same
      obtain ⟨rfl, rights⟩ := ih (fun z member => all z (List.mem_cons_of_mem x member))
        (fun z member => all' z (List.mem_cons_of_mem x member)) tails
      exact ⟨rfl, rights⟩

/-! ## Reading -/

/-- The value of a digit in the radix. Letters count in either case. -/
def toDigit (radix : Nat) (c : Char) : Option Nat :=
  (if '0' ≤ c ∧ c ≤ '9' then some (c.toNat - '0'.toNat)
    else if 'a' ≤ c ∧ c ≤ 'z' then some (c.toNat - 'a'.toNat + 10)
    else if 'A' ≤ c ∧ c ≤ 'Z' then some (c.toNat - 'A'.toNat + 10)
    else none).filter (· < radix)

/-- The number that digits spell, from the first one on. -/
def readDigits (radix value : Nat) (digits : List Char) : Option Nat :=
  digits.foldlM (fun value c => (toDigit radix c).map (radix * value + ·)) value

/-- Whether a minus was taken off, and the digits. Unsigned numerals have no
minus. -/
def takeSign (least : Int) (text : List Char) : Bool × List Char :=
  match text with
  | '+' :: rest => (false, rest)
  | '-' :: rest => if least < 0 then (true, rest) else (false, text)
  | _ => (false, text)

/-- An optional sign and at least one digit, as an integer from `least` to
`greatest`. -/
def fromStrRadix (radix : Nat) (least greatest : Int) (text : List Char) : Option Int :=
  if (takeSign least text).2 = [] then none else do
    let magnitude ← readDigits radix 0 (takeSign least text).2
    let value : Int := if (takeSign least text).1 then -magnitude else magnitude
    if least ≤ value ∧ value ≤ greatest then some value else none

/-- A decimal digit has its value. -/
theorem toDigit_of_isDigit {c : Char} (digit : c.isDigit = true) :
    toDigit 10 c = some (c.toNat - '0'.toNat) := by
  have range : '0' ≤ c ∧ c ≤ '9' := by
    simpa [Char.isDigit, Char.le_def] using digit
  have few : c.toNat ≤ '9'.toNat := range.2
  rw [toDigit, if_pos range, Option.filter_some, if_pos]
  have nine : '9'.toNat = 57 := rfl
  have zero : '0'.toNat = 48 := rfl
  rw [decide_eq_true_eq]
  omega

/-- Decimal digits are read as the library reads them. -/
theorem readDigits_decimal {digits : List Char} (all : ∀ c ∈ digits, c.isDigit = true)
    (value : Nat) : readDigits 10 value digits = some (Nat.ofDigitChars 10 digits value) := by
  induction digits generalizing value with
  | nil => rfl
  | cons c rest ih =>
    rw [readDigits, List.foldlM_cons, toDigit_of_isDigit (all c List.mem_cons_self),
      Nat.ofDigitChars_cons]
    exact ih (fun d member => all d (List.mem_cons_of_mem c member)) _

/-- The decimal of a number is read back. -/
theorem readDigits_repr (n : Nat) : readDigits 10 0 n.repr.toList = some n := by
  rw [readDigits_decimal (fun c member => nat_repr_digit member), Nat.toList_repr,
    Nat.ofDigitChars_ten_toDigits]

/-- Digits without a sign. -/
theorem fromStrRadix_digits {radix : Nat} {least greatest : Int} {digits : List Char} {n : Nat}
    (unsigned : takeSign least digits = (false, digits)) (some_digit : digits ≠ [])
    (read : readDigits radix 0 digits = some n) (low : least ≤ n) (high : n ≤ greatest) :
    fromStrRadix radix least greatest digits = some (n : Int) := by
  rw [fromStrRadix, unsigned, if_neg some_digit, read]
  exact if_pos ⟨low, high⟩

/-- Without a sign in front nothing is taken. -/
theorem takeSign_unsigned {least : Int} {c : Char} {rest : List Char} (plus : c ≠ '+')
    (minus : c ≠ '-') : takeSign least (c :: rest) = (false, c :: rest) := by
  unfold takeSign
  split
  · next same => exact absurd (List.cons.inj same).1 plus
  · next same => exact absurd (List.cons.inj same).1 minus
  · rfl

/-- A number has at least one digit. -/
theorem repr_ne_nil (n : Nat) : n.repr.toList ≠ [] := by
  rw [Nat.toList_repr, ← List.length_pos_iff]
  exact Nat.length_toDigits_pos

/-- An integer in range is read back from its decimal, with its sign. -/
theorem fromStrRadix_repr {least greatest a : Int} (low : least ≤ a) (high : a ≤ greatest) :
    fromStrRadix 10 least greatest a.repr.toList = some a := by
  rw [Int.repr_eq_if]
  by_cases natural : 0 ≤ a
  · rw [if_pos natural]
    have same : ((a.toNat : Nat) : Int) = a := Int.toNat_of_nonneg natural
    have unsigned : takeSign least a.toNat.repr.toList = (false, a.toNat.repr.toList) := by
      cases spelled : a.toNat.repr.toList with
      | nil => exact absurd spelled (repr_ne_nil _)
      | cons c rest =>
        have digit : c.isDigit = true := nat_repr_digit (n := a.toNat) (by simp [spelled])
        refine takeSign_unsigned ?_ ?_ <;> rintro rfl <;> exact absurd digit (by decide)
    have read := fromStrRadix_digits unsigned (repr_ne_nil _) (readDigits_repr a.toNat)
      (same.symm ▸ low) (same.symm ▸ high)
    rwa [same] at read
  · rw [if_neg natural]
    have negative : least < 0 := by omega
    have signed : takeSign least ("-" ++ (-a).toNat.repr).toList =
        (true, (-a).toNat.repr.toList) := by
      rw [String.toList_append]
      exact if_pos negative
    have same : -(((-a).toNat : Nat) : Int) = a := by omega
    rw [fromStrRadix, signed, if_neg (repr_ne_nil _), readDigits_repr]
    simp only [Option.bind_eq_bind, Option.bind_some, if_true, same]
    exact if_pos ⟨low, high⟩

/-- A fixed number of digits, most significant first. -/
theorem readDigits_concat {radix : Nat} {front : List Char} {c : Char} {value n d : Nat}
    (read : readDigits radix value front = some n) (digit : toDigit radix c = some d) :
    readDigits radix value (front ++ [c]) = some (radix * n + d) := by
  rw [readDigits, List.foldlM_append]
  rw [readDigits] at read
  rw [read]
  simp [digit]

end Numeral
