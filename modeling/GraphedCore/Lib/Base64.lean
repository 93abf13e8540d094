import Mathlib.Data.List.Basic

/-!
# Base64

Encoding pads to full quads. Decoding is the lenient one: characters outside the
alphabet are skipped, and what follows the padding of a quad is not looked at.
`none` models the error on text that stops inside a quad or is not ASCII.
-/

namespace Base64

/-- The digits of the standard alphabet, in the order of their values. -/
def alphabet : List Char :=
  "ABCDEFGHIJKLMNOPQRSTUVWXYZabcdefghijklmnopqrstuvwxyz0123456789+/".toList

/-- The digit of a value below 64. -/
def digit (n : Nat) : Char := alphabet[n]?.getD 'A'

/-- Three bytes make four digits. One or two bytes that are left over are
padded. -/
def encodeBytes : List UInt8 → List Char
  | [] => []
  | [a] => [digit (a.toNat / 4), digit (a.toNat % 4 * 16), '=', '=']
  | [a, b] =>
    [digit (a.toNat / 4), digit (a.toNat % 4 * 16 + b.toNat / 16), digit (b.toNat % 16 * 4), '=']
  | a :: b :: c :: rest =>
    digit (a.toNat / 4) :: digit (a.toNat % 4 * 16 + b.toNat / 16) ::
      digit (b.toNat % 16 * 4 + c.toNat / 64) :: digit (c.toNat % 64) :: encodeBytes rest

/-- The encoding as a text. -/
def b64encode (bytes : List UInt8) : String := String.ofList (encodeBytes bytes)

/-- `quad` digits of the current quad were read, `left` holds the bits of the last
one that are still due, and `pads` paddings were seen. -/
def decodeFrom (quad left pads : Nat) : List Char → Option (List UInt8)
  | [] => if quad = 0 then some [] else none
  | c :: rest =>
    if c = '=' then
      if 2 ≤ quad then
        if 4 ≤ quad + (pads + 1) then some [] else decodeFrom quad left (pads + 1) rest
      else decodeFrom quad left pads rest
    else
      match alphabet.idxOf? c with
      | none => decodeFrom quad left pads rest
      | some v =>
        match quad with
        | 0 => decodeFrom 1 v 0 rest
        | 1 => (decodeFrom 2 (v % 16) 0 rest).map (UInt8.ofNat (left * 4 + v / 16) :: ·)
        | 2 => (decodeFrom 3 (v % 4) 0 rest).map (UInt8.ofNat (left * 16 + v / 4) :: ·)
        | _ => (decodeFrom 0 0 0 rest).map (UInt8.ofNat (left * 64 + v) :: ·)

/-- Decoding of a text. What is not ASCII is refused before anything is
decoded. -/
def b64decode (s : String) : Option (List UInt8) :=
  if s.toList.all (fun c => decide (c.toNat < 128)) then decodeFrom 0 0 0 s.toList else none

example : b64encode [1, 2, 3, 250] = "AQID+g==" := by decide +kernel

example : b64decode "AQ\nID+g==x" = some [1, 2, 3, 250] := by decide +kernel

/-! ## Decoding what was encoded -/

/-- A digit is found again, and is no padding. -/
theorem digit_spec : ∀ n < 64, alphabet.idxOf? (digit n) = some n ∧ digit n ≠ '=' ∧
    (digit n).toNat < 128 := by
  decide +kernel

section Digits

variable {n : Nat}

/-- The first digit of four is kept until the next one comes. -/
theorem decodeFrom_first (small : n < 64) (left pads : Nat) (rest : List Char) :
    decodeFrom 0 left pads (digit n :: rest) = decodeFrom 1 n 0 rest := by
  obtain ⟨found, plain, _⟩ := digit_spec n small
  rw [decodeFrom, if_neg plain, found]
  rfl

/-- The second one completes a byte and leaves four bits. -/
theorem decodeFrom_second (small : n < 64) (left pads : Nat) (rest : List Char) :
    decodeFrom 1 left pads (digit n :: rest) =
      (decodeFrom 2 (n % 16) 0 rest).map (UInt8.ofNat (left * 4 + n / 16) :: ·) := by
  obtain ⟨found, plain, _⟩ := digit_spec n small
  rw [decodeFrom, if_neg plain, found]
  rfl

/-- The third one completes a byte and leaves two bits. -/
theorem decodeFrom_third (small : n < 64) (left pads : Nat) (rest : List Char) :
    decodeFrom 2 left pads (digit n :: rest) =
      (decodeFrom 3 (n % 4) 0 rest).map (UInt8.ofNat (left * 16 + n / 4) :: ·) := by
  obtain ⟨found, plain, _⟩ := digit_spec n small
  rw [decodeFrom, if_neg plain, found]
  rfl

/-- The fourth one completes the third byte and leaves nothing. -/
theorem decodeFrom_fourth (small : n < 64) (left pads : Nat) (rest : List Char) :
    decodeFrom 3 left pads (digit n :: rest) =
      (decodeFrom 0 0 0 rest).map (UInt8.ofNat (left * 64 + n) :: ·) := by
  obtain ⟨found, plain, _⟩ := digit_spec n small
  rw [decodeFrom, if_neg plain, found]
  rfl

end Digits

/-- A byte is known by its value. -/
theorem ofNat_eq {b : UInt8} {n : Nat} (same : n = b.toNat) : UInt8.ofNat n = b := by
  rw [same, UInt8.ofNat_toNat]

/-- Decoding digits gives the bytes that were encoded, by induction in steps of
three bytes. -/
theorem decode_encodeBytes (bytes : List UInt8) :
    decodeFrom 0 0 0 (encodeBytes bytes) = some bytes := by
  induction bytes using encodeBytes.induct with
  | case1 => rfl
  | case2 a =>
    have small := a.toNat_lt
    rw [encodeBytes, decodeFrom_first (by omega), decodeFrom_second (by omega),
      ofNat_eq (b := a) (by omega)]
    rfl
  | case3 a b =>
    have small := a.toNat_lt
    have small' := b.toNat_lt
    rw [encodeBytes, decodeFrom_first (by omega), decodeFrom_second (by omega),
      decodeFrom_third (by omega), ofNat_eq (b := a) (by omega), ofNat_eq (b := b) (by omega)]
    rfl
  | case4 a b c rest ih =>
    have small := a.toNat_lt
    have small' := b.toNat_lt
    have small'' := c.toNat_lt
    rw [encodeBytes, decodeFrom_first (by omega), decodeFrom_second (by omega),
      decodeFrom_third (by omega), decodeFrom_fourth (by omega), ih, ofNat_eq (b := a) (by omega),
      ofNat_eq (b := b) (by omega), ofNat_eq (b := c) (by omega)]
    rfl

/-- Digits and padding are ASCII. -/
theorem encodeBytes_ascii (bytes : List UInt8) : ∀ c ∈ encodeBytes bytes, c.toNat < 128 := by
  have ascii {n : Nat} (small : n < 64) : (digit n).toNat < 128 := (digit_spec n small).2.2
  induction bytes using encodeBytes.induct with
  | case1 => simp [encodeBytes]
  | case2 a =>
    have small := a.toNat_lt
    simp only [encodeBytes, List.forall_mem_cons]
    exact ⟨ascii (by omega), ascii (by omega), by decide, by decide, by simp⟩
  | case3 a b =>
    have small := a.toNat_lt
    have small' := b.toNat_lt
    simp only [encodeBytes, List.forall_mem_cons]
    exact ⟨ascii (by omega), ascii (by omega), ascii (by omega), by decide, by simp⟩
  | case4 a b c rest ih =>
    have small := a.toNat_lt
    have small' := b.toNat_lt
    have small'' := c.toNat_lt
    simp only [encodeBytes, List.forall_mem_cons]
    exact ⟨ascii (by omega), ascii (by omega), ascii (by omega), ascii (by omega), ih⟩

/-- Decoding inverts encoding. -/
theorem b64decode_b64encode (bytes : List UInt8) : b64decode (b64encode bytes) = some bytes := by
  rw [b64decode, b64encode, String.toList_ofList, if_pos, decode_encodeBytes]
  simpa using encodeBytes_ascii bytes

end Base64
