import Mathlib.Algebra.Group.Nat.Defs
import GraphedCore.Lib.Enumerate

/-!
# Length-prefixed parts

A list of byte strings is joined with the length of each part in front of it, as a
big-endian number of a fixed width. A part that is too long for the width is refused.
The joined bytes determine the parts, how many they are included.
-/

namespace Framing

/-- The `width` low bytes of `n`, most significant first. -/
def bigEndian : Nat → Nat → List UInt8
  | 0, _ => []
  | width + 1, n => bigEndian width (n / 256) ++ [UInt8.ofNat n]

/-- `n` in `width` bytes, if it fits. -/
def toBytes (width n : Nat) : Option (List UInt8) :=
  if n < 256 ^ width then some (bigEndian width n) else none

/-- A part behind its length. -/
def frame (width : Nat) (part : List UInt8) : Option (List UInt8) :=
  (toBytes width part.length).map (· ++ part)

/-- The parts one after another, each behind its length. -/
def join (width : Nat) (parts : List (List UInt8)) : Option (List UInt8) :=
  (parts.mapM (frame width)).map List.flatten

/-- A number takes as many bytes as the width says. -/
theorem length_bigEndian (width n : Nat) : (bigEndian width n).length = width := by
  induction width generalizing n with
  | zero => rfl
  | succ width ih => rw [bigEndian, List.length_append, ih, List.length_singleton]

/-- Numbers that fit the width are told by their bytes. -/
theorem bigEndian_inj (width : Nat) {m n : Nat} (small : m < 256 ^ width) (small' : n < 256 ^ width)
    (same : bigEndian width m = bigEndian width n) : m = n := by
  induction width generalizing m n with
  | zero => omega
  | succ width ih =>
    obtain ⟨high, low⟩ := List.append_inj' same rfl
    rw [Nat.pow_succ'] at small small'
    have digits := ih (Nat.div_lt_of_lt_mul small) (Nat.div_lt_of_lt_mul small') high
    have last := congrArg UInt8.toNat (List.singleton_injective low)
    simp only [UInt8.toNat_ofNat'] at last
    omega

/-- A part that was framed has a length that fits, and is found behind it. -/
theorem frame_some {width : Nat} {part framed : List UInt8} (done : frame width part = some framed) :
    part.length < 256 ^ width ∧ framed = bigEndian width part.length ++ part := by
  obtain ⟨length, fits, rfl⟩ := Option.map_eq_some_iff.mp done
  rw [toBytes] at fits
  split at fits
  · exact ⟨by assumption, by rw [Option.some.inj fits]⟩
  · cases fits

/-- Only the lengths decide whether parts can be joined. -/
theorem join_exists_iff (width : Nat) (parts : List (List UInt8)) :
    (∃ bytes, join width parts = some bytes) ↔ ∀ part ∈ parts, part.length < 256 ^ width := by
  have framed (part : List UInt8) :
      (∃ framed, frame width part = some framed) ↔ part.length < 256 ^ width := by
    constructor
    · rintro ⟨_, done⟩
      exact (frame_some done).1
    · intro small
      exact ⟨_, by rw [frame, toBytes, if_pos small]; rfl⟩
  simp only [← framed, ← Enumerate.mapM_exists_iff, join, Option.map_eq_some_iff]
  exact ⟨fun ⟨_, lists, done, _⟩ => ⟨lists, done⟩, fun ⟨lists, done⟩ => ⟨_, lists, done, rfl⟩⟩

/-- A framed part in front of other bytes. -/
theorem frame_inj {width : Nat} {part part' framed framed' rest rest' : List UInt8}
    (done : frame width part = some framed) (done' : frame width part' = some framed')
    (same : framed ++ rest = framed' ++ rest') : part = part' ∧ rest = rest' := by
  obtain ⟨small, rfl⟩ := frame_some done
  obtain ⟨small', rfl⟩ := frame_some done'
  rw [List.append_assoc, List.append_assoc] at same
  obtain ⟨lengths, bytes⟩ := List.append_inj same (by rw [length_bigEndian, length_bigEndian])
  exact List.append_inj bytes (bigEndian_inj width small small' lengths)

/-- A frame is never empty. -/
theorem frame_ne_nil {width : Nat} (some_width : width ≠ 0) {part framed : List UInt8}
    (done : frame width part = some framed) : framed ≠ [] := by
  obtain ⟨_, rfl⟩ := frame_some done
  intro none
  have length := congrArg List.length (List.append_eq_nil_iff.mp none).1
  rw [length_bigEndian] at length
  exact some_width length

/-- Parts that were joined were framed one by one. -/
theorem join_cons_some {width : Nat} {part bytes : List UInt8} {rest : List (List UInt8)}
    (done : join width (part :: rest) = some bytes) :
    ∃ framed others, frame width part = some framed ∧ join width rest = some others ∧
      bytes = framed ++ others := by
  obtain ⟨all, framed, rfl⟩ := Option.map_eq_some_iff.mp done
  rw [List.mapM_cons] at framed
  obtain ⟨first, one, framed⟩ := Option.bind_eq_some_iff.mp framed
  obtain ⟨others, later, framed⟩ := Option.bind_eq_some_iff.mp framed
  obtain rfl := Option.some.inj framed
  exact ⟨first, others.flatten, one, by rw [join, later]; rfl, rfl⟩

/-- The joined bytes determine the parts. -/
theorem join_inj {width : Nat} (some_width : width ≠ 0) {parts parts' : List (List UInt8)}
    {bytes : List UInt8} (done : join width parts = some bytes)
    (done' : join width parts' = some bytes) : parts = parts' := by
  induction parts generalizing parts' bytes with
  | nil =>
    obtain rfl : [] = bytes := by simpa [join] using done
    cases parts' with
    | nil => rfl
    | cons part' rest' =>
      obtain ⟨framed, others, one, _, nothing⟩ := join_cons_some done'
      exact absurd (List.append_eq_nil_iff.mp nothing.symm).1 (frame_ne_nil some_width one)
  | cons part rest ih =>
    obtain ⟨framed, others, one, later, rfl⟩ := join_cons_some done
    cases parts' with
    | nil =>
      have nothing : [] = framed ++ others := by simpa [join] using done'
      exact absurd (List.append_eq_nil_iff.mp nothing.symm).1 (frame_ne_nil some_width one)
    | cons part' rest' =>
      obtain ⟨framed', others', one', later', same⟩ := join_cons_some done'
      obtain ⟨rfl, rfl⟩ := frame_inj one one' same
      rw [ih later later']

end Framing
