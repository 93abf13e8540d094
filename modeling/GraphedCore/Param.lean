import Mathlib.Data.List.Sort

/-!
# Parameter values and key-sorted parameter maps

A float is its IEEE-754 bit pattern. Equality and tokens read a float through
`floatKey`, which sends every NaN to one quiet pattern and leaves all other
patterns alone, so `0.0` and `-0.0` stay distinct. The stored value keeps its
own bits: only comparison and tokens are canonical.

A `ParamMap` is sorted by key, and every value of the type carries that fact.
-/

namespace GraphedCore

/-- An `f64` as its 64 stored bits. No arithmetic is ever performed on it: floats
are compared, spelled and written by their bits. -/
abbrev F64 := UInt64

/-- NaN: all exponent bits set and a nonzero fraction, of either sign. Without its
sign bit such a pattern is above that of infinity. -/
def F64.isNan (x : F64) : Bool :=
  decide (0x7ff0000000000000 < (x &&& 0x7fffffffffffffff))

/-- The quiet NaN that stands for every NaN where floats are compared or spelled.
What is written to bytes keeps the bits that were given. -/
def canonNan : UInt64 := 0x7ff8000000000000

/-- The value of a parameter. The decidable equality here is that of the stored
bits; the comparison of the source is `ParamValue.eq`. -/
inductive ParamValue where
  | int (a : Int64)
  | float (a : F64)
  | bool (a : Bool)
  | str (a : String)
deriving DecidableEq

namespace ParamValue

/-- IEEE-aware canonical bits used for equality and for tokens. Every NaN has one
key, and the two zeros keep theirs, which differ. -/
def floatKey (x : F64) : UInt64 :=
  if F64.isNan x then canonNan else x

/-- The `==` of parameter values: floats by canonical bits, the others by their
values. Values of different types are never equal, not even `1` and `1.0`. -/
def eq : ParamValue → ParamValue → Bool
  | .int a, .int b => a == b
  | .float a, .float b => floatKey a == floatKey b
  | .bool a, .bool b => a == b
  | .str a, .str b => a == b
  | _, _ => false

end ParamValue

/-- Replace every occurrence of one character by a string, as `str::replace` does
for a pattern of one character. -/
def replaceChar (c : Char) (replacement : List Char) (s : List Char) : List Char :=
  s.flatMap (fun x => if x = c then replacement else [x])

/-- Escape the four separators of tokens. The percent sign goes first, so an
escape is not escaped again. -/
def escapeToken (s : String) : String :=
  String.ofList <|
    replaceChar '|' ['%', '7', 'C'] <| replaceChar '=' ['%', '3', 'D'] <|
      replaceChar ';' ['%', '3', 'B'] <| replaceChar '%' ['%', '2', '5'] s.toList

/-- Lower-case hexadecimal digit of a number below sixteen. -/
def hexDigit (d : Nat) : Char := ("0123456789abcdef".toList)[d]?.getD '0'

/-- The `width` low hexadecimal digits of `n`, most significant first, padded with
zeros as the format `{:016x}` pads. -/
def hex (n : Nat) : Nat → List Char
  | 0 => []
  | width + 1 => hex (n / 16) width ++ [hexDigit (n % 16)]

/-- Type-tagged token of a value. A float is spelled by its canonical bits, and a
text is escaped so that it cannot end its entry. -/
def ParamValue.token : ParamValue → String
  | .int a => "i" ++ a.toInt.repr
  | .float a => "f" ++ String.ofList (hex (floatKey a).toNat 16)
  | .bool a => "b" ++ (if a then "true" else "false")
  | .str a => "s" ++ escapeToken a

/-- Entries in ascending key order, as `ParamMap::new` leaves them. The order is
part of the type, so no map is unsorted; a key may stand more than once. -/
structure ParamMap where
  entries : List (String × ParamValue)
  sorted : entries.Pairwise (fun a b => a.1 ≤ b.1)
deriving DecidableEq

namespace ParamMap

/-- Sort the entries by key, as `ParamMap::new` does. The sort is stable, so
entries of one key stay in their given order. -/
def new (entries : List (String × ParamValue)) : ParamMap where
  entries := entries.insertionSort (fun a b => a.1 ≤ b.1)
  sorted := entries.pairwise_insertionSort _

/-- A map is its entries. -/
theorem ext {p q : ParamMap} (same : p.entries = q.entries) : p = q := by
  cases p
  cases q
  simpa using same

/-- The entries of a map sort back to it. -/
theorem new_entries (p : ParamMap) : new p.entries = p :=
  ext (List.Pairwise.insertionSort_eq p.sorted)

/-- Whether there are no entries. An operator without parameters is spelled
without them. -/
def isEmpty (p : ParamMap) : Bool := p.entries.isEmpty

/-- Entry by entry, keys exactly and values by `ParamValue.eq`. Maps of different
lengths are different. -/
def eq (p q : ParamMap) : Bool :=
  p.entries.length == q.entries.length &&
    (p.entries.zip q.entries).all (fun (a, b) => a.1 == b.1 && a.2.eq b.2)

/-- `key=value` pairs joined by semicolons, both sides escaped. The empty map has
the empty token. -/
def token (p : ParamMap) : String :=
  ";".intercalate (p.entries.map (fun (k, v) => escapeToken k ++ "=" ++ v.token))

end ParamMap

end GraphedCore
