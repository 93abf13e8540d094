import Mathlib.Data.List.Sort
import GraphedCore.Lib.KeySort
import GraphedCore.Lib.Numeral
import GraphedCore.Lib.Separated

/-!
# JSON text

The text of a document with its keys sorted, without blanks and in ASCII: every
other character is written by its UTF-16 units. How a float is written is left to
the user of the library. An object of strings and integers is recovered from its text
up to the order in which its entries were given. A document that was written and read
back has its entries in the order of the text.
-/

namespace JsonText

open Separated Numeral

/-- A text or an integer. -/
inductive Scalar where
  | str (a : String)
  | int (a : Int)
deriving DecidableEq

/-- Values of a document. Floats are their bits, and an object keeps its entries
in their order. -/
inductive Value where
  | scalar (a : Scalar)
  | float (a : UInt64)
  | list (items : List Value)
  | dict (entries : List (String × Value))

/-! ## Strings -/

/-- A backslash, `u` and four hexadecimal digits. -/
def unit (n : Nat) : List Char :=
  ['\\', 'u', Nat.digitChar (n / 4096), Nat.digitChar (n / 256 % 16),
    Nat.digitChar (n / 16 % 16), Nat.digitChar (n % 16)]

/-- The characters with an escape of their own, and its letter. -/
def letters : List (Char × Char) :=
  [('"', '"'), ('\\', '\\'), ('\n', 'n'), ('\r', 'r'), ('\t', 't'), ('\x0c', 'f'), ('\x08', 'b')]

/-- Printable ASCII stands for itself, a few characters have a letter, and the
rest are written as UTF-16 units in four hexadecimal digits. -/
def escapeChar (c : Char) : List Char :=
  match letters.lookup c with
  | some letter => ['\\', letter]
  | none =>
    if 0x20 ≤ c.toNat ∧ c.toNat ≤ 0x7e then [c]
    else if c.toNat < 0x10000 then unit c.toNat
    else unit (0xd800 + (c.toNat - 0x10000) / 1024) ++ unit (0xdc00 + (c.toNat - 0x10000) % 1024)

/-- A text between quotes. -/
def quote (s : String) : List Char := '"' :: s.toList.flatMap escapeChar ++ ['"']

/-! ## Documents -/

/-- How a scalar is written. -/
def Scalar.text : Scalar → List Char
  | .str a => quote a
  | .int a => a.repr.toList

/-- One entry of an object: its key, a colon and its value, without blanks. -/
def field (entry : String × List Char) : List Char := quote entry.1 ++ ':' :: entry.2

/-- An object of rendered values, by key. -/
def object (rendered : List (String × List Char)) : List Char :=
  '{' :: List.intercalate [','] ((rendered.insertionSort (fun a b => a.1 ≤ b.1)).map field) ++ ['}']

section Rendering

variable (floatRepr : UInt64 → String)

mutual

/-- How a value is written. The spelling of floats is a parameter. -/
def Value.text : Value → List Char
  | .scalar a => a.text
  | .float a => (floatRepr a).toList
  | .list items => '[' :: List.intercalate [','] (textItems items) ++ [']']
  | .dict entries => object (textEntries entries)

/-- The items of a list, one by one. -/
def textItems : List Value → List (List Char)
  | [] => []
  | item :: rest => item.text :: textItems rest

/-- The entries of an object, one by one. -/
def textEntries : List (String × Value) → List (String × List Char)
  | [] => []
  | (key, value) :: rest => (key, value.text) :: textEntries rest

end

/-- The text of a document. -/
def dumps (document : Value) : String := String.ofList (document.text floatRepr)

end Rendering

/-- An object of strings and integers. -/
def flat (entries : List (String × Scalar)) : Value :=
  .dict (entries.map (fun entry => (entry.1, .scalar entry.2)))

example : dumps (fun _ => "") (flat [("uri", .str "a\"\n☃😀"), ("stop", .int (-12))]) =
    "\x7b\"stop\":-12,\"uri\":\"a\\\"\\n\\u2603\\ud83d\\ude00\"\x7d" := by
  decide +kernel

/-! ## Recovery -/

/-- Hexadecimal digits tell their values. -/
theorem digitChar_inj : ∀ d < 16, ∀ e < 16, Nat.digitChar d = Nat.digitChar e → d = e := by decide

/-- A unit is four digits wide, so it ends by itself and tells its number. -/
theorem unit_inj {m n : Nat} {rest rest' : List Char} (small : m < 65536) (small' : n < 65536)
    (same : unit m ++ rest = unit n ++ rest') : m = n ∧ rest = rest' := by
  simp only [unit, List.cons_append, List.nil_append, List.cons.injEq, true_and] at same
  obtain ⟨first, second, third, fourth, rests⟩ := same
  have digit := digitChar_inj
  have first := digit _ (by omega) _ (by omega) first
  have second := digit _ (by omega) _ (by omega) second
  have third := digit _ (by omega) _ (by omega) third
  have fourth := digit _ (by omega) _ (by omega) fourth
  exact ⟨by omega, rests⟩

/-- An own escape is one of the letters in the list. -/
theorem letter_mem {c letter : Char} (found : letters.lookup c = some letter) :
    (c, letter) ∈ letters := by
  obtain ⟨before, after, split, _⟩ := List.lookup_eq_some_iff.mp found
  rw [split]
  exact List.mem_append_right _ List.mem_cons_self

/-- No two characters share their letter. -/
theorem letters_distinct : ∀ p ∈ letters, ∀ q ∈ letters, p.2 = q.2 → p.1 = q.1 := by decide

/-- No letter is the one that announces a unit. -/
theorem letter_ne_u : ∀ p ∈ letters, p.2 ≠ 'u' := by decide

/-- The shapes of an escape. -/
inductive Escape (c : Char) : List Char → Prop
  | letter {l : Char} : (c, l) ∈ letters → Escape c ['\\', l]
  | plain : c ≠ '\\' → c ≠ '"' → Escape c [c]
  | unit : c.toNat < 0x10000 → Escape c (unit c.toNat)
  | pair : 0x10000 ≤ c.toNat → Escape c (JsonText.unit (0xd800 + (c.toNat - 0x10000) / 1024) ++
      JsonText.unit (0xdc00 + (c.toNat - 0x10000) % 1024))

/-- Every character is written in one of the four ways. -/
theorem escapeChar_escape (c : Char) : Escape c (escapeChar c) := by
  rw [escapeChar]
  split
  · rename_i l found
    exact .letter (letter_mem found)
  · rename_i none
    split
    · refine .plain ?_ ?_
      · rintro rfl
        cases none
      · rintro rfl
        cases none
    · split
      · exact .unit (by assumption)
      · exact .pair (by omega)

/-- A character is no surrogate and below the last code point. -/
theorem char_bound (c : Char) : c.toNat < 0x110000 ∧ (c.toNat < 0xd800 ∨ 0xdfff < c.toNat) := by
  have valid := c.valid
  simp only [UInt32.isValidChar, Nat.isValidChar] at valid
  simp only [Char.toNat]
  omega

/-- An escape in front of other text tells its character. -/
theorem Escape.recover {c d : Char} {word word' rest rest' : List Char} (left : Escape c word)
    (right : Escape d word') (same : word ++ rest = word' ++ rest') : c = d := by
  have other {n : Nat} {l : Char} {x : Char} {tail tail' : List Char} (known : (x, l) ∈ letters)
      (clash : ['\\', l] ++ tail = JsonText.unit n ++ tail') : False := by
    simp only [JsonText.unit, List.cons_append, List.cons.injEq, true_and] at clash
    exact letter_ne_u _ known clash.1
  have raw {x l : Char} {tail tail' : List Char} (free : x ≠ '\\')
      (clash : [x] ++ tail = '\\' :: l :: tail') : False :=
    free (List.cons.inj clash).1
  have boundC := char_bound c
  have boundD := char_bound d
  cases left with
  | letter known =>
    cases right with
    | letter known' =>
      obtain ⟨rfl, _⟩ := (List.cons.inj (List.cons.inj same).2)
      exact letters_distinct _ known _ known' rfl
    | plain free _ => exact (raw free same.symm).elim
    | unit _ => exact (other known same).elim
    | pair _ =>
      rw [List.append_assoc] at same
      exact (other known same).elim
  | plain free _ =>
    cases right with
    | letter _ => exact (raw free same).elim
    | plain _ _ => exact (List.cons.inj same).1
    | unit _ => exact (raw free same).elim
    | pair _ => exact (raw free same).elim
  | unit small =>
    cases right with
    | letter known => exact (other known same.symm).elim
    | plain free _ => exact (raw free same.symm).elim
    | unit small' => exact Char.toNat_inj.mp (unit_inj (by omega) (by omega) same).1
    | pair large =>
      rw [List.append_assoc] at same
      have units := (unit_inj (by omega) (by omega) same).1
      omega
  | pair large =>
    rw [List.append_assoc] at same
    cases right with
    | letter known => exact (other known same.symm).elim
    | plain free _ => exact (raw free same.symm).elim
    | unit small =>
      have units := (unit_inj (by omega) (by omega) same).1
      omega
    | pair large' =>
      rw [List.append_assoc] at same
      obtain ⟨high, rests⟩ := unit_inj (by omega) (by omega) same
      have low := (unit_inj (by omega) (by omega) rests).1
      exact Char.toNat_inj.mp (by omega)

/-- No escape of a character begins that of another one. -/
theorem escapeChar_prefixFree : PrefixFree escapeChar where
  nonempty c := by
    have escape := escapeChar_escape c
    generalize escapeChar c = word at escape
    cases escape <;> simp [unit]
  recover c d _ _ same := (escapeChar_escape c).recover (escapeChar_escape d) same

/-- No escape begins with a quote. -/
theorem escapeChar_head (c : Char) : '"' ∉ (escapeChar c).head? := by
  have escape := escapeChar_escape c
  generalize escapeChar c = word at escape
  cases escape with
  | plain _ free => simpa using free
  | _ => simp [unit]

/-- A quoted string in front of other text. -/
theorem quote_inj {s t : String} {rest rest' : List Char} (same : quote s ++ rest = quote t ++ rest') :
    s = t ∧ rest = rest' := by
  simp only [quote, List.cons_append, List.append_assoc, List.nil_append, List.cons.injEq,
    true_and] at same
  obtain ⟨chars, rests⟩ := terminated_inj escapeChar_prefixFree escapeChar_head same
  exact ⟨String.toList_injective chars, rests⟩

/-- Text that goes on after a value of an object. -/
def Ends (rest : List Char) : Prop := ∃ tail, rest = ',' :: tail ∨ rest = '}' :: tail

/-- What follows a scalar begins with no sign and no digit. -/
theorem Ends.stop {rest : List Char} (ends : Ends rest) :
    ∀ c ∈ rest.head?, ¬ (c = '-' ∨ c.isDigit = true) := by
  obtain ⟨tail, rfl | rfl⟩ := ends <;> simp

/-- A text starts with a quote and a number does not. -/
theorem quote_ne_repr {s : String} {n : Int} {rest rest' : List Char} (ends : Ends rest') :
    quote s ++ rest ≠ n.repr.toList ++ rest' := by
  intro same
  rw [quote, List.append_assoc, List.cons_append] at same
  cases digits : n.repr.toList with
  | nil =>
    obtain ⟨tail, rfl | rfl⟩ := ends <;> simp [digits] at same
  | cons c more =>
    have first : c = '-' ∨ c.isDigit = true :=
      int_repr_chars (by rw [digits]; exact List.mem_cons_self)
    rw [digits, List.cons_append] at same
    rw [← (List.cons.inj same).1] at first
    exact absurd first (by decide)

/-- A scalar ends before a comma or a closing brace, and its text tells it. -/
theorem scalar_text_inj {a b : Scalar} {rest rest' : List Char} (ends : Ends rest)
    (ends' : Ends rest') (same : a.text ++ rest = b.text ++ rest') : a = b ∧ rest = rest' := by
  cases a with
  | str s =>
    cases b with
    | str t =>
      obtain ⟨rfl, rests⟩ := quote_inj same
      exact ⟨rfl, rests⟩
    | int n => exact absurd same (quote_ne_repr ends')
  | int n =>
    cases b with
    | str t => exact absurd same.symm (quote_ne_repr ends)
    | int m =>
      obtain ⟨digits, rests⟩ := span_inj (fun c => c = '-' ∨ c.isDigit = true)
        (fun _ member => int_repr_chars member) (fun _ member => int_repr_chars member) ends.stop
        ends'.stop same
      obtain rfl := int_repr_inj (String.toList_injective digits)
      exact ⟨rfl, rests⟩

/-- An entry with its value rendered. -/
def render (entry : String × Scalar) : String × List Char := (entry.1, entry.2.text)

/-- A field tells its key and its value. -/
theorem field_inj {e e' : String × Scalar} {rest rest' : List Char} (ends : Ends rest)
    (ends' : Ends rest') (same : field (render e) ++ rest = field (render e') ++ rest') :
    e = e' ∧ rest = rest' := by
  simp only [field, render, List.append_assoc, List.cons_append] at same
  obtain ⟨key, values⟩ := quote_inj same
  obtain ⟨value, rests⟩ := scalar_text_inj ends ends' (List.cons.inj values).2
  exact ⟨Prod.ext key value, rests⟩

/-- What follows the first entry of an object. -/
def more (entries : List (String × Scalar)) : List Char :=
  match entries with
  | [] => ['}']
  | _ => ',' :: List.intercalate [','] (entries.map (fun e => field (render e))) ++ ['}']

/-- What follows a field ends its value. -/
theorem more_ends (entries : List (String × Scalar)) : Ends (more entries) := by
  cases entries with
  | nil => exact ⟨[], Or.inr rfl⟩
  | cons e rest => exact ⟨_, Or.inl rfl⟩

/-- The body of an object is its first field and what follows it. -/
theorem body_cons (e : String × Scalar) (rest : List (String × Scalar)) :
    List.intercalate [','] ((e :: rest).map (fun e => field (render e))) ++ ['}'] =
      field (render e) ++ more rest := by
  cases rest with
  | nil => simp [more]
  | cons e' rest => simp [more, List.intercalate_cons_cons]

/-- The body of an object tells its entries and their order. -/
theorem body_inj {entries entries' : List (String × Scalar)}
    (same : List.intercalate [','] (entries.map (fun e => field (render e))) ++ ['}'] =
      List.intercalate [','] (entries'.map (fun e => field (render e))) ++ ['}']) :
    entries = entries' := by
  have nonempty (e : String × Scalar) (rest : List Char) : ['}'] ≠ field (render e) ++ rest := by
    simp [field, quote]
  induction entries generalizing entries' with
  | nil =>
    cases entries' with
    | nil => rfl
    | cons e' rest' =>
      rw [body_cons] at same
      exact absurd same (nonempty e' _)
  | cons e rest ih =>
    cases entries' with
    | nil =>
      rw [body_cons] at same
      exact absurd same.symm (nonempty e _)
    | cons e' rest' =>
      rw [body_cons, body_cons] at same
      obtain ⟨rfl, tails⟩ := field_inj (more_ends rest) (more_ends rest') same
      cases rest with
      | nil =>
        cases rest' with
        | nil => rfl
        | cons _ _ => simp [more] at tails
      | cons _ _ =>
        cases rest' with
        | nil => simp [more] at tails
        | cons _ _ => rw [ih (List.cons.inj tails).2]

/-- The entries are written one by one, keys untouched. -/
theorem textEntries_map (floatRepr : UInt64 → String) (entries : List (String × Value)) :
    textEntries floatRepr entries = entries.map (fun entry => (entry.1, entry.2.text floatRepr)) := by
  induction entries with
  | nil => rfl
  | cons entry rest ih => rw [textEntries, ih, List.map_cons]

/-- Equal texts of objects of strings and integers come from the same entries. -/
theorem flat_inj {floatRepr : UInt64 → String} {entries entries' : List (String × Scalar)}
    (same : dumps floatRepr (flat entries) = dumps floatRepr (flat entries')) :
    entries.Perm entries' := by
  have texts (entries : List (String × Scalar)) :
      textEntries floatRepr (entries.map (fun entry => (entry.1, .scalar entry.2))) =
        entries.map render := by
    rw [textEntries_map, List.map_map]
    rfl
  have sorted (entries : List (String × Scalar)) :
      ((entries.map render).insertionSort (fun a b => a.1 ≤ b.1)).map field =
        (entries.insertionSort (fun a b => a.1 ≤ b.1)).map (fun e => field (render e)) := by
    rw [← List.map_insertionSort _ _ render entries (fun _ _ _ _ => Iff.rfl), List.map_map]
    rfl
  have lists : (flat entries).text floatRepr = (flat entries').text floatRepr :=
    String.ofList_injective same
  simp only [flat, Value.text, texts, object, sorted] at lists
  have bodies := body_inj (List.cons.inj lists).2
  exact (List.perm_insertionSort _ entries).symm.trans (bodies ▸ List.perm_insertionSort _ entries')

/-! ## Reading back -/

/-- The value of an entry of an object. -/
def Value.get? : Value → String → Option Value
  | .dict entries, key => entries.lookup key
  | _, _ => none

section Reading

variable (normal : UInt64 → UInt64)

mutual

/-- The document that is read from the text of another one. Floats of one text are
read as one float. -/
def Value.loaded : Value → Value
  | .scalar a => .scalar a
  | .float a => .float (normal a)
  | .list items => .list (loadedItems items)
  | .dict entries => .dict ((loadedEntries entries).insertionSort (fun a b => a.1 ≤ b.1))

/-- The items of a list, as they are loaded. -/
def loadedItems : List Value → List Value
  | [] => []
  | item :: rest => item.loaded :: loadedItems rest

/-- The entries of an object, as they are loaded. -/
def loadedEntries : List (String × Value) → List (String × Value)
  | [] => []
  | (key, value) :: rest => (key, value.loaded) :: loadedEntries rest

end

/-- Each item is loaded by itself. -/
theorem loadedItems_map (items : List Value) : loadedItems normal items =
    items.map (fun item => item.loaded normal) := by
  induction items with
  | nil => rfl
  | cons item rest ih => rw [loadedItems, ih, List.map_cons]

/-- Each entry is loaded by itself, under its key. -/
theorem loadedEntries_map (entries : List (String × Value)) : loadedEntries normal entries =
    entries.map (fun entry => (entry.1, entry.2.loaded normal)) := by
  induction entries with
  | nil => rfl
  | cons entry rest ih => rw [loadedEntries, ih, List.map_cons]

/-- An object comes back with its keys sorted, since that is how it was
written. -/
theorem loaded_dict (entries : List (String × Value)) : (Value.dict entries).loaded normal =
    .dict ((entries.map (fun entry => (entry.1, entry.2.loaded normal))).insertionSort
      (fun a b => a.1 ≤ b.1)) := by
  rw [Value.loaded, loadedEntries_map]

/-- An entry of a document that was read back. -/
theorem get?_loaded {entries : List (String × Value)} (distinct : (entries.map Prod.fst).Nodup)
    (key : String) : ((Value.dict entries).loaded normal).get? key =
      (entries.lookup key).map (fun value => value.loaded normal) := by
  have sorted := List.perm_insertionSort (fun a b => a.1 ≤ b.1)
    (entries.map (fun entry => (entry.1, entry.2.loaded normal)))
  have keys : ((entries.map (fun entry => (entry.1, entry.2.loaded normal))).map Prod.fst) =
      entries.map Prod.fst := by rw [List.map_map]; rfl
  rw [loaded_dict, Value.get?, ← KeySort.lookup_perm (keys ▸ distinct) sorted.symm]
  exact KeySort.lookup_map Function.injective_id (fun value => value.loaded normal) entries key

/-- Under each key of an object of scalars the loaded object has what was
stored. -/
theorem get?_flat {entries : List (String × Scalar)} (distinct : (entries.map Prod.fst).Nodup)
    (key : String) : ((flat entries).loaded normal).get? key =
      (entries.lookup key).map Value.scalar := by
  have keys : (entries.map (fun entry => (entry.1, Value.scalar entry.2))).map Prod.fst =
      entries.map Prod.fst := by rw [List.map_map]; rfl
  have found := KeySort.lookup_map Function.injective_id Value.scalar entries key
  simp only [id] at found
  rw [flat, get?_loaded normal (keys ▸ distinct), found, Option.map_map]
  rfl

end Reading

end JsonText
