import GraphedCore.Keys
import GraphedCore.Canonicalize
import GraphedCore.Lib.Separated
import GraphedCore.Lib.Numeral

/-!
# What a token tells

A token begins with the tag of its kind, so the engine reads the boundary flag off
it. Names, parameter keys and string values are escaped, and an escaped string
contains none of the separators. So the token of a source, an op or a reduction
determines its name and its parameters up to equality.

An external token does not determine its descriptor, and a stage token tells only
the number of members.
-/

namespace GraphedCore

open Separated Numeral

/-! ## Escaping -/

/-- The escape of one character. Escaping a text is the same as escaping its
characters one by one. -/
def escapeChar (c : Char) : List Char :=
  if c = '%' then ['%', '2', '5'] else if c = ';' then ['%', '3', 'B']
  else if c = '=' then ['%', '3', 'D'] else if c = '|' then ['%', '7', 'C'] else [c]

/-- The four replacements in turn escape every character once. -/
theorem toList_escapeToken (s : String) :
    (escapeToken s).toList = s.toList.flatMap escapeChar := by
  rw [escapeToken, String.toList_ofList]
  simp only [replaceChar, List.flatMap_assoc]
  congr 1
  funext c
  by_cases percent : c = '%'
  · simp [percent, escapeChar]
  by_cases semicolon : c = ';'
  · simp [semicolon, escapeChar]
  by_cases equals : c = '='
  · simp [equals, escapeChar]
  by_cases bar : c = '|'
  · simp [bar, escapeChar]
  · simp [escapeChar, percent, semicolon, equals, bar]

/-- An escape starts with a backslash and the second character tells which one it
is. -/
theorem escapeChar_prefixFree : PrefixFree escapeChar where
  nonempty c := by
    unfold escapeChar
    repeat' split
    all_goals simp
  recover c d rest rest' same := by
    unfold escapeChar at same
    repeat' split at same
    all_goals simp_all [eq_comm]

/-- Escaping loses nothing. -/
theorem escapeToken_inj {s t : String} (same : escapeToken s = escapeToken t) : s = t := by
  apply String.toList_injective
  apply flatMap_inj escapeChar_prefixFree
  rw [← toList_escapeToken, ← toList_escapeToken, same]

/-- Escaped text contains no separator. -/
theorem escaped_free (separator : Char) (reserved : separator ∈ ['|', '=', ';']) (s : String) :
    separator ∉ (escapeToken s).toList := by
  rw [toList_escapeToken, List.mem_flatMap]
  rintro ⟨c, _, member⟩
  unfold escapeChar at member
  simp only [List.mem_cons, List.not_mem_nil, or_false] at reserved
  repeat' split at member
  all_goals rcases reserved with rfl | rfl | rfl <;> simp_all [eq_comm]

/-! ## Values -/

/-- Digits tell their values. -/
theorem hexDigit_inj : ∀ d < 16, ∀ e < 16, hexDigit d = hexDigit e → d = e := by decide

/-- A digit is not the separator of the entries. -/
theorem hexDigit_free : ∀ d < 16, hexDigit d ≠ ';' := by decide

/-- Numbers that fit the width are told by their digits. -/
theorem hex_inj (width : Nat) {m n : Nat} (smallM : m < 16 ^ width) (smallN : n < 16 ^ width)
    (same : hex m width = hex n width) : m = n := by
  induction width generalizing m n with
  | zero => omega
  | succ width ih =>
    obtain ⟨upper, lower⟩ := List.append_inj' same rfl
    have digits := hexDigit_inj (m % 16) (Nat.mod_lt _ (by decide)) (n % 16)
      (Nat.mod_lt _ (by decide)) (List.singleton_injective lower)
    rw [Nat.pow_succ, Nat.mul_comm] at smallM smallN
    have rest := ih (Nat.div_lt_of_lt_mul smallM) (Nat.div_lt_of_lt_mul smallN) upper
    omega

/-- A number is spelled in digits only. -/
theorem mem_hex {width n : Nat} {c : Char} (member : c ∈ hex n width) :
    ∃ d < 16, c = hexDigit d := by
  induction width generalizing n with
  | zero => cases member
  | succ width ih =>
    rw [hex, List.mem_append, List.mem_singleton] at member
    rcases member with upper | lower
    · exact ih upper
    · exact ⟨n % 16, Nat.mod_lt _ (by decide), lower⟩

/-- So the separator is in no number. -/
theorem hex_free (width n : Nat) : ';' ∉ hex n width := by
  intro member
  obtain ⟨d, small, same⟩ := mem_hex member
  exact hexDigit_free d small same.symm

namespace ParamValue

/-- The token of a value tells the value, up to what the comparison of values
identifies. -/
theorem token_inj {a b : ParamValue} (same : a.token = b.token) : a.canon = b.canon := by
  have chars := congrArg String.toList same
  cases a <;> cases b <;> simp only [token, String.toList_append] at chars <;>
    try simp at chars
  case int.int a b =>
    have ints := int_repr_inj (String.toList_injective chars)
    rw [Int64.toInt_inj.mp ints]
  case float.float a b =>
    have bits := hex_inj 16 (UInt64.toNat_lt _) (UInt64.toNat_lt _) chars
    rw [canon, canon, UInt64.toNat_inj.mp bits]
  case bool.bool a b =>
    cases a <;> cases b <;> simp_all
  case str.str a b =>
    rw [escapeToken_inj (String.toList_injective chars)]

/-- The separator is in no token of a value: a text is escaped and a number is
spelled in digits. -/
theorem token_free (value : ParamValue) : ';' ∉ value.token.toList := by
  cases value with
  | int a =>
    rw [token, String.toList_append, List.mem_append]
    rintro (tag | chars)
    · simp at tag
    · rcases int_repr_chars chars with minus | digit
      · exact absurd minus (by decide)
      · exact absurd digit (by decide)
  | float a =>
    rw [token, String.toList_append, List.mem_append]
    rintro (tag | chars)
    · simp at tag
    · rw [String.toList_ofList] at chars
      exact hex_free _ _ chars
  | bool a => cases a <;> simp [token]
  | str a =>
    rw [token, String.toList_append, List.mem_append]
    rintro (tag | chars)
    · simp at tag
    · exact escaped_free ';' (by simp) a chars

end ParamValue

/-! ## Parameters -/

namespace ParamMap

/-- One `key=value` pair, with its key escaped. -/
def entryToken (entry : String × ParamValue) : List Char :=
  (escapeToken entry.1).toList ++ '=' :: entry.2.token.toList

/-- The entries, joined by the separator. -/
theorem toList_token (p : ParamMap) :
    p.token.toList = List.intercalate [';'] (p.entries.map entryToken) := by
  rw [token, String.toList_intercalate, List.map_map]
  exact congrArg (List.intercalate [';'])
    (List.map_congr_left (fun entry _ => by simp [entryToken]))

/-- The token of an entry tells its name and its value. -/
theorem entryToken_inj {a b : String × ParamValue} (same : entryToken a = entryToken b) :
    canonEntry a = canonEntry b := by
  obtain ⟨keys, values⟩ := split_inj '=' (escaped_free '=' (by simp) a.1)
    (escaped_free '=' (by simp) b.1) same
  rw [canonEntry, canonEntry, escapeToken_inj (String.toList_injective keys),
    ParamValue.token_inj (String.toList_injective values)]

/-- The separator is in no token of an entry. -/
theorem entryToken_free (entry : String × ParamValue) : ';' ∉ entryToken entry := by
  rw [entryToken, List.mem_append, List.mem_cons]
  rintro (key | equals | value)
  · exact escaped_free ';' (by simp) entry.1 key
  · exact absurd equals (by decide)
  · exact entry.2.token_free value

/-- Maps that are not empty are told by their tokens. The empty map has an empty
token, which is not written at all. -/
theorem token_inj {p q : ParamMap} (someP : p.isEmpty = false) (someQ : q.isEmpty = false)
    (same : p.token = q.token) : p.canon = q.canon := by
  apply ext
  have lists := congrArg String.toList same
  rw [toList_token, toList_token] at lists
  have free (entries : List (String × ParamValue)) :
      ∀ field ∈ entries.map entryToken, ';' ∉ field := by
    intro field member
    obtain ⟨entry, _, rfl⟩ := List.mem_map.mp member
    exact entryToken_free entry
  have fields := intercalate_inj ';' (free p.entries) (free q.entries)
    (by simpa [isEmpty] using someP) (by simpa [isEmpty] using someQ) lists
  have entries := congrArg List.length fields
  rw [List.length_map, List.length_map] at entries
  refine List.ext_getElem (by simpa [canon] using entries) (fun k left right => ?_)
  simp only [canon, List.length_map] at left right
  simp only [canon, List.getElem_map]
  apply entryToken_inj
  have pointwise := congrArg (fun l => l[k]?) fields
  simpa [left, right] using pointwise

end ParamMap

/-- A name and its parameters, as every token but that of a stage spells them. -/
theorem withParams_inj (tag : String) {name name' : String} {p q : ParamMap}
    (same : withParams (tag ++ escapeToken name) p = withParams (tag ++ escapeToken name') q) :
    name = name' ∧ p.canon = q.canon := by
  have spelled (name : String) (p : ParamMap) :
      (withParams (tag ++ escapeToken name) p).toList = tag.toList ++ ((escapeToken name).toList ++
        ((if p.isEmpty then none else some p.token.toList).map ('|' :: ·)).getD []) := by
    rw [withParams]
    cases p.isEmpty <;> simp
  have lists := congrArg String.toList same
  rw [spelled, spelled] at lists
  obtain ⟨names, tails⟩ := optional_inj '|' (escaped_free '|' (by simp) name)
    (escaped_free '|' (by simp) name') (List.append_cancel_left lists)
  refine ⟨escapeToken_inj (String.toList_injective names), ?_⟩
  cases emptyP : p.isEmpty <;> cases emptyQ : q.isEmpty <;> simp [emptyP, emptyQ] at tails
  · exact ParamMap.token_inj emptyP emptyQ (String.toList_injective tails)
  · apply ParamMap.ext
    rw [ParamMap.isEmpty, List.isEmpty_iff] at emptyP emptyQ
    simp [ParamMap.canon, emptyP, emptyQ]

namespace NodeKey

/-! ## Kinds -/

/-- The kind of a node, as its token spells it before the first bar. -/
def tag : NodeKey → List Char
  | .source _ _ => ['s', 'r', 'c']
  | .op _ _ _ => ['o', 'p']
  | .reduction _ _ _ => ['r', 'e', 'd']
  | .external _ _ _ => ['e', 'x', 't']
  | .stage _ _ => ['s', 't', 'a', 'g', 'e']

/-- Parameters are put behind a token and leave its tag alone. -/
theorem toList_withParams (tag rest : List Char) {token : String} (p : ParamMap)
    (spelled : token.toList = tag ++ '|' :: rest) :
    ∃ rest', (withParams token p).toList = tag ++ '|' :: rest' := by
  rw [withParams]
  split
  · exact ⟨rest, spelled⟩
  · exact ⟨rest ++ '|' :: p.token.toList, by simp [spelled]⟩

/-- A token spells its kind before the first bar. -/
theorem token_tag (key : NodeKey) : ∃ rest, key.token.toList = key.tag ++ '|' :: rest := by
  cases key with
  | source name p => exact toList_withParams _ (escapeToken name).toList p (by simp [tag])
  | op name p _ => exact toList_withParams _ (escapeToken name).toList p (by simp [tag])
  | reduction name p _ => exact toList_withParams _ (escapeToken name).toList p (by simp [tag])
  | external d p _ =>
    exact toList_withParams _ (d.kind ++ "|" ++ d.contentHash ++ "|" ++ d.framework ++ "|" ++
      d.version ++ "|" ++ d.ioSchema ++ "|" ++ d.preprocessingRef.getD "-").toList p
      (by simp [tag])
  | stage _ members => exact ⟨members.length.repr.toList, by simp [token, tag]⟩

/-- A tag is a fixed word without a bar. -/
theorem tag_free (key : NodeKey) : '|' ∉ key.tag := by
  cases key <;> simp [tag]

/-- A token starts with its tag, so keys of one token have one tag. -/
theorem tag_eq {key other : NodeKey} (same : key.token = other.token) : key.tag = other.tag := by
  obtain ⟨rest, spelled⟩ := key.token_tag
  obtain ⟨rest', spelled'⟩ := other.token_tag
  rw [same, spelled'] at spelled
  exact (split_inj '|' other.tag_free key.tag_free spelled).1.symm

/-- The engine reads the boundary flag off the token. -/
theorem boundaryFromToken_token (key : NodeKey) : boundaryFromToken key.token = key.isBoundary := by
  obtain ⟨rest, spelled⟩ := key.token_tag
  rw [boundaryFromToken, spelled]
  cases key <;> simp [tag, isBoundary, List.isPrefixOf]

/-- Keys of one token are boundaries together, since the tag decides. -/
theorem isBoundary_eq {key other : NodeKey} (same : key.token = other.token) :
    key.isBoundary = other.isBoundary := by
  rw [← boundaryFromToken_token, same, boundaryFromToken_token]

/-- A source, an op or a reduction. The token of such a node spells all of it but
the inputs. -/
def IsPlain : NodeKey → Prop
  | .source _ _ | .op _ _ _ | .reduction _ _ _ => True
  | _ => False

instance (key : NodeKey) : Decidable key.IsPlain :=
  match key with
  | .source _ _ | .op _ _ _ | .reduction _ _ _ => isTrue trivial
  | .external _ _ _ | .stage _ _ => isFalse not_false

/-- Between plain keys the token is the operator. -/
theorem token_inj {key other : NodeKey} (plain : key.IsPlain) (plain' : other.IsPlain)
    (same : key.token = other.token) : key.operator = other.operator := by
  have tags := tag_eq same
  cases key <;> cases other <;> simp only [IsPlain] at plain plain' <;> simp [tag] at tags
  all_goals
    obtain ⟨rfl, params⟩ := withParams_inj _ same
    simp [operator, canon, params, withInputs]

/-- Keys that are neither payloads nor stages have one token exactly when they are
the same operator: the same kind, name and parameters. -/
theorem token_eq_iff {key other : NodeKey} (plain : key.IsPlain) (plain' : other.IsPlain) :
    key.token = other.token ↔ key.operator = other.operator := by
  refine ⟨token_inj plain plain', fun same => ?_⟩
  rw [← token_operator key, same, token_operator]

end NodeKey

end GraphedCore
