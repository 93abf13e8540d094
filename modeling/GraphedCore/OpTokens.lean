import GraphedCore.Tokens
import GraphedCore.Lib.Replace

/-!
# Decoding operator tokens

The token of an op or a reduction is decoded into its kind, name and parameters. Escapes
are taken back one separator after another, in the opposite order, and no replacement
makes or breaks an escape that is still to be read. What comes back is what the token
tells: every part exactly, but for the bits of a NaN.
-/

namespace GraphedCore

open Separated Numeral Replace

/-- Take the escapes back, that of `%` last, in the reverse of the order in which
they were made. -/
def unescapeToken (s : String) : String :=
  String.ofList <|
    replace '%' ['2', '5'] ['%'] <| replace '%' ['3', 'B'] [';'] <|
      replace '%' ['3', 'D'] ['='] <| replace '%' ['7', 'C'] ['|'] s.toList

/-- Decode one tagged value token. What has another tag, or does not fit its type,
is refused. -/
def ParamValue.fromToken (token : String) : Option ParamValue :=
  match token.toList with
  | 'i' :: rest =>
    (fromStrRadix 10 (-2 ^ 63) (2 ^ 63 - 1) rest).map (fun a => .int (Int64.ofInt a))
  | 'f' :: rest =>
    (fromStrRadix 16 0 (2 ^ 64 - 1) rest).map (fun bits => .float (UInt64.ofNat bits.toNat))
  | 'b' :: rest =>
    if rest = "true".toList then some (.bool true)
    else if rest = "false".toList then some (.bool false)
    else none
  | 's' :: rest => some (.str (unescapeToken (String.ofList rest)))
  | _ => none

/-- Decode one `key=value` pair. The first equals sign ends the key, since others
are escaped. -/
def entryFromToken (part : List Char) : Option (String × ParamValue) := do
  let (k, v) ← splitOnce '=' part
  let value ← ParamValue.fromToken (String.ofList v)
  some (unescapeToken (String.ofList k), value)

/-- Parameters are read back entry by entry. The empty text stands for none. -/
def ParamMap.fromToken (s : String) : Option ParamMap :=
  if s.isEmpty then some (.new [])
  else ((s.toList.splitOn ';').mapM entryFromToken).map .new

/-- Decode `op|name` or `red|name`, with or without parameters. Other kinds are
not read. -/
def parseOpToken (token : String) : Option (String × String × ParamMap) := do
  let parts := splitN '|' 3 token.toList
  let kind ← parts[0]?
  if kind ≠ "op".toList ∧ kind ≠ "red".toList then none else do
    let name ← parts[1]?
    let params ← match parts[2]? with
      | some p => ParamMap.fromToken (String.ofList p)
      | none => some (.new [])
    some (String.ofList kind, unescapeToken (String.ofList name), params)

/-! ## Escapes -/

/-- Escape only the given characters. Unescaping undoes one character after
another. -/
def escapeWithin (reserved : List Char) (c : Char) : List Char :=
  if c ∈ reserved then escapeChar c else [c]

/-- A per cent sign in an escaped character is its first sign. -/
theorem escapeChar_inner (c : Char) : '%' ∉ (escapeChar c).tail := by
  unfold escapeChar
  repeat' split
  all_goals simp

/-- An escape is a per cent sign and two more. -/
theorem escapeChar_length {c : Char} (begins : (escapeChar c).head? = some '%') :
    (escapeChar c).tail.length = 2 := by
  unfold escapeChar at begins ⊢
  repeat' split at begins
  all_goals simp_all

/-- Escaped characters are words: each is a single character or a per cent sign
with two more, so a text is cut into them in one way. -/
theorem escapeWithin_words {reserved others : List Char} (percent : '%' ∈ reserved)
    (length : others.length = 2) : Words '%' others (escapeWithin reserved) where
  inner c := by
    rw [escapeWithin]
    split
    · exact escapeChar_inner c
    · exact List.not_mem_nil
  length c begins := by
    rw [escapeWithin] at begins ⊢
    by_cases member : c ∈ reserved
    · rw [if_pos member] at begins ⊢
      rw [escapeChar_length begins, length]
    · rw [if_neg member] at begins
      obtain rfl : c = '%' := Option.some.inj begins
      exact absurd percent member

/-- Different characters are escaped differently. -/
theorem escapeChar_inj {c d : Char} (same : escapeChar c = escapeChar d) : c = d :=
  escapeChar_prefixFree.recover c d [] [] (by rw [same])

/-- Taking back the escape of one character leaves the others. -/
theorem replace_escape {x : Char} {others reserved : List Char}
    (spelled : escapeChar x = '%' :: others) (length : others.length = 2)
    (percent : '%' ∈ x :: reserved) (fresh : x ∉ reserved) (text : List Char) :
    replace '%' others [x] (text.flatMap (escapeWithin (x :: reserved))) =
      text.flatMap (escapeWithin reserved) := by
  rw [replace_flatMap (escapeWithin_words percent length)]
  congr 1
  funext c
  by_cases same : c = x
  · subst same
    rw [escapeWithin, if_pos List.mem_cons_self, if_pos spelled, escapeWithin, if_neg fresh]
  · have kept : escapeWithin (x :: reserved) c = escapeWithin reserved c := by
      simp [escapeWithin, same]
    have other : escapeWithin reserved c ≠ '%' :: others := by
      rw [escapeWithin]
      split
      · exact fun clash => same (escapeChar_inj (clash.trans spelled.symm))
      · intro clash
        rw [← (List.cons.inj clash).2] at length
        cases length
    rw [kept, if_neg other]

/-- Unescaping is the inverse of escaping. -/
theorem unescapeToken_escapeToken (s : String) : unescapeToken (escapeToken s) = s := by
  have all : escapeChar = escapeWithin ['|', '=', ';', '%'] := by
    funext c
    by_cases member : c ∈ ['|', '=', ';', '%']
    · rw [escapeWithin, if_pos member]
    · rw [escapeWithin, if_neg member]
      simp only [List.mem_cons, List.not_mem_nil, or_false, not_or] at member
      simp [escapeChar, member]
  have none : escapeWithin [] = fun c => [c] := by
    funext c
    exact if_neg List.not_mem_nil
  rw [unescapeToken, toList_escapeToken, all, replace_escape rfl rfl (by decide) (by decide),
    replace_escape rfl rfl (by decide) (by decide), replace_escape rfl rfl (by decide) (by decide),
    replace_escape rfl rfl (by decide) (by decide), none, List.flatMap_singleton',
    String.ofList_toList]

/-! ## Values -/

/-- A hexadecimal digit is read back. -/
theorem toDigit_hexDigit : ∀ d < 16, toDigit 16 (hexDigit d) = some d := by decide

/-- A number of a fixed number of hexadecimal digits is read back. -/
theorem readDigits_hex (width : Nat) {n : Nat} (small : n < 16 ^ width) :
    readDigits 16 0 (hex n width) = some n := by
  induction width generalizing n with
  | zero =>
    obtain rfl : n = 0 := by simpa using small
    rfl
  | succ width ih =>
    rw [Nat.pow_succ, Nat.mul_comm] at small
    rw [hex, readDigits_concat (ih (Nat.div_lt_of_lt_mul small))
      (toDigit_hexDigit (n % 16) (Nat.mod_lt _ (by decide))), Nat.div_add_mod]

/-- No digit is a sign. -/
theorem hexDigit_unsigned : ∀ d < 16, hexDigit d ≠ '+' ∧ hexDigit d ≠ '-' := by decide

/-- A hexadecimal number has no sign. -/
theorem hex_unsigned (least : Int) (n width : Nat) :
    takeSign least (hex n width) = (false, hex n width) := by
  cases spelled : hex n width with
  | nil => rfl
  | cons c rest =>
    have first : c ∈ hex n width := spelled ▸ List.mem_cons_self
    obtain ⟨d, small, rfl⟩ := mem_hex first
    exact takeSign_unsigned (hexDigit_unsigned d small).1 (hexDigit_unsigned d small).2

/-- A value token is decoded to the value, with the canonical bits. -/
theorem ParamValue.fromToken_token (value : ParamValue) :
    fromToken value.token = some value.canon := by
  cases value with
  | int a =>
    have spelled : (token (.int a)).toList = 'i' :: a.toInt.repr.toList := by simp [token]
    have read := fromStrRadix_repr a.le_toInt (Int.le_sub_one_of_lt a.toInt_lt)
    rw [fromToken, spelled]
    simp only [read, Option.map_some, Int64.ofInt_toInt, canon]
  | float a =>
    have spelled : (token (.float a)).toList = 'f' :: hex (floatKey a).toNat 16 := by simp [token]
    have read := @fromStrRadix_digits 16 0 (2 ^ 64 - 1) _ (floatKey a).toNat
      (hex_unsigned 0 (floatKey a).toNat 16) (by simp [hex])
      (readDigits_hex 16 (floatKey a).toNat_lt) (Int.natCast_nonneg _)
      (by have := (floatKey a).toNat_lt; omega)
    rw [fromToken, spelled]
    simp only [read, Option.map_some, Int.toNat_natCast, UInt64.ofNat_toNat, canon]
  | bool a => cases a <;> rfl
  | str a =>
    have spelled : (token (.str a)).toList = 's' :: (escapeToken a).toList := by simp [token]
    rw [fromToken, spelled]
    simp [unescapeToken_escapeToken, canon]

/-! ## Parameters -/

/-- An entry is read back from its token, up to the bits of a NaN. -/
theorem entryFromToken_entryToken (entry : String × ParamValue) :
    entryFromToken (ParamMap.entryToken entry) = some (ParamMap.canonEntry entry) := by
  rw [entryFromToken, ParamMap.entryToken, splitOnce_append (escaped_free '=' (by simp) entry.1)]
  simp only [Option.bind_eq_bind, Option.bind_some, String.ofList_toList,
    ParamValue.fromToken_token, unescapeToken_escapeToken]
  rfl

/-- Entries are read back one by one. -/
theorem entriesFromToken (entries : List (String × ParamValue)) :
    (entries.map ParamMap.entryToken).mapM entryFromToken =
      some (entries.map ParamMap.canonEntry) := by
  induction entries with
  | nil => rfl
  | cons entry rest ih =>
    rw [List.map_cons, List.mapM_cons, entryFromToken_entryToken, ih]
    rfl

/-- The token of a nonempty map splits into the tokens of its entries. -/
theorem ParamMap.splitOn_token {p : ParamMap} (someP : p.isEmpty = false) :
    p.token.toList.splitOn ';' = p.entries.map entryToken := by
  have free : ∀ field ∈ p.entries.map entryToken, ';' ∉ field := by
    intro field member
    obtain ⟨entry, _, rfl⟩ := List.mem_map.mp member
    exact entryToken_free entry
  rw [toList_token, List.splitOn_intercalate ';' free (by simpa [isEmpty] using someP)]

/-- Parameters that are there have a token that is not empty. -/
theorem ParamMap.token_isEmpty {p : ParamMap} (someP : p.isEmpty = false) :
    p.token.isEmpty = false := by
  rw [Bool.eq_false_iff]
  intro nothing
  have fields := splitOn_token someP
  rw [String.isEmpty_iff.mp nothing] at fields
  have empty : [] ∈ p.entries.map entryToken := by
    rw [← fields]
    exact List.mem_singleton_self []
  obtain ⟨entry, _, spelled⟩ := List.mem_map.mp empty
  exact absurd spelled (List.append_ne_nil_of_right_ne_nil _ (List.cons_ne_nil _ _))

/-- Parameters are read back from their token, up to the bits of NaNs. -/
theorem ParamMap.fromToken_token {p : ParamMap} (someP : p.isEmpty = false) :
    fromToken p.token = some p.canon := by
  rw [fromToken, token_isEmpty someP, if_neg Bool.false_ne_true, splitOn_token someP,
    entriesFromToken]
  exact congrArg some p.canon.new_entries

/-! ## Operators -/

namespace NodeKey

/-- The kind, name and parameters of an op or a reduction, which is what its token
spells. -/
def opParts : NodeKey → Option (String × String × ParamMap)
  | .op name params _ => some ("op", name, params)
  | .reduction name params _ => some ("red", name, params)
  | _ => none

end NodeKey

/-- A map without entries is the empty one. -/
theorem ParamMap.canon_of_isEmpty {p : ParamMap} (empty : p.isEmpty = true) :
    p.canon = new [] := by
  apply ext
  rw [isEmpty, List.isEmpty_iff] at empty
  simp [canon, empty, new]

/-- Decoding what `withParams` joined. -/
theorem parseOpToken_withParams {kind : String} (known : kind = "op" ∨ kind = "red")
    (name : String) (p : ParamMap) :
    parseOpToken (withParams (kind ++ "|" ++ escapeToken name) p) =
      some (kind, name, p.canon) := by
  have free : '|' ∉ kind.toList := by
    rcases known with rfl | rfl <;> decide
  have accepted : kind.toList ≠ "op".toList → kind.toList = "red".toList := by
    rcases known with rfl | rfl <;> decide
  have escaped := escaped_free '|' (by simp) name
  cases empty : p.isEmpty with
  | true =>
    have parts : splitN '|' 3 (withParams (kind ++ "|" ++ escapeToken name) p).toList =
        [kind.toList, (escapeToken name).toList] := by
      have spelled : (withParams (kind ++ "|" ++ escapeToken name) p).toList =
          kind.toList ++ '|' :: (escapeToken name).toList := by simp [withParams, empty]
      rw [spelled, splitN_append free, splitN_free escaped]
    rw [parseOpToken, parts, ParamMap.canon_of_isEmpty empty]
    simpa [unescapeToken_escapeToken] using accepted
  | false =>
    have parts : splitN '|' 3 (withParams (kind ++ "|" ++ escapeToken name) p).toList =
        [kind.toList, (escapeToken name).toList, p.token.toList] := by
      have spelled : (withParams (kind ++ "|" ++ escapeToken name) p).toList =
          kind.toList ++ '|' :: ((escapeToken name).toList ++ '|' :: p.token.toList) := by
        simp [withParams, empty]
      rw [spelled, splitN_append free, splitN_append escaped]
      rfl
    rw [parseOpToken, parts]
    simpa [unescapeToken_escapeToken, ParamMap.fromToken_token empty] using accepted

/-- The token of an op or a reduction is its kind, its escaped name and its
parameters. -/
theorem NodeKey.token_of_opParts {key : NodeKey} {kind name : String} {params : ParamMap}
    (parts : key.opParts = some (kind, name, params)) :
    (kind = "op" ∨ kind = "red") ∧
      key.token = withParams (kind ++ "|" ++ escapeToken name) params := by
  cases key <;> simp only [opParts, Option.some.injEq, Prod.mk.injEq, reduceCtorEq] at parts
  all_goals
    obtain ⟨rfl, rfl, rfl⟩ := parts
    simp [token]

/-- The token of an op or a reduction is decoded into its kind, its name and equal
parameters, so it is shared exactly by the nodes that agree on these. -/
theorem parseOpToken_token {key other : NodeKey} {kind name kind' name' : String}
    {params params' : ParamMap} (parts : key.opParts = some (kind, name, params))
    (parts' : other.opParts = some (kind', name', params')) :
    (∃ decoded, parseOpToken key.token = some (kind, name, decoded) ∧
      decoded.eq params = true) ∧
      (key.token = other.token ↔ kind = kind' ∧ name = name' ∧ params.eq params' = true) := by
  obtain ⟨known, spelled⟩ := NodeKey.token_of_opParts parts
  obtain ⟨known', spelled'⟩ := NodeKey.token_of_opParts parts'
  have decoded := parseOpToken_withParams known name params
  have decoded' := parseOpToken_withParams known' name' params'
  rw [spelled, spelled', ParamMap.eq_iff]
  refine ⟨⟨params.canon, decoded, ?_⟩, fun same => ?_, ?_⟩
  · rw [ParamMap.eq_iff, ParamMap.canon_canon]
  · rw [same, decoded'] at decoded
    simp only [Option.some.injEq, Prod.mk.injEq] at decoded
    exact ⟨decoded.1.symm, decoded.2.1.symm, decoded.2.2.symm⟩
  · rintro ⟨rfl, rfl, same⟩
    rw [← withParams_canon _ params, same, withParams_canon]

/-- Keys and values with every separator, a text that looks like an escape, and
two NaNs. -/
def hostileParams (nan : F64) : ParamMap :=
  .new [("a=b", .str "x;b=i1"), ("%7C", .str "%257C|"), ("", .str ""), ("n", .float nan),
    ("i", .int (-9223372036854775808))]

/-- A name and parameters full of delimiters, and a NaN. -/
theorem parseOpToken_token_of_hostile :
    ∃ decoded, parseOpToken (NodeKey.op "a|b%3D" (hostileParams 0xfff8000000000001) [0]).token =
        some ("op", "a|b%3D", decoded) ∧
      decoded.eq (hostileParams 0xfff8000000000001) = true ∧
      (NodeKey.op "a|b%3D" (hostileParams 0xfff8000000000001) [0]).token =
        (NodeKey.op "a|b%3D" (hostileParams 0x7ff8000000000000) [7]).token := by
  obtain ⟨⟨decoded, read, equal⟩, shared⟩ :=
    @parseOpToken_token (.op "a|b%3D" (hostileParams 0xfff8000000000001) [0])
      (.op "a|b%3D" (hostileParams 0x7ff8000000000000) [7]) _ _ _ _ _ _ rfl rfl
  exact ⟨decoded, read, equal, shared.mpr ⟨rfl, rfl, by decide⟩⟩

end GraphedCore
