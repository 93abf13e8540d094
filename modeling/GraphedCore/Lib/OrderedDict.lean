import Mathlib.Data.List.Nodup

/-!
# Ordered dictionaries

Entries in their order, oldest first, with distinct keys.
-/

universe u v

/-- Entries in the order of their insertion, at most one for each key. -/
structure OrderedDict (α : Type u) (β : Type v) where
  entries : List (α × β)
  distinct : (entries.map Prod.fst).Nodup

namespace OrderedDict

variable {α : Type u} {β : Type v}

/-- A dictionary without entries. -/
def empty : OrderedDict α β := ⟨[], List.nodup_nil⟩

variable [DecidableEq α]

/-- What is stored under a key. -/
def get? (d : OrderedDict α β) (key : α) : Option β := d.entries.lookup key

/-- The entries without a key. -/
def erase (d : OrderedDict α β) (key : α) : OrderedDict α β where
  entries := d.entries.filter (fun entry => entry.1 ≠ key)
  distinct := d.distinct.sublist (List.filter_sublist.map _)

/-- Add an entry at the end, in place of any entry with the key. -/
def put (d : OrderedDict α β) (key : α) (value : β) : OrderedDict α β where
  entries := (d.erase key).entries ++ [(key, value)]
  distinct := by
    rw [List.map_append, List.nodup_append]
    refine ⟨(d.erase key).distinct, List.nodup_singleton _, ?_⟩
    rintro _ member _ last rfl
    obtain ⟨entry, kept, rfl⟩ := List.mem_map.mp member
    have other := (List.mem_filter.mp kept).2
    simp only [List.map_cons, List.map_nil, List.mem_singleton] at last
    simp [last] at other

/-- Give a key a value: in the place of its entry, or at the end. -/
def set (d : OrderedDict α β) (key : α) (value : β) : OrderedDict α β where
  entries :=
    if key ∈ d.entries.map Prod.fst then
      d.entries.map (fun entry => if entry.1 = key then (key, value) else entry)
    else d.entries ++ [(key, value)]
  distinct := by
    split
    · rw [List.map_map, List.map_congr_left (g := Prod.fst)]
      · exact d.distinct
      · intro entry _
        by_cases same : entry.1 = key <;> simp [same]
    · rename_i fresh
      rw [List.map_append, List.nodup_append]
      refine ⟨d.distinct, List.nodup_singleton _, ?_⟩
      rintro other member _ last rfl
      have same : other = key := List.mem_singleton.mp last
      exact fresh (same ▸ member)

/-- The oldest entry, and the others. -/
def popFirst (d : OrderedDict α β) : Option ((α × β) × OrderedDict α β) :=
  match d.entries with
  | [] => none
  | entry :: _ =>
    some (entry, ⟨d.entries.tail, d.distinct.sublist ((List.tail_sublist _).map _)⟩)

omit [DecidableEq α] in
/-- Nothing can be popped from an empty dictionary. -/
theorem popFirst_nil {d : OrderedDict α β} (shape : d.entries = []) : d.popFirst = none := by
  obtain ⟨entries, distinct⟩ := d
  subst shape
  rfl

omit [DecidableEq α] in
/-- The first entry is popped and the others stay in their order. -/
theorem popFirst_cons {d : OrderedDict α β} {entry : α × β} {rest : List (α × β)}
    (shape : d.entries = entry :: rest) :
    ∃ others, d.popFirst = some (entry, others) ∧ others.entries = rest := by
  obtain ⟨entries, distinct⟩ := d
  subst shape
  exact ⟨_, rfl, rfl⟩

/-- Nothing is found exactly under the keys that are not there. -/
theorem get?_eq_none_iff (d : OrderedDict α β) (key : α) :
    d.get? key = none ↔ key ∉ d.entries.map Prod.fst := by
  rw [get?, List.lookup_eq_none_iff, List.mem_map]
  constructor
  · rintro absent ⟨entry, member, rfl⟩
    simpa using absent entry member
  · intro absent entry member
    simpa using fun same : key = entry.1 => absent ⟨entry, member, same.symm⟩

/-- Erasing drops the entry of the key. -/
theorem erase_entries (d : OrderedDict α β) (key : α) :
    (d.erase key).entries = d.entries.filter (fun entry => entry.1 ≠ key) := rfl

/-- Putting moves the key to the end. -/
theorem put_entries (d : OrderedDict α β) (key : α) (value : β) :
    (d.put key value).entries = (d.erase key).entries ++ [(key, value)] := rfl

/-- The keys after a put: those that stay, then the key. -/
theorem put_keys (d : OrderedDict α β) (key : α) (value : β) :
    (d.put key value).entries.map Prod.fst =
      (d.entries.map Prod.fst).filter (· ≠ key) ++ [key] := by
  rw [put_entries, erase_entries, List.map_append, List.filter_map]
  rfl

/-- Erasing a key that is not there changes nothing. -/
theorem erase_absent {d : OrderedDict α β} {key : α} (absent : d.get? key = none) :
    (d.erase key).entries = d.entries := by
  refine List.filter_eq_self.mpr (fun entry member => ?_)
  have other := (get?_eq_none_iff d key).mp absent
  simpa using fun same : entry.1 = key => other (same ▸ List.mem_map_of_mem member)

/-- Putting a value back moves its entry to the end. -/
theorem put_perm {d : OrderedDict α β} {key : α} {value : β} (found : d.get? key = some value) :
    (d.put key value).entries.Perm d.entries := by
  obtain ⟨front, back, split, _⟩ := List.lookup_eq_some_iff.mp found
  have distinct := d.distinct
  rw [split, List.map_append, List.map_cons, List.nodup_middle, List.nodup_cons,
    ← List.map_append] at distinct
  have others : (d.erase key).entries = front ++ back := by
    rw [erase_entries, split, List.filter_append, List.filter_cons_of_neg (by simp),
      ← List.filter_append]
    refine List.filter_eq_self.mpr (fun entry member => ?_)
    simpa using fun same : entry.1 = key => distinct.1 (List.mem_map.mpr ⟨entry, member, same⟩)
  rw [put_entries, others, split]
  exact (List.perm_append_singleton _ _).trans List.perm_middle.symm

/-- A new key is set at the end. -/
theorem set_fresh {d : OrderedDict α β} {key : α} (fresh : key ∉ d.entries.map Prod.fst)
    (value : β) : (d.set key value).entries = d.entries ++ [(key, value)] :=
  if_neg fresh

/-- A known key is set in its place. -/
theorem set_known {d : OrderedDict α β} {key : α} (known : key ∈ d.entries.map Prod.fst)
    (value : β) : (d.set key value).entries =
      d.entries.map (fun entry => if entry.1 = key then (key, value) else entry) :=
  if_pos known

/-- Replacing the value of a key leaves the others alone. -/
theorem lookup_replace_other (entries : List (α × β)) {key other : α} (apart : other ≠ key)
    (value : β) :
    (entries.map (fun entry => if entry.1 = key then (key, value) else entry)).lookup other =
      entries.lookup other := by
  induction entries with
  | nil => rfl
  | cons entry rest ih =>
    obtain ⟨k, v⟩ := entry
    by_cases same : k = key
    · have misses : (other == key) = false := beq_false_of_ne apart
      simp [List.lookup_cons, same, misses, ih]
    · simp [List.lookup_cons, same, ih]

/-- The replaced value is found under its key. -/
theorem lookup_replace (entries : List (α × β)) {key : α} (known : key ∈ entries.map Prod.fst)
    (value : β) :
    (entries.map (fun entry => if entry.1 = key then (key, value) else entry)).lookup key =
      some value := by
  induction entries with
  | nil => simp at known
  | cons entry rest ih =>
    obtain ⟨k, v⟩ := entry
    by_cases same : k = key
    · simp [same]
    · have misses : (key == k) = false := beq_false_of_ne (Ne.symm same)
      have later : key ∈ rest.map Prod.fst := by
        rw [List.map_cons, List.mem_cons] at known
        exact known.resolve_left (Ne.symm same)
      simp [List.lookup_cons, same, misses, ih later]

/-- A key that is set finds its value, and every other key what it found
before. -/
theorem get?_set (d : OrderedDict α β) (key : α) (value : β) (other : α) :
    (d.set key value).get? other = if other = key then some value else d.get? other := by
  rw [get?, get?]
  by_cases here : other = key
  · subst here
    rw [if_pos rfl]
    by_cases known : other ∈ d.entries.map Prod.fst
    · rw [set_known known]
      exact lookup_replace d.entries known value
    · have absent : d.entries.lookup other = none := (get?_eq_none_iff d other).mpr known
      simp [set_fresh known, List.lookup_append, absent]
  · rw [if_neg here]
    by_cases known : key ∈ d.entries.map Prod.fst
    · rw [set_known known]
      exact lookup_replace_other d.entries here value
    · have misses : (other == key) = false := beq_false_of_ne here
      simp [set_fresh known, List.lookup_append, List.lookup_cons, misses]

/-- Setting entries of different keys one after another. -/
theorem set_all {d : OrderedDict α β} {entries : List (α × β)}
    (distinct : ((d.entries ++ entries).map Prod.fst).Nodup) :
    (entries.foldl (fun d entry => d.set entry.1 entry.2) d).entries = d.entries ++ entries := by
  induction entries generalizing d with
  | nil => rw [List.foldl_nil, List.append_nil]
  | cons entry rest ih =>
    have fresh : entry.1 ∉ d.entries.map Prod.fst := by
      rw [List.map_append, List.map_cons, List.nodup_append] at distinct
      exact fun member => distinct.2.2 _ member _ List.mem_cons_self rfl
    have next := set_fresh fresh entry.2
    rw [List.foldl_cons, ih (by rwa [next, List.append_assoc, List.singleton_append]), next,
      List.append_assoc, List.singleton_append]

end OrderedDict
