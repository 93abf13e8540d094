import Mathlib.Data.List.Sort
import Mathlib.Order.Basic

/-!
# Sorting by a key

Entries of different keys have one order by key, so sorted lists of them are equal when
their entries are. Entries of one key stay in the order they were given in, and in general
two lists sort alike exactly when each key has the same entries in the same order. A
lookup among entries of different keys does not depend on their order either.
-/

namespace KeySort

universe u v

section Sorting

variable {α : Type u} {κ : Type v} [LE κ] [DecidableLE κ] [IsTrans κ (· ≤ ·)]
  [Std.Total (· ≤ · : κ → κ → Prop)] [Std.Antisymm (· ≤ · : κ → κ → Prop)]

/-- Entries of different keys sort alike exactly when they are the same
entries. -/
theorem sort_eq_iff (key : α → κ) {xs ys : List α} (distinct : (xs.map key).Nodup) :
    xs.insertionSort (fun a b => key a ≤ key b) = ys.insertionSort (fun a b => key a ≤ key b) ↔
      xs.Perm ys := by
  have left := List.perm_insertionSort (fun a b => key a ≤ key b) xs
  have right := List.perm_insertionSort (fun a b => key a ≤ key b) ys
  constructor
  · intro same
    exact left.symm.trans (same ▸ right)
  · intro perm
    refine List.Perm.eq_of_pairwise ?_ (List.pairwise_insertionSort _ xs)
      (List.pairwise_insertionSort _ ys) (left.trans (perm.trans right.symm))
    intro a b member member' le ge
    exact List.inj_on_of_nodup_map distinct (left.mem_iff.mp member)
      (perm.mem_iff.mpr (right.mem_iff.mp member')) (Std.Antisymm.antisymm _ _ le ge)

omit [IsTrans κ (· ≤ ·)] [Std.Antisymm (· ≤ · : κ → κ → Prop)] in
/-- Sorting keeps the entries of one key, and keeps them in their order. -/
theorem filter_sort [DecidableEq κ] (key : α → κ) (xs : List α) (k : κ) :
    (xs.insertionSort (fun a b => key a ≤ key b)).filter (fun a => decide (key a = k)) =
      xs.filter (fun a => decide (key a = k)) := by
  have alike : (xs.filter (fun a => decide (key a = k))).Pairwise (fun a b => key a ≤ key b) := by
    refine List.pairwise_of_forall_mem_list (fun a first b second => ?_)
    have same := of_decide_eq_true (List.mem_filter.mp first).2
    have same' := of_decide_eq_true (List.mem_filter.mp second).2
    rcases Std.Total.total (r := (· ≤ · : κ → κ → Prop)) (key a) (key b) with le | le
    · exact le
    · rwa [same, same'] at le ⊢
  have kept := (List.sublist_insertionSort alike List.filter_sublist).filter
    (fun a => decide (key a = k))
  have sorted := (List.perm_insertionSort (fun a b => key a ≤ key b) xs).filter
    (fun a => decide (key a = k))
  simp only [List.filter_filter, Bool.and_self] at kept
  exact (kept.eq_of_length sorted.length_eq.symm).symm

omit [DecidableLE κ] [IsTrans κ (· ≤ ·)] in
/-- Sorted lists are equal when each key has the same entries in the same order.
The heads of the two have one key, since neither can come after the other. -/
theorem sorted_ext [DecidableEq κ] (key : α → κ) {xs ys : List α}
    (sorted : xs.Pairwise (fun a b => key a ≤ key b))
    (sorted' : ys.Pairwise (fun a b => key a ≤ key b))
    (same : ∀ k, xs.filter (fun a => decide (key a = k)) =
      ys.filter (fun a => decide (key a = k))) : xs = ys := by
  have refl (k : κ) : k ≤ k := by
    rcases Std.Total.total (r := (· ≤ · : κ → κ → Prop)) k k with le | le <;> exact le
  have below {x : α} {rest others : List α} {a : α}
      (ordered : (x :: rest).Pairwise (fun a b => key a ≤ key b)) (member : a ∈ others)
      (same : (x :: rest).filter (fun b => decide (key b = key a)) =
        others.filter (fun b => decide (key b = key a))) : key x ≤ key a := by
    have found : a ∈ (x :: rest).filter (fun b => decide (key b = key a)) :=
      same ▸ List.mem_filter.mpr ⟨member, decide_eq_true rfl⟩
    rcases List.mem_cons.mp (List.mem_filter.mp found).1 with rfl | later
    · exact refl (key a)
    · exact List.rel_of_pairwise_cons ordered later
  induction xs generalizing ys with
  | nil =>
    cases ys with
    | nil => rfl
    | cons y ys => simpa using same (key y)
  | cons x xs ih =>
    cases ys with
    | nil => simpa using same (key x)
    | cons y ys =>
      have heads : key x = key y := Std.Antisymm.antisymm (r := (· ≤ · : κ → κ → Prop)) _ _
        (below sorted List.mem_cons_self (same (key y)))
        (below sorted' List.mem_cons_self (same (key x)).symm)
      have first := same (key x)
      simp only [List.filter_cons, heads, decide_true, if_true, List.cons.injEq] at first
      obtain ⟨rfl, _⟩ := first
      rw [ih sorted.of_cons sorted'.of_cons (fun k => ?_)]
      have both := same k
      rw [List.filter_cons, List.filter_cons] at both
      split at both
      · exact (List.cons.inj both).2
      · exact both

/-- Lists sort alike exactly when each key has the same entries in the same
order. -/
theorem sort_eq_iff_filter [DecidableEq κ] (key : α → κ) {xs ys : List α} :
    xs.insertionSort (fun a b => key a ≤ key b) = ys.insertionSort (fun a b => key a ≤ key b) ↔
      ∀ k, xs.filter (fun a => decide (key a = k)) = ys.filter (fun a => decide (key a = k)) := by
  constructor
  · intro same k
    rw [← filter_sort key xs k, same, filter_sort key ys k]
  · intro same
    refine sorted_ext key (List.pairwise_insertionSort _ xs) (List.pairwise_insertionSort _ ys)
      (fun k => ?_)
    rw [filter_sort key xs k, filter_sort key ys k, same k]

end Sorting

section Lookup

variable {α : Type u} {β : Type v} [DecidableEq α]

/-- Among different keys a lookup finds every entry. -/
theorem lookup_eq_some_iff {entries : List (α × β)} (distinct : (entries.map Prod.fst).Nodup)
    {key : α} {value : β} : entries.lookup key = some value ↔ (key, value) ∈ entries := by
  rw [List.lookup_eq_some_iff]
  constructor
  · rintro ⟨before, after, rfl, _⟩
    exact List.mem_append_right _ List.mem_cons_self
  · intro member
    obtain ⟨before, after, rfl⟩ := List.append_of_mem member
    refine ⟨before, after, rfl, fun entry earlier => ?_⟩
    rw [List.map_append, List.map_cons, List.nodup_append] at distinct
    have other := distinct.2.2 _ (List.mem_map_of_mem earlier) key List.mem_cons_self
    simpa using fun same => other same.symm

/-- Among different keys a lookup does not depend on the order. -/
theorem lookup_perm {xs ys : List (α × β)} (distinct : (xs.map Prod.fst).Nodup)
    (perm : xs.Perm ys) (key : α) : xs.lookup key = ys.lookup key := by
  have distinct' : (ys.map Prod.fst).Nodup := (perm.map _).nodup_iff.mp distinct
  refine Option.ext (fun value => ?_)
  rw [lookup_eq_some_iff distinct, lookup_eq_some_iff distinct', perm.mem_iff]

/-- A lookup among entries whose keys and values were mapped. -/
theorem lookup_map {γ : Type*} {δ : Type*} [DecidableEq γ] {f : α → γ}
    (injective : Function.Injective f) (g : β → δ) (entries : List (α × β)) (key : α) :
    (entries.map (fun entry => (f entry.1, g entry.2))).lookup (f key) =
      (entries.lookup key).map g := by
  induction entries with
  | nil => rfl
  | cons entry rest ih =>
    have heads : (f key == f entry.1) = (key == entry.1) := by
      rw [Bool.eq_iff_iff, beq_iff_eq, beq_iff_eq, injective.eq_iff]
    rw [List.map_cons, List.lookup_cons, List.lookup_cons, ih, heads]
    cases key == entry.1 <;> rfl

/-- Entries of different keys are told by their lookups. -/
theorem perm_of_lookup {xs ys : List (α × β)} (distinct : (xs.map Prod.fst).Nodup)
    (distinct' : (ys.map Prod.fst).Nodup) (same : ∀ key, xs.lookup key = ys.lookup key) :
    xs.Perm ys := by
  rw [List.perm_ext_iff_of_nodup (List.Nodup.of_map _ distinct) (List.Nodup.of_map _ distinct')]
  intro (key, value)
  rw [← lookup_eq_some_iff distinct, ← lookup_eq_some_iff distinct', same]

end Lookup

end KeySort
