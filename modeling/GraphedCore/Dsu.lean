/-!
# The union-find over op nodes

`find` walks parent links to the root and then redirects the walked links to it.
Both loops run on fuel; `none` models an index outside the array, or fuel that
ran out.
-/

namespace GraphedCore

/-- The parent of each element, as the source stores it. A root is its own
parent. -/
structure Dsu where
  parent : List Nat
deriving DecidableEq

namespace Dsu

/-- Every element is a class by itself, and so its own parent. -/
def new (n : Nat) : Dsu := ⟨List.range n⟩

/-- `while parent[r] != r { r = parent[r] }`, with fuel for the walk. An element
outside the forest is the panic of the index. -/
def root (parent : List Nat) : Nat → Nat → Option Nat
  | fuel, r =>
    match parent[r]? with
    | none => none
    | some next =>
      if next = r then some r else
        match fuel with
        | 0 => none
        | fuel + 1 => root parent fuel next

/-- `while parent[c] != c { n = parent[c]; parent[c] = r; c = n }`, with fuel for
the walk. Only the walked chain is changed. -/
def compress (r : Nat) : Nat → List Nat → Nat → Option (List Nat)
  | fuel, parent, c =>
    match parent[c]? with
    | none => none
    | some next =>
      if next = c then some parent else
        match fuel with
        | 0 => none
        | fuel + 1 => compress r fuel (parent.set c r) next

/-- The root of an element, and the forest with the walked chain pointing at it.
As much fuel as there are elements is enough. -/
def find (dsu : Dsu) (x : Nat) : Option (Nat × Dsu) := do
  let r ← root dsu.parent dsu.parent.length x
  let parent ← compress r dsu.parent.length dsu.parent x
  some (r, ⟨parent⟩)

/-- The smaller root stays a root, so a class is named by its first member. -/
def union (dsu : Dsu) (a b : Nat) : Option Dsu := do
  let (ra, dsu) ← dsu.find a
  let (rb, dsu) ← dsu.find b
  if ra ≠ rb then some ⟨dsu.parent.set (max ra rb) (min ra rb)⟩ else some dsu

end Dsu

end GraphedCore
