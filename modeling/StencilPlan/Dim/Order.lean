import StencilPlan.Dim.Vec

/-!
# The order of dimension vectors

Vectors are compared by how many dimensions they have, then by their values and only then by
their names.
-/

namespace StencilPlan.DimVec

/-- Compares two lists entry by entry; a list that runs out first is the smaller one. -/
def compareLists {α : Type} [Ord α] : List α → List α → Ordering
  | [], [] => .eq
  | [], _ :: _ => .lt
  | _ :: _, [] => .gt
  | a :: as, b :: bs => (compare a b).then (compareLists as bs)

instance : Ord DimVec where
  compare s t :=
    (compare s.length t.length).then
      ((compareLists s.values t.values).then (compareLists s.names t.names))

/-- The comparison as it is asked for where some values cannot be compared. -/
def compare? (s t : DimVec) : Option Ordering := some (compare s t)

/-- A vector with fewer dimensions is always the smaller one. -/
theorem compare_of_length_lt {s t : DimVec} (h : s.length < t.length) : compare s t = .lt := by
  have hl : compare s.length t.length = .lt := Nat.compare_eq_lt.mpr h
  change (compare s.length t.length).then _ = .lt
  rw [hl]
  rfl

end StencilPlan.DimVec
