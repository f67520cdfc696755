import StencilPlan.Dim.Order
import StencilPlan.Proofs.Dim.Vec

/-!
# Vectors are totally ordered

Vectors are compared in three stages, each of which is an order of its own: by how many dimensions
they have, by their values and by their names. So comparing vectors is a lexicographic composition
of orders, which is an order as well. Two vectors that no stage tells apart have the same names and
the same values, and that makes them equal, even if they repeat names.
-/

namespace StencilPlan.DimVec

/-- Comparing lists entry by entry is their lexicographic order. -/
theorem compareLists_eq_compare {α : Type} [Ord α] (as bs : List α) :
    compareLists as bs = compare as bs := by
  induction as generalizing bs with
  | nil => cases bs <;> rfl
  | cons a as ih =>
    cases bs with
    | nil => rfl
    | cons b bs => rw [compareLists, ih, List.compare_cons_cons]

/-- The three stages of a comparison. -/
theorem compare_eq_compareLex : (compare : DimVec → DimVec → Ordering) =
    compareLex (compareOn length) (compareLex (compareOn values) (compareOn names)) := by
  funext s t
  change (compare s.length t.length).then ((compareLists s.values t.values).then
    (compareLists s.names t.names)) = _
  rw [compareLists_eq_compare, compareLists_eq_compare]
  rfl

-- Each stage is oriented and transitive, and so is what is composed of them.
instance : Std.TransOrd DimVec := by
  unfold Std.TransOrd
  rw [compare_eq_compareLex]
  infer_instance

instance : Std.LawfulEqOrd DimVec where
  eq_of_compare {s t} h := by
    rw [compare_eq_compareLex] at h
    -- The first stage is only there for the order: equal names are equally many.
    obtain ⟨-, h⟩ := compareLex_eq_eq.mp h
    obtain ⟨hvalues, hnames⟩ := compareLex_eq_eq.mp h
    exact eq_of_names_of_values (Std.LawfulEqOrd.eq_of_compare hnames)
      (Std.LawfulEqOrd.eq_of_compare hvalues)

/-- Vectors are totally ordered, in accordance with their equality: they compare as equal exactly if
they are equal, comparing them the other way round reverses the answer, and both orders that come of
it, the strict one and the other, are transitive. There is always an answer, and of two vectors the
one with fewer dimensions is the smaller one. -/
theorem compare_total_order (a b c : DimVec) :
    (compare a b = .eq ↔ a = b) ∧
    compare b a = (compare a b).swap ∧
    ((compare a b).isLE → (compare b c).isLE → (compare a c).isLE) ∧
    (∀ o, compare a b = o → compare b c = o → compare a c = o) ∧
    compare? a b = some (compare a b) ∧
    (a.length < b.length → compare a b = .lt) := by
  refine ⟨Std.LawfulEqOrd.compare_eq_iff_eq, Std.OrientedOrd.eq_swap, Std.TransOrd.isLE_trans,
    fun o hab hbc => ?_, rfl, compare_of_length_lt⟩
  cases o with
  | lt => exact Std.TransCmp.lt_trans hab hbc
  | eq => exact Std.TransCmp.eq_trans hab hbc
  | gt => exact Std.TransCmp.gt_trans hab hbc

end StencilPlan.DimVec
