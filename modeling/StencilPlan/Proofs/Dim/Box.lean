import StencilPlan.Proofs.Dim.Vec

/-!
# Boxes of points

Local domains, halo buffers and the domain as a whole are boxes: in each domain dimension some
points in a row. A point gives an index to every dimension, so that points of the whole domain and
points counted from where a rank starts are spoken of in the same way.
-/

namespace StencilPlan

/-- The point `x` is one of the box that has `extent` points from `first` on in each of the
dimensions `dims`. -/
def InBox (dims : List String) (first extent : DimVec) (x : String → Int) : Prop :=
  ∀ dim ∈ dims, first.getD dim 0 ≤ x dim ∧ x dim < first.getD dim 0 + extent.getD dim 0

instance (dims : List String) (first extent : DimVec) (x : String → Int) :
    Decidable (InBox dims first extent x) :=
  inferInstanceAs (Decidable (∀ dim ∈ dims, _))

/-- A box with points in it lies in another one if it does so in each dimension. -/
theorem inBox_subset_iff {dims : List String} {first extent first' extent' : DimVec}
    (hpos : ∀ dim ∈ dims, 0 < extent.getD dim 0) :
    (∀ x, InBox dims first extent x → InBox dims first' extent' x) ↔
      ∀ dim ∈ dims, first'.getD dim 0 ≤ first.getD dim 0 ∧
        first.getD dim 0 + extent.getD dim 0 ≤ first'.getD dim 0 + extent'.getD dim 0 := by
  constructor
  · intro h dim hdim
    -- the first point of the box and the last one are enough
    have hfirst := h (fun d => first.getD d 0)
      (fun d hd => by have := hpos d hd; dsimp only; omega) dim hdim
    have hlast := h (fun d => first.getD d 0 + extent.getD d 0 - 1)
      (fun d hd => by have := hpos d hd; dsimp only; omega) dim hdim
    dsimp only at hfirst hlast
    omega
  · intro h x hx dim hdim
    have := h dim hdim
    have := hx dim hdim
    omega

end StencilPlan
