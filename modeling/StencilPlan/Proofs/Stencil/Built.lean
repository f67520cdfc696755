import Mathlib.Data.List.Nodup
import StencilPlan.Proofs.Dim.Catalog
import StencilPlan.Stencil.Basic

/-!
# Stencils as they are built

A caller starts with a stencil without variables and adds to it. A variable that is there already
is not declared a second time, so the variables are distinct.
-/

namespace StencilPlan.Stencil

/-- The stencils that a caller can build. -/
inductive Built : Stencil → Prop
  | new {c : Catalog} (hc : c.Built) (name : String) : Built (.new name c)
  | elements {s s' : Stencil} (hs : Built s) {bytes : Nat} (h : s.withElementBytes bytes = .ok s') :
      Built s'
  | flops {s : Stencil} (hs : Built s) (n : Nat) : Built { s with flopsPerPoint := n }
  | var {s : Stencil} (hs : Built s) (var : String) : Built (s.withVar var)
  | halo {s s' : Stencil} (hs : Built s) {var stage : String} {left : Bool} {stepOffset : Int}
      {sizes : List Int} (h : s.withHalo var stage left stepOffset sizes = .ok s') : Built s'

variable {s s' : Stencil}

theorem catalog_withVar (s : Stencil) (var : String) : (s.withVar var).catalog = s.catalog := by
  unfold withVar
  split <;> rfl

theorem nodup_withVar (h : s.vars.Nodup) (var : String) : (s.withVar var).vars.Nodup := by
  unfold withVar
  split
  · exact h
  · next hnew =>
    refine List.nodup_append.mpr ⟨h, List.nodup_singleton var, fun a ha b hb => ?_⟩
    rw [List.mem_singleton.mp hb]
    rintro rfl
    exact hnew ha

/-- Recording a halo in place is refused if anything is wrong with the sizes. Otherwise they are put
down once the variable is declared. -/
theorem run_addHalo_eq (s : Stencil) (var : String) (need : HaloNeed) (sizes : List Int)
    (v : Verbosity) : (addHalo var need sizes).run v s =
      match s.haloFlaw? var sizes with
      | some flaw => ⟨.error (.tiling (.invalidStencil flaw)), s, []⟩
      | none => ⟨.ok (), (s.withVar var).putSizes var need sizes, []⟩ := by
  change Task.run (match s.haloFlaw? var sizes with | some _ => _ | none => _) v s = _
  cases s.haloFlaw? var sizes <;> rfl

theorem withHalo_eq (s : Stencil) (var : String) (need : HaloNeed) (sizes : List Int) :
    s.withHalo var need.stage need.left need.stepOffset sizes =
      match s.haloFlaw? var sizes with
      | some flaw => .error (.invalidStencil flaw)
      | none => .ok ((s.withVar var).putSizes var need sizes) := by
  rw [withHalo, run_addHalo_eq]
  cases s.haloFlaw? var sizes <;> rfl

/-- Recording a halo declares the variable and adds to its requirements. -/
theorem of_withHalo {var stage : String} {left : Bool} {stepOffset : Int} {sizes : List Int}
    (h : s.withHalo var stage left stepOffset sizes = .ok s') :
    s'.catalog = s.catalog ∧ s'.vars = (s.withVar var).vars := by
  rw [withHalo_eq s var ⟨stage, left, stepOffset⟩] at h
  split at h
  · cases h
  · obtain rfl := Except.ok.inj h
    unfold putSizes
    split <;> exact ⟨catalog_withVar s var, rfl⟩

theorem of_withElementBytes {bytes : Nat} (h : s.withElementBytes bytes = .ok s') :
    s'.catalog = s.catalog ∧ s'.vars = s.vars := by
  unfold withElementBytes at h
  split at h
  · cases h
  · obtain rfl := Except.ok.inj h
    exact ⟨rfl, rfl⟩

theorem Built.catalog (h : s.Built) : s.catalog.Built := by
  induction h with
  | new hc => exact hc
  | elements _ h ih => rwa [(of_withElementBytes h).1]
  | flops _ _ ih => exact ih
  | var _ var ih => rwa [catalog_withVar]
  | halo _ h ih => rwa [(of_withHalo h).1]

/-- No variable is declared twice. -/
theorem Built.nodup (h : s.Built) : s.vars.Nodup := by
  induction h with
  | new => exact List.nodup_nil
  | elements _ h ih => rwa [(of_withElementBytes h).2]
  | flops _ _ ih => exact ih
  | var _ var ih => exact nodup_withVar ih var
  | halo _ h ih =>
    rw [(of_withHalo h).2]
    exact nodup_withVar ih _

/-! ### Halo widths -/

/-- No halo has a negative width: the greatest width is looked for from zero on. -/
theorem haloWidths_nonneg (s : Stencil) (var : String) (stage : Option String) (left : Bool)
    (dim : String) : 0 ≤ (s.haloWidths var stage left).getD dim 0 := by
  have hfold : ∀ (es : List (HaloNeed × DimVec)) (t : DimVec), 0 ≤ t.getD dim 0 →
      0 ≤ (es.foldl (fun t e => t.sup e.2) t).getD dim 0 := by
    intro es
    induction es with
    | nil => exact fun _ h => h
    | cons e es ih =>
      intro t ht
      apply ih
      by_cases hdim : dim ∈ t.names
      · change 0 ≤ (t.sup e.2).getD dim 0
        rw [DimVec.sup, DimVec.getD_map hdim]
        split
        · exact Int.le_trans ht (Int.le_max_left _ _)
        · exact ht
      · exact Int.le_of_eq (DimVec.getD_eq_of_notMem (t := t.sup e.2)
          (fun h => hdim (DimVec.names_map _ t ▸ h))).symm
  -- The fold starts from zero in every dimension, and lookups elsewhere give zero.
  apply hfold
  by_cases hdim : dim ∈ s.catalog.domain.names
  · exact Int.le_of_eq (Catalog.getD_domainVec hdim).symm
  · exact Int.le_of_eq (DimVec.getD_eq_of_notMem fun h =>
      hdim (s.catalog.names_domainVec 0 ▸ h)).symm

end StencilPlan.Stencil
