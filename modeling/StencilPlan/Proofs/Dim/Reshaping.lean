import StencilPlan.Proofs.Dim.Catalog

/-!
# Reshaping a catalog

A catalog is declared once and may be folded and clustered any number of times. What was declared
stays: the names, their kinds and their positions. Of the folds only the last one counts, and of the
clusters too, so calls of the two kinds may come in any order; the points of a cluster are always
those of so many folds.
-/

namespace StencilPlan

/-- A dimension with its value, at a position and under its name. -/
def DimVec.HasAt (t : DimVec) (i : Nat) (dim : String) (v : Int) : Prop :=
  t.name? i = some dim ∧ t.nth i = .ok v ∧ t.get? dim = some v

theorem DimVec.hasAt_of_nodup {t : DimVec} {i : Nat} {dim : String} {v : Int}
    (hd : t.names.Nodup) (hi : t.names[i]? = some dim) (hv : t.values[i]? = some v) :
    t.HasAt i dim v :=
  ⟨hi, nth_eq_ok_iff.mpr hv, (get?_of_nodup hd hi).trans hv⟩

namespace Catalog

/-- A call that gives a catalog another shape. -/
inductive Reshape where
  | fold (values : List Int)
  | cluster (values : List Int)
  deriving DecidableEq, Repr

/-- The values of a fold. -/
def Reshape.foldValues? : Reshape → Option (List Int)
  | .fold values => some values
  | .cluster _ => none

/-- The values of a cluster. -/
def Reshape.clusterValues? : Reshape → Option (List Int)
  | .fold _ => none
  | .cluster values => some values

/-- What a call makes of a catalog. -/
def reshape (c : Catalog) : Reshape → Outcome Catalog
  | .fold values => c.foldedBy values
  | .cluster values => c.withClusterFolds values

/-- The catalog after a sequence of calls, each of which succeeds. -/
def reshaped (c : Catalog) (calls : List Reshape) : Outcome Catalog := calls.foldlM reshape c

section Calls

variable {c c' : Catalog} {calls : List Reshape}

theorem reshaped_cons_eq_ok {call : Reshape} :
    c.reshaped (call :: calls) = .ok c' ↔
      ∃ next, c.reshape call = .ok next ∧ next.reshaped calls = .ok c' := by
  rw [reshaped, List.foldlM_cons, bind_eq_ok]
  rfl

theorem Built.reshaped (hc : c.Built) (h : c.reshaped calls = .ok c') : c'.Built := by
  induction calls generalizing c with
  | nil => rwa [pure_eq_ok.mp h]
  | cons call calls ih =>
    obtain ⟨next, hcall, hrest⟩ := reshaped_cons_eq_ok.mp h
    cases call with
    | fold values => exact ih (.fold hc hcall) hrest
    | cluster values => exact ih (.cluster hc hcall) hrest

/-- A call changes the shapes alone, and of the two that are asked for the one it gives values
for. -/
theorem of_reshape {call : Reshape} (h : c.reshape call = .ok c') :
    (c'.stepDim = c.stepDim ∧ c'.domain = c.domain ∧ c'.misc = c.misc) ∧
      c'.fold.values = call.foldValues?.getD c.fold.values ∧
      c'.clusterFolds.values = call.clusterValues?.getD c.clusterFolds.values := by
  cases call with
  | fold values =>
    obtain ⟨t, -, hvalues, h⟩ := foldedBy_eq_ok h
    obtain ⟨points, rfl⟩ := updateCluster_eq_ok h
    exact ⟨⟨rfl, rfl, rfl⟩, hvalues, rfl⟩
  | cluster values =>
    obtain ⟨t, -, hvalues, h⟩ := withClusterFolds_eq_ok h
    obtain ⟨points, rfl⟩ := updateCluster_eq_ok h
    exact ⟨⟨rfl, rfl, rfl⟩, rfl, hvalues⟩

theorem getLastD_filterMap_cons {α β : Type} (f : α → Option β) (a : α) (l : List α) (b : β) :
    ((a :: l).filterMap f).getLastD b = (l.filterMap f).getLastD ((f a).getD b) := by
  cases h : f a with
  | none => rw [List.filterMap_cons_none h, Option.getD_none]
  | some v => rw [List.filterMap_cons_some h, List.getLastD_cons, Option.getD_some]

/-- After a sequence of calls the fold and the multipliers have the values of the last call that
gives any, and those from before it without one. -/
theorem of_reshaped (h : c.reshaped calls = .ok c') :
    (c'.stepDim = c.stepDim ∧ c'.domain = c.domain ∧ c'.misc = c.misc) ∧
      c'.fold.values = (calls.filterMap Reshape.foldValues?).getLastD c.fold.values ∧
      c'.clusterFolds.values =
        (calls.filterMap Reshape.clusterValues?).getLastD c.clusterFolds.values := by
  induction calls generalizing c with
  | nil =>
    rw [pure_eq_ok.mp h]
    exact ⟨⟨rfl, rfl, rfl⟩, rfl, rfl⟩
  | cons call calls ih =>
    obtain ⟨next, hcall, hrest⟩ := reshaped_cons_eq_ok.mp h
    obtain ⟨⟨hstep, hdomain, hmisc⟩, hfold, hfolds⟩ := of_reshape hcall
    obtain ⟨⟨hstep', hdomain', hmisc'⟩, hfold', hfolds'⟩ := ih hrest
    refine ⟨⟨hstep'.trans hstep, hdomain'.trans hdomain, hmisc'.trans hmisc⟩, ?_, ?_⟩
    · rw [hfold', hfold, getLastD_filterMap_cons]
    · rw [hfolds', hfolds, getLastD_filterMap_cons]

/-- A domain dimension is listed with the positions it has among the domain dimensions and after the
step dimension. -/
theorem WellFormed.place (h : c.WellFormed) {j : Nat} {d : DimPlace}
    (hd : c.dimPlaces[j]? = some d) :
    d.domainIndex = j ∧ c.domain.name? d.domainIndex = some d.name ∧
      c.stencil.name? d.stencilIndex = some d.name := by
  rw [getElem?_dimPlaces, Option.map_eq_some_iff] at hd
  obtain ⟨name, hname, rfl⟩ := hd
  refine ⟨rfl, hname, ?_⟩
  rw [DimVec.name?, h.stencil, List.getElem?_cons_succ]
  exact hname

theorem names_dimPlaces (c : Catalog) : c.dimPlaces.map DimPlace.name = c.domain.names := by
  rw [dimPlaces, List.map_map]
  exact List.zipIdx_map_fst 0 c.domain.names

/-- In each dimension the points of a cluster are those of so many folds, whether one looks by
position or by name. -/
theorem WellFormed.hasAt (h : c.WellFormed) {j : Nat} {dim : String}
    (hj : c.domain.names[j]? = some dim) :
    ∃ f m, c.fold.HasAt j dim f ∧ c.clusterFolds.HasAt j dim m ∧
      c.cluster.HasAt j dim (f * m) := by
  obtain ⟨f, m, hfold, hfolds, hcluster⟩ := h.exists_factors hj
  have hat : ∀ {t : DimVec} {v : Int}, c.IsShape t → t.values[j]? = some v → t.HasAt j dim v :=
    fun ht hv => DimVec.hasAt_of_nodup (ht.names ▸ h.nodup) (ht.names ▸ hj) hv
  exact ⟨f, m, hat h.fold hfold, hat h.clusterFolds hfolds, hat h.cluster hcluster⟩

end Calls

/-- However a catalog came about, declared and then folded and clustered in any order:
its names are those that were declared, none is empty and none is there twice; a name has the kind
under which it was declared, and any other name has none; the domain dimensions come in order after
the step dimension, and are listed with their positions; the fold, the multipliers and the cluster
have a positive value in each of them, at its position and under its name, and the cluster has the
product. The fold and the multipliers are those asked for last, or ones. -/
theorem reshaped_invariants {step : String} {domain misc : List String} {c₀ c : Catalog}
    {calls : List Reshape} (hdeclare : declare step domain misc = .ok c₀)
    (hcalls : c₀.reshaped calls = .ok c) :
    (c.stepDim = step ∧ c.domain.names = domain ∧ c.misc.names = misc ∧
      (∀ dim ∈ step :: (domain ++ misc), dim ≠ "") ∧ (step :: (domain ++ misc)).Nodup) ∧
    (∀ dim, (c.kind? dim = some .step ↔ dim = step) ∧
      (c.kind? dim = some .domain ↔ dim ∈ domain) ∧ (c.kind? dim = some .misc ↔ dim ∈ misc) ∧
      (c.kind? dim = none ↔ dim ∉ step :: (domain ++ misc))) ∧
    (c.stencil.names = step :: domain ∧ c.dimPlaces.map DimPlace.name = domain ∧
      ∀ (j : Nat) (d : DimPlace), c.dimPlaces[j]? = some d → d.domainIndex = j ∧
        c.domain.name? d.domainIndex = some d.name ∧
        c.stencil.name? d.stencilIndex = some d.name) ∧
    (∀ t ∈ [c.fold, c.clusterFolds, c.cluster], t.names = domain ∧ ∀ n ∈ t.values, 0 < n) ∧
    (∀ (j : Nat) (dim : String), domain[j]? = some dim → ∃ f m, c.fold.HasAt j dim f ∧
      c.clusterFolds.HasAt j dim m ∧ c.cluster.HasAt j dim (f * m)) ∧
    c.fold.values =
      (calls.filterMap Reshape.foldValues?).getLastD (List.replicate domain.length 1) ∧
    c.clusterFolds.values =
      (calls.filterMap Reshape.clusterValues?).getLastD (List.replicate domain.length 1) := by
  have hd := declared_of_declare hdeclare
  have h := ((Built.declare hdeclare).reshaped hcalls).wellFormed
  obtain ⟨⟨hstep, hdomain, hmisc⟩, hfold, hfolds⟩ := of_reshaped hcalls
  -- No call has a part in the names, so they are those of the declaration.
  replace hstep : c.stepDim = step := hstep.trans hd.stepDim_eq
  replace hdomain : c.domain.names = domain := by rw [hdomain, hd.names_domain]
  replace hmisc : c.misc.names = misc := by rw [hmisc, hd.names_misc]
  have hones := DimVec.values_ofNames hd.nodup_domain 1
  -- What the parts say of names and positions follows from a catalog being well formed.
  refine ⟨⟨hstep, hdomain, hmisc, hd.ne_empty, hd.distinct⟩, fun dim => ⟨?step, ?domain, ?misc,
    ?none⟩, ⟨?stencil, ?listed, fun j d => h.place⟩, ?shapes, fun j dim hj => ?products, ?_, ?_⟩
  case step => rw [kind?_eq_some_iff h, dimsOf, hstep, List.mem_singleton]
  case domain => rw [kind?_eq_some_iff h, dimsOf, hdomain]
  case misc => rw [kind?_eq_some_iff h, dimsOf, hmisc]
  case none =>
    rw [← Option.not_isSome_iff_eq_none, isSome_kind?_iff, dims, hstep, hdomain, hmisc]
  case stencil => rw [h.stencil, hstep, hdomain]
  case listed => rw [names_dimPlaces, hdomain]
  case shapes =>
    have hnames : ∀ t : DimVec, c.IsShape t → t.names = domain ∧ ∀ n ∈ t.values, 0 < n :=
      fun t ht => ⟨ht.names.trans hdomain, ht.pos⟩
    simp only [List.forall_mem_cons]
    exact ⟨hnames _ h.fold, hnames _ h.clusterFolds, hnames _ h.cluster,
      fun _ hmem => absurd hmem List.not_mem_nil⟩
  case products => exact h.hasAt (hdomain.symm ▸ hj)
  · rw [hfold, hd.fold_eq, hones]
  · rw [hfolds, hd.clusterFolds_eq, hones]

namespace Refolded

def declared : Catalog := (declare "t" ["x", "y", "z"] ["m"]).toOption.getD default

/-- A second fold after the cluster was given. -/
def calls : List Reshape := [.fold [1, 2, 8], .cluster [2, 1, 3], .fold [1, 2, 4]]

def catalog : Catalog := (declared.reshaped calls).toOption.getD default

end Refolded

/-- The second fold counts, and the cluster follows it: in `z` it has three folds of four. -/
theorem reshaped_invariants_refolded :
    declare "t" ["x", "y", "z"] ["m"] = .ok Refolded.declared ∧
    Refolded.declared.reshaped Refolded.calls = .ok Refolded.catalog ∧
    Refolded.catalog.kind? "m" = some .misc ∧
    Refolded.catalog.stencil.names = ["t", "x", "y", "z"] ∧
    Refolded.catalog.fold.values = [1, 2, 4] ∧ Refolded.catalog.clusterFolds.values = [2, 1, 3] ∧
    Refolded.catalog.cluster.HasAt 2 "z" 12 := by
  have hdeclare : declare "t" ["x", "y", "z"] ["m"] = .ok Refolded.declared := by decide +kernel
  have hcalls : Refolded.declared.reshaped Refolded.calls = .ok Refolded.catalog := by
    decide +kernel
  obtain ⟨-, hkinds, ⟨hstencil, -, -⟩, -, hproducts, hfold, hfolds⟩ :=
    reshaped_invariants hdeclare hcalls
  -- The product at position 2 is the theorem's; which factors it has follows from the values.
  obtain ⟨f, m, ⟨-, hf, -⟩, ⟨-, hm, -⟩, hcluster⟩ := hproducts 2 "z" rfl
  obtain rfl : f = 4 := by
    rw [DimVec.nth_eq_ok_iff, hfold] at hf
    exact (Option.some.inj hf).symm
  obtain rfl : m = 3 := by
    rw [DimVec.nth_eq_ok_iff, hfolds] at hm
    exact (Option.some.inj hm).symm
  exact ⟨hdeclare, hcalls, (hkinds "m").2.2.1.mpr (by decide), hstencil, hfold, hfolds, hcluster⟩

end Catalog

end StencilPlan
