import StencilPlan.Dim.Catalog
import StencilPlan.Proofs.Dim.Vec

/-!
# What every catalog satisfies

A catalog is `Built` if it was declared and then folded and clustered any number of times, in any
order. Such a catalog is `WellFormed`: no two of its dimensions share a name, its vectors run over
the domain dimensions in order, and a cluster holds a positive number of points in each of them.
-/

namespace StencilPlan.Catalog

/-- A catalog that was declared and then folded and clustered. -/
inductive Built : Catalog → Prop
  | declare {step : String} {domain misc : List String} {c : Catalog}
      (h : Catalog.declare step domain misc = .ok c) : Built c
  | fold {c c' : Catalog} {values : List Int} (hc : Built c) (h : c.foldedBy values = .ok c') :
      Built c'
  | cluster {c c' : Catalog} {values : List Int} (hc : Built c)
      (h : c.withClusterFolds values = .ok c') : Built c'

/-- A vector over the domain dimensions in which every value is positive. -/
structure IsShape (c : Catalog) (t : DimVec) : Prop where
  names : t.names = c.domain.names
  pos : ∀ n ∈ t.values, 0 < n

/-- The parts of a catalog belong together. -/
structure WellFormed (c : Catalog) : Prop where
  distinct : (c.stepDim :: (c.domain.names ++ c.misc.names)).Nodup
  stencil : c.stencil.names = c.stepDim :: c.domain.names
  outer : c.domain.names.head? = some c.outerDim
  inner : c.domain.names.getLast? = some c.innerDim
  fold : c.IsShape c.fold
  clusterFolds : c.IsShape c.clusterFolds
  cluster : c.IsShape c.cluster
  /-- A cluster is so many folds in each dimension. -/
  cluster_values : c.cluster.values = List.zipWith (· * ·) c.fold.values c.clusterFolds.values
  cluster_le : ∀ n ∈ c.cluster.values, n ≤ Idx.max

/-! ### Declaring -/

theorem checkNames_eq_ok {seen names : List String} (h : checkNames seen names = .ok ()) :
    names.Nodup ∧ ∀ n ∈ names, n ≠ "" ∧ n ∉ seen := by
  induction names generalizing seen with
  | nil => simp
  | cons n ns ih =>
    rw [checkNames] at h
    split at h
    · cases h
    · next hn =>
      rw [not_or] at hn
      -- The name joins those that were seen, so no later one is equal to it.
      obtain ⟨hnodup, hnew⟩ := ih h
      have hne : n ≠ "" := by
        rintro rfl
        exact hn.1 (by decide)
      refine ⟨List.nodup_cons.mpr ⟨fun hmem => (hnew n hmem).2 (by simp), hnodup⟩, fun m hm => ?_⟩
      rcases List.mem_cons.mp hm with rfl | hm
      · exact ⟨hne, hn.2⟩
      · exact ⟨(hnew m hm).1, fun hseen => (hnew m hm).2 (by simp [hseen])⟩

/-- What a declaration makes of names that it accepts. -/
structure Declared (step : String) (domain misc : List String) (c : Catalog) : Prop where
  ne_empty : ∀ dim ∈ step :: (domain ++ misc), dim ≠ ""
  distinct : (step :: (domain ++ misc)).Nodup
  stepDim_eq : c.stepDim = step
  domain_eq : c.domain = .ofNames domain 0
  stencil_eq : c.stencil = (DimVec.ofNames domain 0).prepend step 0
  misc_eq : c.misc = .ofNames misc 0
  outer : domain.head? = some c.outerDim
  inner : domain.getLast? = some c.innerDim
  fold_eq : c.fold = .ofNames domain 1
  clusterFolds_eq : c.clusterFolds = .ofNames domain 1
  cluster_eq : c.cluster = .ofNames domain 1

section Declaring

variable {step : String} {domain misc : List String} {c : Catalog}

theorem declared_of_declare (h : Catalog.declare step domain misc = .ok c) :
    c.Declared step domain misc := by
  unfold Catalog.declare at h
  split at h
  · cases h
  · next hstep =>
    have hne : step ≠ "" := by
      rintro rfl
      exact hstep (by decide)
    split at h
    · next outer inner hhead hlast =>
      simp only [bind_eq_ok, pure_eq_ok] at h
      obtain ⟨_, hnames, rfl⟩ := h
      -- The check of the domain and misc names begins with the step dimension among those seen.
      obtain ⟨hnodup, hnew⟩ := checkNames_eq_ok hnames
      have hstepNew : step ∉ domain ++ misc := fun hmem => (hnew step hmem).2 (by simp)
      exact ⟨List.forall_mem_cons.mpr ⟨hne, fun dim hdim => (hnew dim hdim).1⟩,
        List.nodup_cons.mpr ⟨hstepNew, hnodup⟩, rfl, rfl, rfl, rfl, hhead, hlast, rfl, rfl, rfl⟩
    · cases h

namespace Declared

theorem nodup_domain (h : c.Declared step domain misc) : domain.Nodup :=
  List.Nodup.of_append_left (List.nodup_cons.mp h.distinct).2

theorem nodup_misc (h : c.Declared step domain misc) : misc.Nodup :=
  List.Nodup.of_append_right (List.nodup_cons.mp h.distinct).2

theorem names_domain (h : c.Declared step domain misc) : c.domain.names = domain := by
  rw [h.domain_eq, DimVec.names_ofNames h.nodup_domain]

theorem names_misc (h : c.Declared step domain misc) : c.misc.names = misc := by
  rw [h.misc_eq, DimVec.names_ofNames h.nodup_misc]

theorem entries_stencil (h : c.Declared step domain misc) :
    c.stencil.entries = (step, 0) :: c.domain.entries := by
  have hstep : step ∉ (DimVec.ofNames domain 0).names := fun hmem =>
    (List.nodup_cons.mp h.distinct).1 (by
      rw [DimVec.names_ofNames h.nodup_domain] at hmem
      simp [hmem])
  rw [h.stencil_eq, DimVec.entries_prepend_of_notMem hstep, h.domain_eq]

/-- A shape of ones serves for the fold, the cluster folds and the cluster. -/
theorem isShape (h : c.Declared step domain misc) : c.IsShape (.ofNames domain 1) := by
  refine ⟨(DimVec.names_ofNames h.nodup_domain 1).trans h.names_domain.symm, fun n hn => ?_⟩
  rw [DimVec.values_ofNames h.nodup_domain] at hn
  have := List.eq_of_mem_replicate hn
  omega

theorem wellFormed (h : c.Declared step domain misc) : c.WellFormed := by
  have hvalues := DimVec.values_ofNames h.nodup_domain 1
  refine ⟨?_, ?_, ?_, ?_, h.fold_eq ▸ h.isShape, h.clusterFolds_eq ▸ h.isShape,
    h.cluster_eq ▸ h.isShape, ?_, fun n hn => ?_⟩
  · rw [h.stepDim_eq, h.names_domain, h.names_misc]
    exact h.distinct
  · rw [DimVec.names, h.entries_stencil, List.map_cons, h.stepDim_eq, DimVec.names]
  · rw [h.names_domain, h.outer]
  · rw [h.names_domain, h.inner]
  · rw [h.cluster_eq, h.fold_eq, h.clusterFolds_eq, hvalues]
    simp
  · rw [h.cluster_eq, hvalues] at hn
    rw [List.eq_of_mem_replicate hn]
    decide

end Declared

end Declaring

/-! ### Folding and clustering -/

theorem shape_eq_ok {c : Catalog} {what : String} {values : List Int} {t : DimVec}
    (h : c.shape what values = .ok t) : c.IsShape t ∧ t.values = values := by
  unfold shape at h
  split at h
  · cases h
  · next hlen =>
    have hlen' : values.length = c.domain.length := by simpa [domainCount] using hlen
    cases hfind : values.find? (· < 1) with
    | some v => simp [hfind] at h
    | none =>
      simp only [hfind, Except.ok.injEq] at h
      subst h
      have hvalues := DimVec.values_withValues hlen'
      refine ⟨⟨DimVec.names_withValues _ _, fun n hn => ?_⟩, hvalues⟩
      rw [hvalues] at hn
      have := List.find?_eq_none.mp hfind n hn
      simp only [decide_eq_true_eq] at this
      omega

theorem multiplyValues_eq_ok {as bs ps : List Int} (h : multiplyValues as bs = .ok ps) :
    ps = List.zipWith (· * ·) as bs ∧ ∀ p ∈ ps, p ≤ Idx.max := by
  -- The products are taken pairwise up to the end of the shorter list.
  induction as generalizing bs ps with
  | nil =>
    obtain rfl : [] = ps := by simpa [multiplyValues] using h
    simp
  | cons a as ih =>
    cases bs with
    | nil =>
      obtain rfl : [] = ps := by simpa [multiplyValues] using h
      simp
    | cons b bs =>
      simp only [multiplyValues, bind_eq_ok, pure_eq_ok, Idx.mul_eq_ok_iff] at h
      obtain ⟨p, ⟨hp, rfl⟩, qs, hqs, rfl⟩ := h
      obtain ⟨rfl, hle⟩ := ih hqs
      refine ⟨by simp, fun q hq => ?_⟩
      rcases List.mem_cons.mp hq with rfl | hq
      · exact hp.2
      · exact hle q hq

/-- Working out the cluster again keeps a catalog well-formed whose fold and multipliers are
shapes. -/
theorem wellFormed_updateCluster {c c' : Catalog} (h : updateCluster c = .ok c')
    (distinct : (c.stepDim :: (c.domain.names ++ c.misc.names)).Nodup)
    (stencil : c.stencil.names = c.stepDim :: c.domain.names)
    (outer : c.domain.names.head? = some c.outerDim)
    (inner : c.domain.names.getLast? = some c.innerDim)
    (fold : c.IsShape c.fold) (folds : c.IsShape c.clusterFolds) : c'.WellFormed := by
  simp only [updateCluster, bind_eq_ok, pure_eq_ok] at h
  obtain ⟨points, hpoints, rfl⟩ := h
  obtain ⟨rfl, hle⟩ := multiplyValues_eq_ok hpoints
  have hlen : c.fold.length = c.clusterFolds.length := by
    rw [← DimVec.length_names, ← DimVec.length_names, fold.names, folds.names]
  have hvalues : (c.fold.withValues
      (List.zipWith (· * ·) c.fold.values c.clusterFolds.values)).values =
        List.zipWith (· * ·) c.fold.values c.clusterFolds.values :=
    DimVec.values_withValues (by simp [hlen])
  -- Only the cluster is new: it has the names of the fold, and products of positive numbers.
  refine ⟨distinct, stencil, outer, inner, ⟨fold.names, fold.pos⟩, ⟨folds.names, folds.pos⟩,
    ⟨?_, fun n hn => ?_⟩, hvalues, fun n hn => ?_⟩
  · exact (DimVec.names_withValues _ _).trans fold.names
  · rw [hvalues] at hn
    obtain ⟨i, hi, rfl⟩ := List.getElem_of_mem hn
    rw [List.getElem_zipWith]
    exact Int.mul_pos (fold.pos _ (List.getElem_mem _)) (folds.pos _ (List.getElem_mem _))
  · rw [hvalues] at hn
    exact hle n hn

theorem updateCluster_eq_ok {c c' : Catalog} (h : updateCluster c = .ok c') :
    ∃ t, c' = { c with cluster := t } := by
  simp only [updateCluster, bind_eq_ok, pure_eq_ok] at h
  obtain ⟨points, -, rfl⟩ := h
  exact ⟨_, rfl⟩

theorem foldedBy_eq_ok {c c' : Catalog} {values : List Int} (h : c.foldedBy values = .ok c') :
    ∃ t, c.IsShape t ∧ t.values = values ∧ updateCluster { c with fold := t } = .ok c' := by
  simp only [foldedBy, bind_eq_ok, liftM_checked_eq_ok, liftM_planError_eq_ok] at h
  obtain ⟨fold, hfold, h⟩ := h
  obtain ⟨hshape, hvalues⟩ := shape_eq_ok hfold
  exact ⟨fold, hshape, hvalues, h⟩

theorem withClusterFolds_eq_ok {c c' : Catalog} {values : List Int}
    (h : c.withClusterFolds values = .ok c') :
    ∃ t, c.IsShape t ∧ t.values = values ∧ updateCluster { c with clusterFolds := t } = .ok c' := by
  simp only [withClusterFolds, bind_eq_ok, liftM_checked_eq_ok, liftM_planError_eq_ok] at h
  obtain ⟨folds, hfolds, h⟩ := h
  obtain ⟨hshape, hvalues⟩ := shape_eq_ok hfolds
  exact ⟨folds, hshape, hvalues, h⟩

theorem Built.wellFormed {c : Catalog} (h : c.Built) : c.WellFormed := by
  induction h with
  | declare h => exact (declared_of_declare h).wellFormed
  | fold _ h ih =>
    obtain ⟨t, hs, -, h⟩ := foldedBy_eq_ok h
    exact wellFormed_updateCluster h ih.distinct ih.stencil ih.outer ih.inner ⟨hs.names, hs.pos⟩
      ⟨ih.clusterFolds.names, ih.clusterFolds.pos⟩
  | cluster _ h ih =>
    obtain ⟨t, hs, -, h⟩ := withClusterFolds_eq_ok h
    exact wellFormed_updateCluster h ih.distinct ih.stencil ih.outer ih.inner
      ⟨ih.fold.names, ih.fold.pos⟩ ⟨hs.names, hs.pos⟩

/-- What a declaration brings and no shape has a part in holds of every built catalog. -/
theorem Built.of_declared {P : Catalog → Prop}
    (hdeclared : ∀ {step : String} {domain misc : List String} {c : Catalog},
      c.Declared step domain misc → P c)
    (hshaped : ∀ (c : Catalog) (fold folds cluster : DimVec), P c →
      P { c with fold := fold, clusterFolds := folds, cluster := cluster })
    {c : Catalog} (h : c.Built) : P c := by
  induction h with
  | declare h => exact hdeclared (declared_of_declare h)
  | @fold c _ _ _ h ih =>
    obtain ⟨t, -, -, h⟩ := foldedBy_eq_ok h
    obtain ⟨points, rfl⟩ := updateCluster_eq_ok h
    exact hshaped c t c.clusterFolds points ih
  | @cluster c _ _ _ h ih =>
    obtain ⟨t, -, -, h⟩ := withClusterFolds_eq_ok h
    obtain ⟨points, rfl⟩ := updateCluster_eq_ok h
    exact hshaped c c.fold t points ih

namespace WellFormed

variable {c : Catalog}

theorem nodup (h : c.WellFormed) : c.domain.names.Nodup :=
  List.Nodup.of_append_left (List.nodup_cons.mp h.distinct).2

theorem step_notMem (h : c.WellFormed) : c.stepDim ∉ c.domain.names := fun hmem =>
  (List.nodup_cons.mp h.distinct).1 (by simp [hmem])

theorem ne_step (h : c.WellFormed) {dim : String} (hdim : dim ∈ c.domain.names) :
    dim ≠ c.stepDim := by
  rintro rfl
  exact h.step_notMem hdim

theorem mem_stencil (h : c.WellFormed) {dim : String} (hdim : dim ∈ c.domain.names) :
    dim ∈ c.stencil.names := by
  rw [h.stencil]
  exact List.mem_cons_of_mem _ hdim

/-- In a vector over the domain dimensions the value of a dimension stands at its place. -/
theorem getD_eq (h : c.WellFormed) {t : DimVec} {j : Nat} {dim : String} {n w : Int}
    (ht : t.names = c.domain.names) (hj : c.domain.names[j]? = some dim)
    (hn : t.values[j]? = some n) : t.getD dim w = n :=
  DimVec.getD_of_getElem? (ht ▸ h.nodup) (ht ▸ hj) hn

/-- The points of a cluster in a domain dimension. -/
theorem cluster_getD (h : c.WellFormed) {dim : String} (hdim : dim ∈ c.domain.names) (w : Int) :
    0 < c.cluster.getD dim w ∧ c.cluster.getD dim w ≤ Idx.max := by
  obtain ⟨j, hj⟩ := List.mem_iff_getElem?.mp hdim
  obtain ⟨n, hn⟩ := DimVec.exists_value h.cluster.names hj
  have hmem := List.mem_of_getElem? hn
  rw [h.getD_eq h.cluster.names hj hn]
  exact ⟨h.cluster.pos n hmem, h.cluster_le n hmem⟩

/-- In each dimension a cluster is so many folds. -/
theorem exists_factors (h : c.WellFormed) {j : Nat} {dim : String}
    (hj : c.domain.names[j]? = some dim) :
    ∃ f m, c.fold.values[j]? = some f ∧ c.clusterFolds.values[j]? = some m ∧
      c.cluster.values[j]? = some (f * m) := by
  obtain ⟨f, hf⟩ := DimVec.exists_value h.fold.names hj
  obtain ⟨m, hm⟩ := DimVec.exists_value h.clusterFolds.names hj
  exact ⟨f, m, hf, hm, by rw [h.cluster_values, List.getElem?_zipWith, hf, hm]⟩

/-- A cluster holds whole folds. -/
theorem fold_dvd_cluster (h : c.WellFormed) {dim : String} (hdim : dim ∈ c.domain.names)
    (w : Int) : 0 < c.fold.getD dim w ∧ c.fold.getD dim w ∣ c.cluster.getD dim w := by
  obtain ⟨j, hj⟩ := List.mem_iff_getElem?.mp hdim
  obtain ⟨f, m, hf, -, hcluster⟩ := h.exists_factors hj
  rw [h.getD_eq h.fold.names hj hf, h.getD_eq h.cluster.names hj hcluster]
  exact ⟨h.fold.pos f (List.mem_of_getElem? hf), Int.dvd_mul_right f m⟩

end WellFormed

/-! ### Kinds of dimensions -/

/-- All dimensions of a catalog. -/
def dims (c : Catalog) : List String := c.stepDim :: (c.domain.names ++ c.misc.names)

theorem isSome_kind?_iff {c : Catalog} {dim : String} : (c.kind? dim).isSome ↔ dim ∈ c.dims := by
  simp only [kind?, DimVec.contains_iff, dims, List.mem_cons, List.mem_append]
  by_cases hstep : dim = c.stepDim
  · simp [hstep]
  · by_cases hdomain : dim ∈ c.domain.names <;> simp [hstep, hdomain]

/-- The dimensions of a kind. -/
def dimsOf (c : Catalog) : DimKind → List String
  | .step => [c.stepDim]
  | .domain => c.domain.names
  | .misc => c.misc.names

/-- A dimension is classified as the kind under which it is listed. -/
theorem kind?_eq_some_iff {c : Catalog} (h : c.WellFormed) {dim : String} {k : DimKind} :
    c.kind? dim = some k ↔ dim ∈ c.dimsOf k := by
  obtain ⟨hstep, hrest⟩ := List.nodup_cons.mp h.distinct
  have hdisjoint := List.disjoint_of_nodup_append hrest
  simp only [kind?, DimVec.contains_iff]
  by_cases hdim : dim = c.stepDim
  · subst hdim
    rw [List.mem_append, not_or] at hstep
    cases k <;> simp [dimsOf, hstep]
  · by_cases hdomain : dim ∈ c.domain.names
    · have hmisc : dim ∉ c.misc.names := hdisjoint hdomain
      cases k <;> simp [dimsOf, hdim, hdomain, hmisc]
    · by_cases hmisc : dim ∈ c.misc.names <;> cases k <;> simp [dimsOf, hdim, hdomain, hmisc]

theorem check_eq_ok {c : Catalog} {dim func : String} {a : Accepts} {k : DimKind} :
    c.check dim func a = .ok k ↔ c.kind? dim = some k ∧ a.accepts k = true := by
  unfold check
  cases c.kind? dim with
  | none => simp
  | some kind =>
    by_cases h : a.accepts kind = true
    · simp only [h, if_true, Except.ok.injEq, Option.some.injEq]
      constructor
      · rintro rfl
        exact ⟨rfl, h⟩
      · exact fun hk => hk.1
    · simp only [h, Bool.false_eq_true, if_false, reduceCtorEq, Option.some.injEq, false_iff]
      rintro ⟨rfl, hk⟩
      exact h hk

/-- Where a tile may have a size. -/
theorem exists_check_tile {c : Catalog} (h : c.WellFormed) {dim func : String} {step : Bool} :
    (∃ k, c.check dim func (.tile step) = .ok k) ↔
      dim ∈ c.domain.names ∨ dim = c.stepDim ∧ step = true := by
  simp only [check_eq_ok, kind?, DimVec.contains_iff]
  by_cases hstep : dim = c.stepDim
  · subst hstep
    simp [Accepts.tile, Accepts.accepts, h.step_notMem]
  · by_cases hdomain : dim ∈ c.domain.names
    · simp [Accepts.tile, Accepts.accepts, hstep, hdomain]
    · by_cases hmisc : dim ∈ c.misc.names <;>
        simp [Accepts.tile, Accepts.accepts, hstep, hdomain, hmisc]

/-- No dimension has an empty name. -/
theorem Built.ne_empty {c : Catalog} (h : c.Built) : ∀ dim ∈ c.dims, dim ≠ "" := by
  refine h.of_declared (P := fun c => ∀ dim ∈ c.dims, dim ≠ "") (fun hd => ?_)
    fun _ _ _ _ ih => ih
  rw [dims, hd.stepDim_eq, hd.names_domain, hd.names_misc]
  exact hd.ne_empty

/-! ### The domain dimensions by position -/

@[simp] theorem names_domainVec (c : Catalog) (v : Int) : (c.domainVec v).names = c.domain.names :=
  DimVec.names_fill _ _

@[simp] theorem length_domainVec (c : Catalog) (v : Int) :
    (c.domainVec v).length = c.domain.length := DimVec.length_fill _ _

theorem getD_domainVec {c : Catalog} {dim : String} (hdim : dim ∈ c.domain.names) {v w : Int} :
    (c.domainVec v).getD dim w = v := DimVec.getD_map hdim

theorem mem_dimPlaces {c : Catalog} {d : DimPlace} :
    d ∈ c.dimPlaces ↔ c.domain.names[d.domainIndex]? = some d.name ∧
      d.stencilIndex = d.domainIndex + 1 := by
  simp only [Catalog.dimPlaces, List.mem_map, Prod.exists, List.mem_zipIdx_iff_getElem?]
  constructor
  · rintro ⟨name, j, h, rfl⟩
    exact ⟨h, rfl⟩
  · rintro ⟨h, hindex⟩
    exact ⟨d.name, d.domainIndex, h, by rw [← hindex]⟩

theorem getElem?_dimPlaces (c : Catalog) (j : Nat) :
    c.dimPlaces[j]? = (c.domain.names[j]?).map fun name => ⟨j + 1, j, name⟩ := by
  rw [dimPlaces, List.getElem?_map, List.getElem?_zipIdx, Option.map_map, Nat.zero_add]
  rfl

theorem nodup_domainIndex (c : Catalog) : (c.dimPlaces.map (·.domainIndex)).Nodup := by
  rw [Catalog.dimPlaces, List.map_map]
  change (c.domain.names.zipIdx.map fun e => e.2).Nodup
  rw [List.zipIdx_map_snd]
  exact List.nodup_range'

end StencilPlan.Catalog
