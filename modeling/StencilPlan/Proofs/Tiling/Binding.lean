import StencilPlan.Tiling.Binding
import StencilPlan.Proofs.Dim.Catalog

/-!
# What the scans find

Both scans go through the domain dimensions and stop at the first one, the innermost left out, that
passes a test. So what they find has passed it, and where they find nothing no outer dimension
would.
-/

namespace StencilPlan

variable {c : Catalog} {test : DimPlace → Checked Bool} {ds : List DimPlace} {dim : String}
  {threads : Int} {block : DimVec}

/-- What a scan tells of the places it went through. -/
def Found (c : Catalog) (test : DimPlace → Checked Bool) (ds : List DimPlace) :
    Option String → Prop
  | some dim => ∃ d ∈ ds, d.name = dim ∧ dim ≠ c.innerDim ∧ test d = .ok true
  | none => ∀ d ∈ ds, d.name ≠ c.innerDim → test d = .ok false

theorem found_of_firstOuterDim? {found : Option String}
    (h : firstOuterDim? c test ds = .ok found) : Found c test ds found := by
  induction ds with
  | nil =>
    obtain rfl : none = found := Except.ok.inj h
    exact fun d hd => absurd hd List.not_mem_nil
  | cons d ds ih =>
    -- what holds of the others holds of all, if the first one is passed over
    have hrest : (d.name ≠ c.innerDim → test d = .ok false) →
        firstOuterDim? c test ds = .ok found → Found c test (d :: ds) found := by
      intro hd h
      have hfound := ih h
      cases found with
      | some dim =>
        obtain ⟨e, he, hname⟩ := hfound
        exact ⟨e, List.mem_cons_of_mem d he, hname⟩
      | none => exact List.forall_mem_cons.mpr ⟨hd, hfound⟩
    rw [firstOuterDim?] at h
    split at h
    · next hne =>
      simp only [bind_eq_ok] at h
      obtain ⟨b, hb, h⟩ := h
      cases b with
      | true =>
        obtain rfl : some d.name = found := Except.ok.inj h
        exact ⟨d, List.mem_cons_self, rfl, hne, hb⟩
      | false => exact hrest (fun _ => hb) h
    · next hinner => exact hrest (fun hne => absurd hne hinner) h

theorem mem_domain_of_mem_dimPlaces {d : DimPlace} (hd : d ∈ c.dimPlaces) :
    d.name ∈ c.domain.names := List.mem_of_getElem? (Catalog.mem_dimPlaces.mp hd).1

/-- Besides the outermost dimension only one can be found, with enough clusters for all threads. -/
theorem dimByClusters_eq_ok (hc : c.WellFormed) (h : dimByClusters c block threads = .ok dim) :
    dim = c.outerDim ∨ dim ∈ c.domain.names ∧ dim ≠ c.innerDim ∧
      threads ≤ (block.getD dim 0).tdiv (c.cluster.getD dim 1) := by
  unfold dimByClusters at h
  simp only [bind_eq_ok, pure_eq_ok] at h
  obtain ⟨found, hfound, rfl⟩ := h
  have hspec := found_of_firstOuterDim? hfound
  cases found with
  | none => exact .inl rfl
  | some dim =>
    obtain ⟨d, hd, rfl, hne, htest⟩ := hspec
    obtain ⟨hplace, -⟩ := Catalog.mem_dimPlaces.mp hd
    simp only [bind_eq_ok, pure_eq_ok, DimVec.nth_eq_ok_iff, Idx.div_eq_ok_iff] at htest
    obtain ⟨points, hpoints, _, ⟨-, -, rfl⟩, hge⟩ := htest
    refine .inr ⟨List.mem_of_getElem? hplace, hne, ?_⟩
    -- The scan reads the cluster by position, and the statement by name.
    rw [Option.getD_some, hc.getD_eq hc.cluster.names hplace hpoints]
    exact of_decide_eq_true hge.symm

theorem mem_domain_of_dimByClusters (hc : c.WellFormed)
    (h : dimByClusters c block threads = .ok dim) : dim ∈ c.domain.names := by
  rcases dimByClusters_eq_ok hc h with rfl | ⟨hmem, -⟩
  · exact List.mem_of_mem_head? hc.outer
  · exact hmem

/-- Another dimension than the innermost one takes at least two. -/
theorem two_le_domainCount (hc : c.WellFormed) (hmem : dim ∈ c.domain.names)
    (hne : dim ≠ c.innerDim) : 2 ≤ c.domainCount := by
  have hinner : c.innerDim ∈ c.domain.names := List.mem_of_mem_getLast? hc.inner
  rw [Catalog.domainCount, ← DimVec.length_names]
  obtain ⟨i, hi, hdim⟩ := List.getElem_of_mem hmem
  obtain ⟨j, hj, hin⟩ := List.getElem_of_mem hinner
  have hij : i ≠ j := by
    rintro rfl
    exact hne (hdim.symm.trans hin)
  omega

end StencilPlan
