import StencilPlan.Proofs.Tiling.Slabs
import StencilPlan.Proofs.Tiling.SplitDim

/-!
# The two scans

The dimension that threads split along is looked for twice. The first scan counts the clusters of a
block, the second one the sub-blocks it was cut into. Where no size was given for the sub-blocks
both find the same: a sub-block is never smaller than a cluster, so the second scan passes over
whatever the first one passed over, and in the dimension that the first one found the sub-blocks
are slabs of one cluster.
-/

namespace StencilPlan

section Scans

variable {c : Catalog} {test test' : DimPlace → Checked Bool} {ds : List DimPlace}
  {found found' : Option String}

/-- Two scans find the same dimension if the second one fails where the first one does and passes
what the first one found. -/
theorem firstOuterDim?_agree (h : firstOuterDim? c test ds = .ok found)
    (h' : firstOuterDim? c test' ds = .ok found')
    (hfails : ∀ d ∈ ds, d.name ≠ c.innerDim → test d = .ok false → test' d ≠ .ok true)
    (hpasses : ∀ d ∈ ds, found = some d.name → d.name ≠ c.innerDim → test d = .ok true →
      test' d ≠ .ok false) : found' = found := by
  induction ds with
  | nil => exact Except.ok.inj (h'.symm.trans h)
  | cons d ds ih =>
    have hrest : firstOuterDim? c test ds = .ok found → firstOuterDim? c test' ds = .ok found' →
        found' = found := fun h h' =>
      ih h h' (fun e he => hfails e (List.mem_cons_of_mem d he))
        fun e he => hpasses e (List.mem_cons_of_mem d he)
    rw [firstOuterDim?] at h h'
    split at h
    · next houter =>
      rw [if_pos houter] at h'
      simp only [bind_eq_ok] at h h'
      obtain ⟨b, hb, h⟩ := h
      obtain ⟨b', hb', h'⟩ := h'
      -- The scans part ways only where one test passes and the other one fails, which is excluded.
      cases b with
      | true =>
        obtain rfl : some d.name = found := Except.ok.inj h
        cases b' with
        | true => exact (Except.ok.inj h').symm
        | false => exact absurd hb' (hpasses d List.mem_cons_self rfl houter hb)
      | false =>
        cases b' with
        | true => exact absurd hb' (hfails d List.mem_cons_self houter hb)
        | false => exact hrest h h'
    · next hinner =>
      rw [if_neg hinner] at h'
      exact hrest h h'

end Scans

namespace Settings

variable {c : Catalog} {v : Verbosity} {s : Settings} {p : Plan}

/-- Sub-blocks of whole clusters are no more than the clusters. -/
theorem ceilDiv_le_clusters {block sub points n : Int} (hpoints : 0 < points)
    (hblock : 0 < block) (hdvd : points ∣ block) (hsub : 0 < sub) (hsubDvd : points ∣ sub)
    (h : ceilDiv block sub = .ok n) : n ≤ block.tdiv points := by
  rw [(gives_ceilDiv block sub).of_ok h hsub, Int.tdiv_eq_ediv_of_nonneg hblock.le]
  have hle := Int.le_of_dvd hsub hsubDvd
  have hcount := Int.mul_le_mul_of_nonneg_left hle (Int.ediv_nonneg hblock.le hpoints.le)
  rw [Int.ediv_mul_cancel hdvd] at hcount
  refine Int.lt_add_one_iff.mp (Int.ediv_lt_of_lt_mul hsub ?_)
  rw [Int.add_mul, Int.one_mul]
  omega

/-- What a test of the first scan says about a dimension. -/
theorem clusters_test {block : DimVec} {threads : Int} {d : DimPlace} {b : Bool}
    (hc : c.WellFormed) (hd : d ∈ c.dimPlaces)
    (h : (do
      let points ← c.cluster.nth d.domainIndex
      let clusters ← Idx.div (block.getD d.name 0) points
      return decide (clusters ≥ threads) : Checked Bool) = .ok b) :
    b = decide (threads ≤ (block.getD d.name 0).tdiv (c.cluster.getD d.name 1)) := by
  obtain ⟨hplace, -⟩ := Catalog.mem_dimPlaces.mp hd
  simp only [bind_eq_ok, pure_eq_ok, DimVec.nth_eq_ok_iff, Idx.div_eq_ok_iff] at h
  obtain ⟨points, hpoints, _, ⟨-, -, rfl⟩, rfl⟩ := h
  rw [hc.getD_eq hc.cluster.names hplace hpoints]

/-- Bound threads split along the dimension that the default scan finds in the resolved blocks,
if there is more than one of them to a block and no size was given for the sub-blocks. -/
theorem splitDim_eq_dimByClusters (hc : c.Built) (hs : s.Reachable c)
    (hmany : 1 < s.blockThreads) (hbound : s.bindBlockThreads = true)
    (hunset : ∀ dim ∈ c.domain.names, s.size .subBlock dim = 0)
    (hp : ((s.resolve c).run v ()).result = .ok p) :
    dimByClusters c p.sizes.block s.threadsPerBlock = .ok p.splitDim := by
  have hw := hc.wellFormed
  have h := (resolve_eq_ok hw hs.shaped).mp hp
  have hthreads := one_lt_threadsPerBlock.mpr hmany
  obtain ⟨asked, dim, hslabs, hcut, hsplit⟩ := h.subBlock
  rw [SplitAs, if_pos ⟨hbound, hthreads⟩] at hsplit
  cases hslabs with
  | single hfew => omega
  | given _ hsum hne =>
    refine absurd ((eq_askedInAll hw hs hsum).trans ?_) hne
    exact (askedInAll_eq_zero_iff fun d hd => (hunset d hd).ge).mpr fun d hd => (hunset d hd).le
  | slab _ _ hdim hsize =>
    rw [hdim]
    unfold dimByClusters at hdim
    unfold dimBySubBlocks at hsplit
    simp only [bind_eq_ok, pure_eq_ok] at hdim hsplit
    obtain ⟨found, hfound, rfl⟩ := hdim
    obtain ⟨found', hfound', hsplit⟩ := hsplit
    have hwhole : ∀ {l d}, l ∈ Level.nested → d ∈ c.dimPlaces → 0 < p.sizes.size l d.name ∧
        c.cluster.getD d.name 1 ∣ p.sizes.size l d.name := fun hl hd =>
      h.whole hw hs.shaped hl _ (mem_domain_of_mem_dimPlaces hd)
    obtain rfl : found' = found := by
      refine firstOuterDim?_agree hfound hfound' (fun d hd _ hfew htest => ?_)
        fun d hd hname houter hmany htest => ?_
      · -- as few sub-blocks as clusters
        have hlt := clusters_test hw hd hfew
        obtain ⟨hblock, hdvd⟩ := hwhole (l := .block) (by decide) hd
        obtain ⟨hsub, hsubDvd⟩ := hwhole (l := .subBlock) (by decide) hd
        simp only [bind_eq_ok, pure_eq_ok] at htest
        obtain ⟨n, hn, htest⟩ := htest
        have hcluster := (hw.cluster_getD (mem_domain_of_mem_dimPlaces hd) 1).1
        have hle := ceilDiv_le_clusters hcluster hblock hdvd hsub hsubDvd hn
        have hge := of_decide_eq_true htest.symm
        have hno := of_decide_eq_false hlt.symm
        exact hno (le_trans hge hle)
      · -- as many slabs as clusters
        have hge := clusters_test hw hd hmany
        obtain ⟨hblock, hdvd⟩ := hwhole (l := .block) (by decide) hd
        have hmem := mem_domain_of_mem_dimPlaces hd
        rw [hname, Option.getD_some] at hsize hcut
        simp only [bind_eq_ok, pure_eq_ok] at htest
        obtain ⟨n, hn, htest⟩ := htest
        rw [size_slab hw h hs.shaped hmem houter hsize hcut
          (hs.shaped.named .subBlock (by decide))] at hn
        rw [ceilDiv_slab (hw.cluster_getD hmem 1).1 hdvd hblock hn] at htest
        exact of_decide_eq_false htest.symm (of_decide_eq_true hge.symm)
    rw [hsplit]
    cases found' <;> rfl

end Settings

/-- Mini-blocks of a single point cut the thin dimension into two, which is not enough for four
threads either. -/
theorem splitDim_eq_dimByClusters_slabbed : ∃ p,
    (((Slabbed.after (("bind_block_threads", "true") :: ("mb", "1") :: Slabbed.options)).resolve
      Slabbed.catalog).run none ()).result = .ok p ∧ p.splitDim = "y" ∧
      dimByClusters Slabbed.catalog p.sizes.block 4 = .ok "y" := by
  obtain ⟨p, hp, hsplit⟩ := exists_eq_ok_of_any
    (x := (((Slabbed.after (("bind_block_threads", "true") :: ("mb", "1") ::
      Slabbed.options)).resolve Slabbed.catalog).run none ()).result)
    (p := fun p => decide (p.splitDim = "y")) (by decide +kernel)
  have hsplit := of_decide_eq_true hsplit
  have hscan := Settings.splitDim_eq_dimByClusters Slabbed.built (Slabbed.reachable_after _)
    (by decide +kernel) (by decide +kernel) (by decide +kernel) hp
  rw [hsplit] at hscan
  exact ⟨p, hp, hsplit, hscan⟩

end StencilPlan
