import StencilPlan.Proofs.Tiling.Settled

/-!
# The dimension that threads split along, once settings are resolved

A plan names the dimension along which block threads split. Resolving its settings again comes to
the same dimension if threads are bound, because then it is looked for among the resolved
sub-blocks: a dimension in which the default scan made slabs has one for each thread. Without
binding nothing is looked for where the sub-blocks have a size, so the second plan names the
outermost dimension.
-/

namespace StencilPlan

namespace Settings

variable {c : Catalog} {v w : Verbosity} {s : Settings} {p q : Plan}

/-- A slab of one cluster divides its block into as many sub-blocks as the block has clusters. -/
theorem ceilDiv_slab {block points n : Int} (hpoints : 0 < points) (hdvd : points ∣ block)
    (hblock : 0 < block) (h : ceilDiv block points = .ok n) : n = block.tdiv points := by
  rw [(gives_ceilDiv block points).of_ok h hpoints, Int.tdiv_eq_ediv_of_nonneg hblock.le]
  obtain ⟨k, rfl⟩ := hdvd
  rw [Int.mul_ediv_cancel_left k hpoints.ne', Int.add_sub_assoc,
    Int.add_comm, Int.add_mul_ediv_left _ _ hpoints.ne', Int.ediv_eq_zero_of_lt] <;> omega

/-- Slabs in several dimensions are one cluster thick. -/
theorem size_slab {asked : DimVec} {dim : String} {size : Int} (hc : c.WellFormed)
    (h : Resolves c s p) (hs : s.Shaped c) (hmem : dim ∈ c.domain.names) (hne : dim ≠ c.innerDim)
    (hsize : slabSize c p.sizes.block dim s.threadsPerBlock = .ok size)
    (hcut : p.Tiled c .miniBlock .subBlock (asked.set dim size) p.counts.subBlocks)
    (hasked : asked.names = c.stencil.names) :
    p.sizes.subBlock.getD dim 0 = c.cluster.getD dim 1 := by
  obtain ⟨hpos, hdvd⟩ := h.whole hc hs (l := .miniBlock) (by decide) dim hmem
  have hcluster := (hc.cluster_getD hmem 1).1
  have hle := Int.le_of_dvd hpos hdvd
  have hcut := (getD_of_tiled hc (h.whole hc hs (l := .miniBlock) (by decide))
    ((DimVec.names_set _ _ _).trans hasked) hcut).2 dim hmem
  -- There is an inner dimension besides this one, so the slab size is that of a cluster.
  have hpoints : size = c.cluster.getD dim 1 := by
    unfold slabSize at hsize
    dsimp only at hsize
    rw [if_pos (two_le_domainCount hc hmem hne), pure_eq_ok] at hsize
    exact hsize
  rw [DimVec.getD_set_self (hasked ▸ hc.mem_stencil hmem),
    hpoints, resolvedSize, if_neg (by omega), multipleAbove_of_dvd hcluster dvd_rfl] at hcut
  exact hcut.trans (min_eq_right hle)

/-- Where the scan of the sub-blocks finds no dimension, the threads split along the outermost one
from before. Another one would have been made slabs of, and there would be enough of them. -/
theorem eq_outerDim_of_found_none {asked : DimVec} {dim : String} (hc : c.WellFormed)
    (h : Resolves c s p) (hs : s.Shaped c)
    (hslabs : Slabs c p.sizes.block s.subBlock s.threadsPerBlock asked dim)
    (hcut : p.Tiled c .miniBlock .subBlock asked p.counts.subBlocks)
    (hnone : Found c (fun d => do
      let subBlocks ← ceilDiv (p.sizes.block.getD d.name 0) (p.sizes.subBlock.getD d.name 0)
      return decide (subBlocks ≥ s.threadsPerBlock)) c.dimPlaces none) :
    dim = c.outerDim := by
  cases hslabs with
  | single => rfl
  | given => rfl
  | slab _ _ hdim hsize =>
    rcases dimByClusters_eq_ok hc hdim with heq | ⟨hmem, hne, hge⟩
    · exact heq
    · exfalso
      -- The slabs along it are as many as the clusters, so the scan would have found it.
      obtain ⟨j, hj⟩ := List.mem_iff_getElem?.mp hmem
      have htest := hnone ⟨j + 1, j, dim⟩ (Catalog.mem_dimPlaces.mpr ⟨hj, rfl⟩) hne
      simp only [bind_eq_ok, pure_eq_ok] at htest
      obtain ⟨n, hn, hfew⟩ := htest
      rw [size_slab hc h hs hmem hne hsize hcut (hs.named .subBlock (by decide))] at hn
      obtain ⟨hpos, hdvd⟩ := h.whole hc hs (l := .block) (by decide) dim hmem
      rw [ceilDiv_slab (hc.cluster_getD hmem 1).1 hdvd hpos hn] at hfew
      exact of_decide_eq_false hfew.symm hge

/-- Threads that are bound split along the same dimension after a second pass; threads that are not
split along the outermost one. -/
theorem splitDim_of_again (hc : c.WellFormed) (hs : s.Shaped c) (hstep : s.Stepless c)
    (h : Resolves c s p) (h' : Resolves c p.sizes q) :
    (s.bindBlockThreads = true → q.splitDim = p.splitDim) ∧
      (s.bindBlockThreads = false → q.splitDim = c.outerDim) := by
  obtain ⟨hsizes, -, hsplit'⟩ := h.again h' hc hs hstep
  obtain ⟨asked, dim, hslabs, hcut, hsplit⟩ := h.subBlock
  have hthreads : p.sizes.threadsPerBlock = s.threadsPerBlock :=
    h.rest.proj (f := threadsPerBlock) fun _ _ => rfl
  have hbind : p.sizes.bindBlockThreads = s.bindBlockThreads :=
    h.rest.proj (f := Settings.bindBlockThreads) fun _ _ => rfl
  unfold SplitAs at hsplit hsplit'
  rw [hsizes, hthreads, hbind] at hsplit'
  constructor
  · intro hbound
    by_cases hmany : s.threadsPerBlock > 1
    · rw [if_pos ⟨hbound, hmany⟩] at hsplit hsplit'
      -- both passes scan the same sub-blocks
      simp only [dimBySubBlocks, bind_eq_ok, pure_eq_ok] at hsplit hsplit'
      obtain ⟨found, hfound, hp⟩ := hsplit
      obtain ⟨found', hfound', hq⟩ := hsplit'
      obtain rfl : found' = found := Except.ok.inj (hfound'.symm.trans hfound)
      cases found' with
      | some d => rw [hp, hq, Option.getD_some, Option.getD_some]
      | none =>
        rw [hp, hq, Option.getD_none, Option.getD_none,
          eq_outerDim_of_found_none hc h hs hslabs hcut (found_of_firstOuterDim? hfound)]
    · rw [if_neg fun h => hmany h.2] at hsplit hsplit'
      rw [hsplit, hsplit']
      cases hslabs with
      | single => rfl
      | given => rfl
      | slab h => exact absurd h hmany
  · intro hfree
    rwa [if_neg fun h => by rw [hfree] at h; exact absurd h.1 (by decide)] at hsplit'

/-- A second pass keeps the dimension that threads split along if threads are bound, or if it was
the outermost one. It was that one where no slabs were made and threads are not bound. -/
theorem splitDim_resolved_iff (hc : c.Built) (hs : s.Reachable c)
    (hp : ((s.resolve c).run v ()).result = .ok p)
    (hq : ((p.sizes.resolve c).run w ()).result = .ok q) :
    (q.splitDim = p.splitDim ↔ s.bindBlockThreads = true ∨ p.splitDim = c.outerDim) ∧
      (s.bindBlockThreads = false → s.threadsPerBlock ≤ 1 ∨ s.subBlock.sum ≠ .ok 0 →
        p.splitDim = c.outerDim) := by
  have hw := hc.wellFormed
  have h := (resolve_eq_ok hw hs.shaped).mp hp
  have h' := (resolve_eq_ok hw (h.shaped hw hs.shaped)).mp hq
  obtain ⟨hbound, hfree⟩ := splitDim_of_again hw hs.shaped (hs.stepless hw) h h'
  constructor
  · cases hbind : s.bindBlockThreads with
    | true => exact ⟨fun _ => .inl rfl, fun _ => hbound hbind⟩
    | false =>
      rw [hfree hbind]
      exact ⟨fun heq => .inr heq.symm, fun hor => (hor.resolve_left (by decide)).symm⟩
  · intro hbind hnoslab
    obtain ⟨asked, dim, hslabs, -, hsplit⟩ := h.subBlock
    rw [SplitAs, if_neg fun h => by rw [hbind] at h; exact absurd h.1 (by decide)] at hsplit
    rw [hsplit]
    -- Without slabs the dimension was never changed from the outermost one.
    cases hslabs with
    | single => rfl
    | given => rfl
    | slab hmany hsum =>
      rcases hnoslab with hfew | hne
      · omega
      · exact absurd hsum hne

end Settings

/-- Bound threads go on to split along the dimension of the slabs. -/
theorem splitDim_resolved_iff_slabbed : ∃ p q,
    (((Slabbed.after (("bind_block_threads", "true") :: Slabbed.options)).resolve
      Slabbed.catalog).run none ()).result = .ok p ∧
      ((p.sizes.resolve Slabbed.catalog).run none ()).result = .ok q ∧
      p.splitDim = "y" ∧ q.splitDim = p.splitDim := by
  obtain ⟨p, hp, hcheck⟩ := exists_eq_ok_of_any
    (x := (((Slabbed.after (("bind_block_threads", "true") :: Slabbed.options)).resolve
      Slabbed.catalog).run none ()).result)
    (p := fun p => decide (p.splitDim = "y") &&
      ((p.sizes.resolve Slabbed.catalog).run none ()).result.toOption.any fun _ => true)
    (by decide +kernel)
  rw [Bool.and_eq_true, decide_eq_true_eq] at hcheck
  obtain ⟨q, hq, -⟩ := exists_eq_ok_of_any hcheck.2
  have hkeeps := (Settings.splitDim_resolved_iff Slabbed.built (Slabbed.reachable_after _) hp hq).1
  exact ⟨p, q, hp, hq, hcheck.1, hkeeps.mpr (.inl (by decide +kernel))⟩

/-- Threads that are not bound are planned along the dimension of the slabs first and along the
outermost one in the second pass. -/
theorem splitDim_moves : Slabbed.catalog.Built ∧
    (Slabbed.after Slabbed.options).Reachable Slabbed.catalog ∧ ∃ p q,
      (((Slabbed.after Slabbed.options).resolve Slabbed.catalog).run none ()).result = .ok p ∧
        ((p.sizes.resolve Slabbed.catalog).run none ()).result = .ok q ∧
        p.splitDim = "y" ∧ q.splitDim = "x" := by
  obtain ⟨p, hp, hcheck⟩ := exists_eq_ok_of_any
    (x := (((Slabbed.after Slabbed.options).resolve Slabbed.catalog).run none ()).result)
    (p := fun p => decide (p.splitDim = "y") &&
      ((p.sizes.resolve Slabbed.catalog).run none ()).result.toOption.any fun q =>
        decide (q.splitDim = "x")) (by decide +kernel)
  rw [Bool.and_eq_true, decide_eq_true_eq] at hcheck
  obtain ⟨q, hq, hmoved⟩ := exists_eq_ok_of_any hcheck.2
  exact ⟨Slabbed.built, Slabbed.reachable_after _, p, q, hp, hq, hcheck.1,
    of_decide_eq_true hmoved⟩

end StencilPlan
