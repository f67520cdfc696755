import StencilPlan.Proofs.Tiling.Settled

/-!
# Sub-blocks and slabs

A resolved sub-block comes from the request for it, except along the dimension in which slabs are
made. Slabs are made where several threads share a block and the requests of the domain dimensions
add up to zero. That is how a resolution tells that no size was given, and it is right where no
request is negative. A negative request asks for nothing, but it can cancel one that does.
-/

namespace StencilPlan

namespace Plan

/-- What the first scan finds in the blocks of a plan: the dimension that slabs are cut along, and
how thick they are. -/
structure HasSlabs (c : Catalog) (p : Plan) (threads : Int) (dim : String) (size : Int) :
    Prop where
  along : dimByClusters c p.sizes.block threads = .ok dim
  thick : slabSize c p.sizes.block dim threads = .ok size

/-- The sub-blocks of a plan are the requests `asked`, as they come inside the mini-blocks. -/
def SubBlocksFrom (c : Catalog) (p : Plan) (asked : String → Int) : Prop :=
  ∀ dim ∈ c.domain.names, p.sizes.size .subBlock dim =
    resolvedSize (p.sizes.size .miniBlock dim) (asked dim) (c.cluster.getD dim 1)

end Plan

namespace Settings

variable {c : Catalog} {v : Verbosity} {s : Settings} {p : Plan}

/-- What the requests of a level add up to over the domain dimensions. -/
def askedInAll (s : Settings) (c : Catalog) (l : Level) : Int :=
  (c.domain.names.map (s.size l)).sum

/-- Requests of which none is negative add up to zero exactly if none asks for a size. -/
theorem askedInAll_eq_zero_iff {l : Level} (h : ∀ dim ∈ c.domain.names, 0 ≤ s.size l dim) :
    s.askedInAll c l = 0 ↔ ∀ dim ∈ c.domain.names, s.size l dim ≤ 0 := by
  rw [askedInAll]
  constructor
  · intro hsum dim hdim
    refine le_of_eq (List.all_zero_of_le_zero_le_of_sum_eq_zero ?_ hsum (List.mem_map_of_mem hdim))
    exact List.forall_mem_map.mpr h
  · intro hle
    exact List.sum_eq_zero (List.forall_mem_map.mpr fun dim hdim =>
      le_antisymm (hle dim hdim) (h dim hdim))

/-- The step entry of the sub-blocks is zero, so their entries add up to those of the domain. -/
theorem eq_askedInAll (hc : c.WellFormed) (hs : s.Reachable c) {total : Int}
    (h : s.subBlock.sum = .ok total) : total = s.askedInAll c .subBlock := by
  have hstep : s.subBlock.getD c.stepDim 0 = 0 := hs.stepless hc .subBlock (by decide) rfl
  rw [Idx.sum_eq_ok h,
    values_stencil hc (t := s.subBlock) (hs.shaped.named .subBlock (by decide)), hstep,
    List.sum_cons, Int.zero_add]
  rfl

theorem one_lt_threadsPerBlock : 1 < s.threadsPerBlock ↔ 1 < s.blockThreads := by
  simp only [threadsPerBlock, Idx.max]
  omega

/-- The sub-blocks of a plan come from the requests for them, with that of one dimension replaced
if several threads share a block and the requests add up to zero. Where none is negative they do so
exactly if none asks for a size. -/
theorem subBlocksFrom_of_resolve (hc : c.Built) (hs : s.Reachable c)
    (hp : ((s.resolve c).run v ()).result = .ok p) :
    (if 1 < s.blockThreads ∧ s.askedInAll c .subBlock = 0 then
        ∃ dim size, p.HasSlabs c s.threadsPerBlock dim size ∧
          p.SubBlocksFrom c (Function.update (s.size .subBlock) dim size)
      else p.SubBlocksFrom c (s.size .subBlock)) ∧
    ((∀ dim ∈ c.domain.names, 0 ≤ s.size .subBlock dim) →
      (s.askedInAll c .subBlock = 0 ↔ ∀ dim ∈ c.domain.names, s.size .subBlock dim ≤ 0)) := by
  refine ⟨?_, askedInAll_eq_zero_iff⟩
  have hw := hc.wellFormed
  have h := (resolve_eq_ok hw hs.shaped).mp hp
  have hnamed : s.subBlock.names = c.stencil.names := hs.shaped.named .subBlock (by decide)
  obtain ⟨asked, dim, hslabs, hcut, -⟩ := h.subBlock
  have hfrom : p.SubBlocksFrom c fun dim => asked.getD dim 0 :=
    (getD_of_tiled hw (h.whole hw hs.shaped (l := .miniBlock) (by decide))
      (hslabs.names.trans hnamed) hcut).2
  cases hslabs with
  | single hfew =>
    rw [if_neg fun hmany => absurd (one_lt_threadsPerBlock.mpr hmany.1) (by omega)]
    exact hfrom
  | given _ hsum hne =>
    rw [if_neg fun hzero => hne ((eq_askedInAll hw hs hsum).trans hzero.2)]
    exact hfrom
  | @slab dim size hmany hsum hdim hsize =>
    rw [if_pos ⟨one_lt_threadsPerBlock.mp hmany, (eq_askedInAll hw hs hsum).symm⟩]
    have hmem := mem_domain_of_dimByClusters hw hdim
    -- Setting an entry of the vector is updating the function that reads it.
    have hasked : ∀ d, (s.subBlock.set dim size).getD d 0 =
        Function.update (s.size .subBlock) dim size d := by
      intro d
      by_cases heq : d = dim
      · subst heq
        rw [Function.update_self, DimVec.getD_set_self (hnamed ▸ hw.mem_stencil hmem)]
      · rw [Function.update_of_ne heq, DimVec.getD_set_of_ne heq]
        rfl
    exact ⟨dim, size, ⟨hdim, hsize⟩, fun d hd => hasked d ▸ hfrom d hd⟩

end Settings

/-- Without a request the dimension of the slabs is one cluster thick, and the others follow the
mini-blocks. -/
theorem subBlocksFrom_of_resolve_slabbed : ∃ p,
    (((Slabbed.after Slabbed.options).resolve Slabbed.catalog).run none ()).result = .ok p ∧
      p.HasSlabs Slabbed.catalog 4 "y" 1 ∧
      p.SubBlocksFrom Slabbed.catalog fun dim => if dim = "y" then 1 else 0 := by
  obtain ⟨p, hp, hcheck⟩ := exists_eq_ok_of_any
    (x := (((Slabbed.after Slabbed.options).resolve Slabbed.catalog).run none ()).result)
    (p := fun p => decide (dimByClusters Slabbed.catalog p.sizes.block 4 = .ok "y") &&
      decide (slabSize Slabbed.catalog p.sizes.block "y" 4 = .ok 1)) (by decide +kernel)
  rw [Bool.and_eq_true, decide_eq_true_eq, decide_eq_true_eq] at hcheck
  obtain ⟨hdim, hsize⟩ := hcheck
  have hcases := (Settings.subBlocksFrom_of_resolve Slabbed.built (Slabbed.reachable_after _) hp).1
  rw [if_pos (by decide +kernel)] at hcases
  obtain ⟨dim, size, hslabs, hfrom⟩ := hcases
  obtain rfl : "y" = dim := Except.ok.inj (hdim.symm.trans hslabs.along)
  obtain rfl : 1 = size := Except.ok.inj (hsize.symm.trans hslabs.thick)
  have hunset : ∀ dim ∈ Slabbed.catalog.domain.names,
      (Slabbed.after Slabbed.options).size .subBlock dim = 0 := by decide +kernel
  refine ⟨p, hp, ⟨hdim, hsize⟩, fun d hd => ?_⟩
  rw [hfrom d hd, Function.update_apply, hunset d hd]

/-- A size that was given for one dimension gives way to a slab because the entry of another one
is negative. -/
theorem slab_despite_size : Slabbed.catalog.Built ∧ ∃ (s : Settings) (p : Plan),
    s.Reachable Slabbed.catalog ∧ ((s.resolve Slabbed.catalog).run none ()).result = .ok p ∧
    1 < s.blockThreads ∧ 0 < s.size .subBlock "x" ∧ p.sizes.size .subBlock "x" = 1 ∧
    resolvedSize (p.sizes.size .miniBlock "x") (s.size .subBlock "x")
      (Slabbed.catalog.cluster.getD "x" 1) = 8 := by
  let s := Slabbed.after [("l", "64"), ("block_threads", "2"), ("sbx", "8"), ("sby", "-8")]
  obtain ⟨p, hp, hcheck⟩ := exists_eq_ok_of_any
    (x := ((s.resolve Slabbed.catalog).run none ()).result)
    (p := fun p => decide (p.sizes.size .subBlock "x" = 1) &&
      decide (resolvedSize (p.sizes.size .miniBlock "x") (s.size .subBlock "x")
        (Slabbed.catalog.cluster.getD "x" 1) = 8)) (by decide +kernel)
  rw [Bool.and_eq_true, decide_eq_true_eq, decide_eq_true_eq] at hcheck
  exact ⟨Slabbed.built, s, p, Slabbed.reachable_after _, hp, by decide +kernel, by decide +kernel,
    hcheck⟩

end StencilPlan
