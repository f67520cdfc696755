import StencilPlan.Proofs.Tiling.Settled

/-!
# The steps of a plan

The step dimension is not cut. What regions, blocks and mini-blocks span there is settled before,
from what is asked for alone: a negative number of steps counts as none, a region spans at least
the steps of its blocks, and a mini-block at most those. The last of these does not hold where the
blocks span no steps at all: a mini-block that asks for steps keeps them, and is traversed as a wave
front in a block without temporal blocking (`Settings.steps_of_resolve`).
-/

namespace StencilPlan

variable {c : Catalog} {v : Verbosity} {s : Settings} {p : Plan}

namespace DimVec

variable {t : DimVec} {dim : String} {n : Int}

/-- A value that is set is found again, even one that is only set to what is read anyway. -/
theorem getD_set (h : dim ∉ t.names → n = 0) : (t.set dim n).getD dim 0 = n := by
  by_cases hmem : dim ∈ t.names
  · exact getD_set_self hmem
  · rw [getD_eq_of_notMem (by rwa [names_set]), h hmem]

end DimVec

namespace Settings

/-- The steps that a level asks for: a negative number is none. -/
def askedSteps (s : Settings) (c : Catalog) (l : Level) : Int := max (s.size l c.stepDim) 0

/-- What a mini-block spans: the steps that it asks for, unless it asks for none or for more than
the steps of a block that spans some. -/
def innerSteps (block asked : Int) : Int :=
  if asked = 0 ∨ (block > 0 ∧ asked > block) then block else asked

section

variable {block asked : Int} (hblock : 0 ≤ block) (hasked : 0 ≤ asked)

include hblock hasked

theorem innerSteps_nonneg : 0 ≤ innerSteps block asked := by
  unfold innerSteps
  split <;> assumption

/-- A wave front is asked for, or comes with the blocks. -/
theorem innerSteps_pos_iff : 0 < innerSteps block asked ↔ 0 < block ∨ 0 < asked := by
  unfold innerSteps
  split <;> omega

theorem innerSteps_le_iff : innerSteps block asked ≤ block ↔ ¬ (0 < asked ∧ block = 0) := by
  unfold innerSteps
  split <;> omega

end

/-- Where the dimensions of the stencil do not include the step dimension, no steps are asked
for. -/
theorem askedSteps_eq_zero (hs : s.Shaped c) {l : Level} (hl : l ≠ .localDomain)
    (h : c.stepDim ∉ c.stencil.names) : s.askedSteps c l = 0 := by
  rw [askedSteps, size, DimVec.getD_eq_of_notMem (by rwa [hs.named l hl]), Int.max_self]

/-- A level whose steps are set to what is zero without a step dimension. -/
theorem getD_set_steps (hs : s.Shaped c) {l : Level} (hl : l ≠ .localDomain) {n : Int}
    (hn : c.stepDim ∉ c.stencil.names → n = 0) :
    ((s.sizes l).set c.stepDim n).getD c.stepDim 0 = n :=
  DimVec.getD_set fun hmem => hn (hs.named l hl ▸ hmem)

theorem size_stepped_block (hs : s.Shaped c) :
    (s.stepped c.stepDim).size .block c.stepDim = s.askedSteps c .block :=
  getD_set_steps hs (l := .block) (by decide) (askedSteps_eq_zero hs (l := .block) (by decide))

theorem size_stepped_region (hs : s.Shaped c) :
    (s.stepped c.stepDim).size .region c.stepDim =
      max (s.askedSteps c .region) (s.askedSteps c .block) := by
  refine getD_set_steps hs (l := .region) (by decide) fun hstep => ?_
  have hregion := askedSteps_eq_zero hs (l := .region) (by decide) hstep
  have hblock := askedSteps_eq_zero hs (l := .block) (by decide) hstep
  show max (s.askedSteps c .region) (s.askedSteps c .block) = 0
  rw [hregion, hblock, Int.max_self]

theorem size_stepped_miniBlock (hs : s.Shaped c) :
    (s.stepped c.stepDim).size .miniBlock c.stepDim =
      innerSteps (s.askedSteps c .block) (s.askedSteps c .miniBlock) := by
  refine getD_set_steps hs (l := .miniBlock) (by decide) fun hstep => ?_
  have hblock := askedSteps_eq_zero hs (l := .block) (by decide) hstep
  have hmini := askedSteps_eq_zero hs (l := .miniBlock) (by decide) hstep
  show innerSteps (s.askedSteps c .block) (s.askedSteps c .miniBlock) = 0
  rw [hblock, hmini]
  rfl

/-- The steps of a plan come from those that are asked for alone. -/
theorem Resolves.temporal_eq (h : Resolves c s p) (hs : s.Shaped c) :
    p.temporal = {
      regionSteps := max (s.askedSteps c .region) (s.askedSteps c .block)
      blockSteps := s.askedSteps c .block
      miniBlockSteps := innerSteps (s.askedSteps c .block) (s.askedSteps c .miniBlock) } := by
  have hregion := (h.size_step (l := .region) (by decide)).trans (size_stepped_region hs)
  have hblock := (h.size_step (l := .block) (by decide)).trans (size_stepped_block hs)
  have hmini := (h.size_step (l := .miniBlock) (by decide)).trans (size_stepped_miniBlock hs)
  simp only [size, sizes] at hregion hblock hmini
  rw [Plan.temporal, h.stepDim, hregion, hblock, hmini]

/-- No level of a plan spans a negative number of steps, and a region spans at least those of a
block. A block spans at least those of a mini-block, and there is a wave front in a block only with
temporal blocking, exactly unless steps are asked for mini-blocks and none for blocks. -/
theorem steps_of_resolve (hs : s.Reachable c) (hp : ((s.resolve c).run v ()).result = .ok p) :
    (0 ≤ p.temporal.miniBlockSteps ∧ 0 ≤ p.temporal.blockSteps ∧
      p.temporal.blockSteps ≤ p.temporal.regionSteps) ∧
    (p.temporal.miniBlockSteps ≤ p.temporal.blockSteps ↔
      ¬ (0 < s.size .miniBlock c.stepDim ∧ s.size .block c.stepDim ≤ 0)) ∧
    ((p.temporal.waveFrontBlock = true → p.temporal.blocksSpanSteps = true) ↔
      ¬ (0 < s.size .miniBlock c.stepDim ∧ s.size .block c.stepDim ≤ 0)) := by
  have h := (yields_resolve.mp (Task.yields_of_result hp)).1
  have hblock : 0 ≤ s.askedSteps c .block := le_max_right _ _
  have hmini : 0 ≤ s.askedSteps c .miniBlock := le_max_right _ _
  have hpos := innerSteps_pos_iff hblock hmini
  have hle := innerSteps_le_iff hblock hmini
  rw [h.temporal_eq hs.shaped]
  refine ⟨⟨innerSteps_nonneg hblock hmini, hblock, le_max_right _ _⟩, ?_, ?_⟩
  · rw [hle, askedSteps, askedSteps]
    omega
  · simp only [Temporal.waveFrontBlock, Temporal.blocksSpanSteps, decide_eq_true_eq, gt_iff_lt,
      hpos]
    rw [askedSteps, askedSteps]
    omega

end Settings

/-- Mini-blocks that ask for more steps than their blocks get as many, and the region follows. -/
theorem steps_of_resolve_nested : ∃ p,
    (((Slabbed.after [("l", "64"), ("rt", "1"), ("bt", "2"), ("mbt", "5")]).resolve
      Slabbed.catalog).run none ()).result = .ok p ∧
      p.temporal.blockSteps ≤ p.temporal.regionSteps ∧
      p.temporal.miniBlockSteps ≤ p.temporal.blockSteps := by
  obtain ⟨p, hp, -⟩ := exists_eq_ok_of_any (p := fun _ => true)
    (x := (((Slabbed.after [("l", "64"), ("rt", "1"), ("bt", "2"), ("mbt", "5")]).resolve
      Slabbed.catalog).run none ()).result) (by decide +kernel)
  obtain ⟨⟨-, -, hregion⟩, hmini, -⟩ :=
    Settings.steps_of_resolve (Slabbed.reachable_after _) hp
  exact ⟨p, hp, hregion, hmini.mpr (by decide +kernel)⟩

/-- Where only mini-blocks ask for steps, they span more of them than the blocks that hold them, and
there is a wave front in a block without temporal blocking. -/
theorem miniBlock_outlasts_block : Slabbed.catalog.Built ∧ ∃ (s : Settings) (p : Plan),
    s.Reachable Slabbed.catalog ∧ ((s.resolve Slabbed.catalog).run none ()).result = .ok p ∧
    p.temporal = { regionSteps := 0, blockSteps := 0, miniBlockSteps := 3 } ∧
    p.temporal.waveFrontBlock = true ∧ p.temporal.blocksSpanSteps = false := by
  obtain ⟨p, hp, hcheck⟩ := exists_eq_ok_of_any
    (x := (((Slabbed.after [("l", "64"), ("mbt", "3")]).resolve Slabbed.catalog).run
      none ()).result)
    (p := fun p => decide
      (p.temporal = { regionSteps := 0, blockSteps := 0, miniBlockSteps := 3 })) (by decide +kernel)
  have htemporal := of_decide_eq_true hcheck
  exact ⟨Slabbed.built, _, p, Slabbed.reachable_after _, hp, htemporal, by rw [htemporal]; rfl,
    by rw [htemporal]; rfl⟩

end StencilPlan
