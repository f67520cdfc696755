import StencilPlan.Proofs.Tiling.Resolution
import StencilPlan.Proofs.Tiling.Subsets

/-!
# What a resolution does

A resolution goes through a chain of levels, and what it does to each of them is one cut: a request
is adapted to the level around it and then rounded up to whole clusters, or to whole tiles for a
group. `Settings.Resolves` holds the chain as it stands at the end, with every level of the plan
as the cut of a request inside another level of the plan. That is all there is to a resolution
(`Settings.resolve_eq_ok`), so nothing that follows has to look into it again.
-/

namespace StencilPlan

variable {c : Catalog} {v : Verbosity}

/-! ### Requests -/

/-- The requests of a level, cut down to the level around it. -/
def clamped (parent : DimVec) (stepDim : String) (asked : DimVec) : DimVec :=
  asked.map (clampedEntry parent stepDim)

/-- The requests of a group: where nothing is asked for, it is one tile. -/
def groupAsked (stepDim : String) (asked : DimVec) : DimVec :=
  asked.map fun dim n => if dim ≠ stepDim ∧ n = 0 then 1 else n

theorem getD_step_clamped (parent asked : DimVec) (stepDim : String) (w : Int) :
    (clamped parent stepDim asked).getD stepDim w = asked.getD stepDim w := by
  rw [DimVec.getD, clamped, DimVec.get?_map, DimVec.getD]
  cases asked.get? stepDim with
  | none => rfl
  | some n => simp [clampedEntry]

theorem yields_clampEntries {parent : DimVec} {level : Level} {stepDim : String}
    {es r : List (String × Int)} {t u : Unit} :
    (clampEntries parent level stepDim es).Yields v t r u ↔
      r = es.map fun e => (e.1, clampedEntry parent stepDim e.1 e.2) := by
  induction es generalizing r with
  | nil => simp [clampEntries]
  | cons e es ih =>
    obtain ⟨dim, n⟩ := e
    -- cut down or not, the entry is followed by the others
    have hrest : ∀ size, (pure size >>= fun size => clampEntries parent level stepDim es >>=
        fun rest => pure ((dim, size) :: rest) : Task Unit _).Yields v t r u ↔
          r = (dim, size) :: es.map fun e => (e.1, clampedEntry parent stepDim e.1 e.2) := by
      intro size
      simp [Task.yields_bind, ih]
    rw [clampEntries]
    dsimp only
    split
    · next hbig =>
      rw [Task.yields_bind_note, hrest, List.map_cons, clampedEntry, if_pos hbig]
    · next hsmall =>
      rw [hrest, List.map_cons, clampedEntry, if_neg hsmall]

/-! ### One level of a plan -/

namespace Plan

variable (c) (p : Plan)

/-- A level of the plan was cut inside another one of its levels, in multiples of `mults`. -/
def Cuts (parent child : Level) (asked mults : DimVec) (report : CutReport) : Prop :=
  cutInto (p.sizes.sizes parent) parent.name asked child.name mults c.stepDim =
    .ok (p.sizes.sizes child, report)

/-- A level of tiles: the request is cut down to the tile around it and comes in whole clusters. -/
def Tiled (parent child : Level) (asked : DimVec) (report : CutReport) : Prop :=
  p.Cuts c parent child (clamped (p.sizes.sizes parent) c.stepDim asked) c.cluster report

/-- A level of groups: the request comes in whole tiles. -/
def Grouped (parent group tile : Level) (asked : DimVec) (report : CutReport) : Prop :=
  p.Cuts c parent group (groupAsked c.stepDim asked) (p.sizes.sizes tile) report

end Plan

namespace Settings

variable {s s' : Settings}

theorem yields_cutLevel {parent child : Level} {mults : DimVec} {stepDim : String}
    {r : Settings × CutReport} {t u : Unit} :
    (s.cutLevel parent child mults stepDim).Yields v t r u ↔ ∃ t report,
      cutInto (s.sizes parent) parent.name (clamped (s.sizes parent) stepDim (s.sizes child))
        child.name mults stepDim = .ok (t, report) ∧ r = (s.withSizes child t, report) := by
  simp [cutLevel, Task.yields_bind, yields_clampEntries, yields_cutTiles, clamped, DimVec.map]

theorem yields_cutGroup {parent group tile : Level} {stepDim : String}
    {r : Settings × CutReport} {t u : Unit} :
    (s.cutGroup parent group tile stepDim).Yields v t r u ↔ ∃ t report,
      cutInto (s.sizes parent) parent.name (groupAsked stepDim (s.sizes group)) group.name
        (s.sizes tile) stepDim = .ok (t, report) ∧ r = (s.withSizes group t, report) := by
  simp [cutGroup, Task.yields_bind, yields_cutTiles, groupAsked]

/-! ### Steps and slabs -/

/-- The settings with steps that nest as far as they are made to. -/
def stepped (s : Settings) (stepDim : String) : Settings :=
  let asked (t : DimVec) : Int := max (t.getD stepDim 0) 0
  let b := asked s.block
  let mb := asked s.miniBlock
  { s with
    region := s.region.set stepDim (max (asked s.region) b)
    block := s.block.set stepDim b
    miniBlock := s.miniBlock.set stepDim (if mb = 0 ∨ (b > 0 ∧ mb > b) then b else mb) }

theorem yields_resolveSteps {stepDim : String} {u : Unit} :
    (s.resolveSteps stepDim).Yields v () s' u ↔ s' = s.stepped stepDim := by
  -- a region that asks for no steps, or for fewer than its blocks, gets those of the blocks
  have hregion : ∀ r b : Int, 0 ≤ r → 0 ≤ b →
      max r b = if (if r = 0 then b else r) < b then b else if r = 0 then b else r := by
    intro r b hr hb
    split <;> split at * <;> omega
  simp only [resolveSteps, Task.yields_ite, Task.yields_bind_note, Task.yields_bind_pure,
    Task.yields_pure, and_true, stepped]
  rw [hregion _ _ (le_max_right _ _) (le_max_right _ _)]
  generalize max (s.region.getD stepDim 0) 0 = r
  by_cases hb : (if r = 0 then max (s.block.getD stepDim 0) 0 else r) <
      max (s.block.getD stepDim 0) 0
  · rw [if_pos hb, if_pos hb]
  · rw [if_neg hb, if_neg hb]

/-- What sub-blocks are asked for in the end, and the dimension they are cut along. Only where
several threads share a block and no size is given they are made slabs. -/
inductive Slabs (c : Catalog) (block asked : DimVec) (threads : Int) : DimVec → String → Prop
  | single (h : threads ≤ 1) : Slabs c block asked threads asked c.outerDim
  | given {total : Int} (h : 1 < threads) (hsum : asked.sum = .ok total) (hne : total ≠ 0) :
      Slabs c block asked threads asked c.outerDim
  | slab {dim : String} {size : Int} (h : 1 < threads) (hsum : asked.sum = .ok 0)
      (hdim : dimByClusters c block threads = .ok dim)
      (hsize : slabSize c block dim threads = .ok size) :
      Slabs c block asked threads (asked.set dim size) dim

theorem slabSubBlocks_eq_ok {threads : Int} {r : Settings × String} :
    s.slabSubBlocks c threads = .ok r ↔ ∃ t dim, Slabs c s.block s.subBlock threads t dim ∧
      r = ({ s with subBlock := t }, dim) := by
  unfold slabSubBlocks
  constructor
  · intro h
    split at h
    · next hthreads =>
      simp only [bind_eq_ok] at h
      obtain ⟨total, hsum, h⟩ := h
      split at h
      · next hzero =>
        simp only [bind_eq_ok, pure_eq_ok] at h
        obtain ⟨dim, hdim, size, hsize, rfl⟩ := h
        exact ⟨_, dim, .slab hthreads (hzero ▸ hsum) hdim hsize, rfl⟩
      · next hne =>
        rw [pure_eq_ok] at h
        exact ⟨_, _, .given hthreads hsum hne, h⟩
    · next hthreads =>
      rw [pure_eq_ok] at h
      exact ⟨_, _, .single (by omega), h⟩
  · rintro ⟨t, dim, hslabs, rfl⟩
    cases hslabs with
    | single h =>
      rw [if_neg (by omega)]
      rfl
    | given h hsum hne =>
      simp [h, hsum, hne, bind, Except.bind, pure, Except.pure]
    | slab h hsum hdim hsize =>
      simp [h, hsum, hdim, hsize, bind, Except.bind, pure, Except.pure]

/-- The dimension that threads split along, if `dim` is the one from before the sub-blocks were
cut: with binding it is looked for once more. -/
def SplitAs (c : Catalog) (s : Settings) (p : Plan) (dim : String) : Prop :=
  if s.bindBlockThreads ∧ s.threadsPerBlock > 1 then
    dimBySubBlocks c p.sizes.block p.sizes.subBlock s.threadsPerBlock dim = .ok p.splitDim
  else p.splitDim = dim

/-! ### The whole chain -/

/-- The plan is what the settings resolve to: each of its levels is cut from what was asked for,
inside the level of the plan around it, and everything else is that of the settings. -/
structure Resolves (c : Catalog) (s : Settings) (p : Plan) : Prop where
  checked : checkLocalDomain c.cluster s.localDomain.entries = .ok ()
  rest : SameButTiles s p.sizes
  region : p.Tiled c .localDomain .region (s.stepped c.stepDim).region p.counts.regions
  block : p.Tiled c .region .block (s.stepped c.stepDim).block p.counts.blocks
  miniBlock : p.Tiled c .block .miniBlock (s.stepped c.stepDim).miniBlock p.counts.miniBlocks
  subBlock : ∃ asked dim, Slabs c p.sizes.block s.subBlock s.threadsPerBlock asked dim ∧
    p.Tiled c .miniBlock .subBlock asked p.counts.subBlocks ∧ SplitAs c s p dim
  blockGroup : p.Grouped c .region .blockGroup .block s.blockGroup p.counts.blockGroups
  miniBlockGroup : p.Grouped c .block .miniBlockGroup .miniBlock s.miniBlockGroup
    p.counts.miniBlockGroups
  subBlockGroup : p.Grouped c .miniBlock .subBlockGroup .subBlock s.subBlockGroup
    p.counts.subBlockGroups
  stepDim : p.stepDim = c.stepDim
  cluster : p.cluster = c.cluster

/-- Something is found where a condition holds, and is known where it does not. -/
theorem ite_exists_iff {α : Type} {p : Prop} [Decidable p] {Q R : α → Prop} {a : α} :
    (if p then ∃ b, Q b ∧ R b else R a) ↔ ∃ b, (if p then Q b else b = a) ∧ R b := by
  split <;> simp

/-- A resolution that goes through is just that, and its plan is valid. -/
theorem yields_resolve {p : Plan} {u : Unit} :
    (s.resolve c).Yields v () p u ↔ Resolves c s p ∧ p.validate = .ok () := by
  simp only [resolve, Task.yields_bind (x := resolveSteps _ _),
    Task.yields_bind (x := cutLevel _ _ _ _ _), Task.yields_bind (x := cutGroup _ _ _ _ _),
    Task.yields_bind_outcome, Task.yields_bind_note, Task.yields_bind_checked,
    Task.yields_ite, Task.yields_bind_pure, Task.yields_pure, yields_resolveSteps, yields_cutLevel,
    yields_cutGroup, slabSubBlocks_eq_ok, ite_exists_iff]
  constructor
  · rintro ⟨_, hchecked, _, _, rfl, _, _, ⟨_, _, hregion, rfl⟩, _, _, ⟨_, _, hblock, rfl⟩, _, _,
      ⟨_, _, hmini, rfl⟩, _, ⟨asked, dim, hslabs, rfl⟩, _, _, ⟨_, _, hsub, rfl⟩, _, hsplit, h⟩
    -- the settings have been written five times by now: what was read of them is read off first
    dsimp only [withSizes, sizes] at *
    obtain ⟨_, _, ⟨_, _, hgroup, rfl⟩, _, _, ⟨_, _, hmgroup, rfl⟩, _, _, ⟨_, _, hsgroup, rfl⟩, _,
      hvalid, rfl, -⟩ := h
    dsimp only [withSizes, sizes] at *
    refine ⟨?_, hvalid⟩
    constructor
    case checked => exact hchecked
    case rest => rfl
    case region => exact hregion
    case block => exact hblock
    case miniBlock => exact hmini
    case subBlock => exact ⟨asked, dim, hslabs, hsub, hsplit⟩
    case blockGroup => exact hgroup
    case miniBlockGroup => exact hmgroup
    case subBlockGroup => exact hsgroup
    case stepDim => rfl
    case cluster => rfl
  · rintro ⟨h, hvalid⟩
    -- A plan is taken apart so that its parts can be put in at the places where they are computed.
    obtain ⟨t, ht⟩ : ∃ t, p.sizes = s.withTilesOf t := ⟨p.sizes, Eq.symm h.rest⟩
    obtain ⟨sizes, counts, splitDim, stepDim, cluster⟩ := p
    obtain rfl : stepDim = c.stepDim := h.stepDim
    obtain rfl : cluster = c.cluster := h.cluster
    obtain rfl : sizes = s.withTilesOf t := ht
    obtain ⟨asked, dim, hslabs, hsub, hsplit⟩ := h.subBlock
    refine ⟨(), h.checked, _, (), rfl, _, (), ⟨_, _, h.region, rfl⟩, _, (), ⟨_, _, h.block, rfl⟩,
      _, (), ⟨_, _, h.miniBlock, rfl⟩, _, ⟨asked, dim, hslabs, rfl⟩, _, (), ⟨_, _, hsub, rfl⟩, _,
      hsplit, ?_⟩
    dsimp only [withSizes, sizes]
    refine ⟨_, (), ⟨_, _, h.blockGroup, rfl⟩, _, (), ⟨_, _, h.miniBlockGroup, rfl⟩, _, (),
      ⟨_, _, h.subBlockGroup, rfl⟩, ?_⟩
    dsimp only [withSizes, sizes]
    exact ⟨(), hvalid, rfl, trivial⟩

/-! ### The levels of a plan -/

/-- The dimensions of a stencil, and values that fit into 64 bits. -/
structure Fits (c : Catalog) (t : DimVec) : Prop where
  names : t.names = c.stencil.names
  inRange : ∀ n ∈ t.values, Idx.InRange n

theorem Shaped.fits (hs : s.Shaped c) {l : Level} (hl : l ≠ .localDomain) : Fits c (s.sizes l) :=
  ⟨hs.named l hl, hs.inRange (.level l)⟩

section Requests

variable {t parent : DimVec} {dim : String}

theorem inRange_getD (h : ∀ n ∈ t.values, Idx.InRange n) (dim : String) :
    Idx.InRange (t.getD dim 0) := by
  by_cases hmem : dim ∈ t.names
  · exact h _ (DimVec.getD_mem_values hmem)
  · rw [DimVec.getD_eq_of_notMem hmem]
    decide

theorem Fits.set (ht : Fits c t) {n : Int} (hn : Idx.InRange n) : Fits c (t.set dim n) := by
  refine ⟨(DimVec.names_set _ _ _).trans ht.names, fun m hm => ?_⟩
  rcases DimVec.mem_values_set hm with rfl | hm
  · exact hn
  · exact ht.inRange m hm

theorem Fits.map (ht : Fits c t) {f : String → Int → Int}
    (hf : ∀ dim n, Idx.InRange n → Idx.InRange (f dim n)) : Fits c (t.map f) := by
  refine ⟨(DimVec.names_map _ _).trans ht.names, fun m hm => ?_⟩
  rw [DimVec.values_map] at hm
  obtain ⟨e, he, rfl⟩ := List.mem_map.mp hm
  exact hf _ _ (ht.inRange _ (List.mem_map_of_mem he))

theorem Fits.clamped (ht : Fits c t) (hparent : ∀ n ∈ parent.values, Idx.InRange n) :
    Fits c (clamped parent c.stepDim t) := by
  refine ht.map fun dim n hn => ?_
  unfold clampedEntry
  split
  · exact inRange_getD hparent dim
  · exact hn

theorem Fits.groupAsked (ht : Fits c t) : Fits c (groupAsked c.stepDim t) := by
  refine ht.map fun dim n hn => ?_
  split
  · decide
  · exact hn

theorem Fits.cutInto (ht : Fits c t) (hparent : ∀ n ∈ parent.values, Idx.InRange n)
    {mults : DimVec} {label label' : String} {r : DimVec × CutReport}
    (h : cutInto parent label t label' mults c.stepDim = .ok r) : Fits c r.1 :=
  ⟨(names_cutInto h).trans ht.names, inRange_cutInto hparent ht.inRange h⟩

end Requests

theorem stepped_fits (hs : s.Shaped c) {l : Level} (hl : l ≠ .localDomain) :
    Fits c ((s.stepped c.stepDim).sizes l) := by
  have hasked : ∀ m, Idx.InRange (max ((s.sizes m).getD c.stepDim 0) 0) := fun m => by
    have h := inRange_getD (hs.inRange (.level m)) c.stepDim
    simp only [target, Idx.InRange, Idx.min, Idx.max] at h ⊢
    omega
  have hregion := hasked .region
  have hblock := hasked .block
  have hmini := hasked .miniBlock
  simp only [sizes] at hregion hblock hmini
  -- Steps are set in three levels, to what was asked there or at a level inside.
  cases l
  case localDomain => exact absurd rfl hl
  case region =>
    refine (hs.fits (l := .region) (by decide)).set ?_
    simp only [Idx.InRange] at hregion hblock ⊢
    omega
  case block => exact (hs.fits (l := .block) (by decide)).set hblock
  case miniBlock =>
    refine (hs.fits (l := .miniBlock) (by decide)).set ?_
    split
    · exact hblock
    · exact hmini
  all_goals exact hs.fits hl

theorem Slabs.fits {block asked t : DimVec} {threads : Int} {dim : String}
    (h : Slabs c block asked threads t dim) (hc : c.WellFormed) (ht : Fits c asked) : Fits c t := by
  cases h with
  | single => exact ht
  | given => exact ht
  | @slab size _ _ _ _ hsize =>
    refine ht.set ?_
    unfold slabSize at hsize
    dsimp only at hsize
    -- A slab is a cluster thick, or a share of the block that was rounded up in range.
    split at hsize
    · rw [pure_eq_ok] at hsize
      rw [hsize]
      by_cases hmem : dim ∈ c.domain.names
      · obtain ⟨hpos, hle⟩ := hc.cluster_getD hmem 1
        simp only [Idx.InRange, Idx.min] at hle ⊢
        omega
      · rw [DimVec.getD_eq_of_notMem (by rwa [hc.cluster.names])]
        decide
    · rw [bind_eq_ok] at hsize
      obtain ⟨share, hshare, hsize⟩ := hsize
      exact inRange_roundUp ((Idx.div_eq_ok_iff.mp hshare).2.2 ▸ (Idx.div_eq_ok_iff.mp hshare).2.1)
        hsize

namespace Resolves

variable {p : Plan}

theorem localDomain_eq (h : Resolves c s p) : p.sizes.localDomain = s.localDomain :=
  h.rest.proj (f := Settings.localDomain) fun _ _ => rfl

theorem fits (h : Resolves c s p) (hc : c.WellFormed) (hs : s.Shaped c) {l : Level}
    (hl : l ≠ .localDomain) : Fits c (p.sizes.sizes l) := by
  -- each level fits because the one around it does
  have hlocal : ∀ n ∈ p.sizes.localDomain.values, Idx.InRange n := by
    rw [h.localDomain_eq]
    exact hs.inRange (.level .localDomain)
  have hregion : Fits c p.sizes.region :=
    ((stepped_fits hs (l := .region) (by decide)).clamped hlocal).cutInto hlocal h.region
  have hblock : Fits c p.sizes.block :=
    ((stepped_fits hs (l := .block) (by decide)).clamped hregion.inRange).cutInto hregion.inRange
      h.block
  have hmini : Fits c p.sizes.miniBlock :=
    ((stepped_fits hs (l := .miniBlock) (by decide)).clamped hblock.inRange).cutInto hblock.inRange
      h.miniBlock
  obtain ⟨asked, dim, hslabs, hsub, -⟩ := h.subBlock
  cases l with
  | localDomain => exact absurd rfl hl
  | region => exact hregion
  | block => exact hblock
  | miniBlock => exact hmini
  | subBlock =>
    have hasked := hslabs.fits hc (hs.fits (l := .subBlock) (by decide))
    exact (hasked.clamped hmini.inRange).cutInto hmini.inRange hsub
  | blockGroup =>
    exact (hs.fits (l := .blockGroup) (by decide)).groupAsked.cutInto hregion.inRange h.blockGroup
  | miniBlockGroup =>
    exact (hs.fits (l := .miniBlockGroup) (by decide)).groupAsked.cutInto hblock.inRange
      h.miniBlockGroup
  | subBlockGroup =>
    exact (hs.fits (l := .subBlockGroup) (by decide)).groupAsked.cutInto hmini.inRange
      h.subBlockGroup

/-- Resolved settings can be resolved again: their vectors have the dimensions they had. -/
theorem shaped (h : Resolves c s p) (hc : c.WellFormed) (hs : s.Shaped c) : p.sizes.Shaped c := by
  -- a target is one of the tiles, or the resolution leaves it as it is
  have htarget : ∀ t, (∃ l ≠ Level.localDomain, t = .level l ∧ targetNames c t = c.stencil.names) ∨
      p.sizes.target t = s.target t := by
    intro t
    have hrest := h.rest.proj (f := fun s => s.target t)
    cases t with
    | level l =>
      cases l with
      | localDomain => exact .inr (hrest fun _ _ => rfl)
      | _ => exact .inl ⟨_, by decide, rfl, rfl⟩
    | _ => exact .inr (hrest fun _ _ => rfl)
  constructor
  · intro t
    rcases htarget t with ⟨l, hl, rfl, hnames⟩ | heq
    · exact (h.fits hc hs hl).names.trans hnames.symm
    · rw [heq, hs.names]
  · intro t
    rcases htarget t with ⟨l, hl, rfl, -⟩ | heq
    · exact (h.fits hc hs hl).inRange
    · rw [heq]
      exact hs.inRange t

end Resolves

end Settings

end StencilPlan
