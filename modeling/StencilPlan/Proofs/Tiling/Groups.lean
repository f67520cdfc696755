import StencilPlan.Proofs.Tiling.Pieces
import StencilPlan.Proofs.Tiling.Settled

/-!
# Groups of tiles

A group gathers tiles for the order in which they are traversed, so it has to be made of whole
ones. What is asked for it is rounded up to the tiles as they were resolved, and it is not cut down
to the tile that holds it: the last group may be clipped, and the only one may be larger than all
there is to group. Its tiles are clipped at the same place then, so that the tiles inside the
groups are still those that the tile around them is cut into.
-/

namespace StencilPlan

/-- The report on a level. The local domain is cut from nothing. -/
def TileCounts.report? (n : TileCounts) : Level → Option CutReport
  | .localDomain => none
  | .region => some n.regions
  | .block => some n.blocks
  | .miniBlock => some n.miniBlocks
  | .subBlock => some n.subBlocks
  | .blockGroup => some n.blockGroups
  | .miniBlockGroup => some n.miniBlockGroups
  | .subBlockGroup => some n.subBlockGroups

/-- How groups of a size lie over tiles of a size in one dimension of a parent. The groups were
asked for with the size `asked`, and the reports on both are `groups` and `tiles`. -/
structure GroupsTiles (parent group tile asked : Int) (groups tiles : DimCut) : Prop where
  pos : 0 < group
  whole : tile ∣ group
  groups_eq : groups.pieces = (pieceExtents group parent).length
  tiles_eq : tiles.pieces = (pieceExtents tile parent).length
  /-- No tile lies in two groups: those of one group after the other are all that there are. -/
  apart : (pieceExtents group parent).flatMap (pieceExtents tile) = pieceExtents tile parent
  /-- The tiles are those of each group, the clipped one included. -/
  sum : (pieceExtents tile parent).length =
    ((pieceExtents group parent).map fun n => (pieceExtents tile n).length).sum
  le : groups.pieces ≤ tiles.pieces
  /-- Where nothing is asked for, each tile is a group of its own. -/
  unset : asked = 0 → group = tile ∧ groups.pieces = tiles.pieces

theorem groupsTiles_of_dvd {parent group tile asked : Int} {groups tiles : DimCut}
    (htile : 0 < tile) (hgroup : 0 < group) (hdvd : tile ∣ group)
    (hgroups : groups.pieces = (pieceExtents group parent).length)
    (htiles : tiles.pieces = (pieceExtents tile parent).length)
    (hunset : asked = 0 → group = tile) :
    GroupsTiles parent group tile asked groups tiles := by
  -- Cutting the groups into tiles gives the tiles of the parent, as a group is whole tiles.
  have hflat : (pieceExtents group parent).flatMap (pieceExtents tile) = pieceExtents tile parent :=
    flatMap_pieceExtents htile hgroup hdvd
  constructor
  case pos => exact hgroup
  case whole => exact hdvd
  case groups_eq => exact hgroups
  case tiles_eq => exact htiles
  case apart => exact hflat
  case sum => rw [← List.length_flatMap, hflat]
  case le =>
    rw [hgroups, htiles]
    exact Int.ofNat_le.mpr (length_pieceExtents_le htile hgroup hdvd)
  case unset =>
    intro h
    constructor
    · exact hunset h
    · rw [hgroups, htiles, hunset h]

namespace Settings

variable {c : Catalog} {v : Verbosity} {s : Settings} {p : Plan} {parent child group tile : Level}

/-- A level that is cut inside another one is counted by its report. -/
theorem counts_of_cuts {asked mults : DimVec} {report : CutReport} (hc : c.WellFormed)
    (hasked : asked.names = c.stencil.names) (hw : Whole c p.sizes parent)
    (h : p.Cuts c parent child asked mults report) :
    report.Counts c.domain.names (p.sizes.sizes parent) (p.sizes.sizes child) := by
  have hfilter : c.stencil.names.filter (· ≠ c.stepDim) = c.domain.names := by
    rw [hc.stencil, List.filter_cons_of_neg (by simp), List.filter_eq_self.mpr]
    intro dim hdim
    simpa using hc.ne_step hdim
  rw [← hfilter, ← hasked]
  apply counts_of_cutInto _ _ h
  · rw [hasked]
    exact nodup_stencil hc
  · intro dim hdim hne
    exact (hw dim (mem_domain_of_mem_stencil hc (hasked ▸ hdim) hne)).1

theorem Resolves.counts_tiled {asked : DimVec} {report : CutReport} (h : Resolves c s p)
    (hc : c.WellFormed) (hs : s.Shaped c) (hparent : parent ∈ Level.nested)
    (hasked : asked.names = c.stencil.names) (hcut : p.Tiled c parent child asked report) :
    report.Counts c.domain.names (p.sizes.sizes parent) (p.sizes.sizes child) :=
  counts_of_cuts hc ((DimVec.names_map _ _).trans hasked) (h.whole hc hs hparent) hcut

/-- The report on a level of tiles counts them inside the level around it. -/
theorem Resolves.counts (h : Resolves c s p) (hc : c.WellFormed) (hs : s.Shaped c) :
    p.counts.regions.Counts c.domain.names p.sizes.localDomain p.sizes.region ∧
      p.counts.blocks.Counts c.domain.names p.sizes.region p.sizes.block ∧
      p.counts.miniBlocks.Counts c.domain.names p.sizes.block p.sizes.miniBlock ∧
      p.counts.subBlocks.Counts c.domain.names p.sizes.miniBlock p.sizes.subBlock := by
  have hnames : ∀ l ≠ Level.localDomain, ((s.stepped c.stepDim).sizes l).names = c.stencil.names :=
    fun l hl => (stepped_fits hs hl).names
  obtain ⟨asked, dim, hslabs, hsub, -⟩ := h.subBlock
  constructor
  · exact h.counts_tiled hc hs (by decide) (hnames .region (by decide)) h.region
  constructor
  · exact h.counts_tiled hc hs (by decide) (hnames .block (by decide)) h.block
  constructor
  · exact h.counts_tiled hc hs (by decide) (hnames .miniBlock (by decide)) h.miniBlock
  · exact h.counts_tiled hc hs (by decide) (hslabs.names.trans (hs.named .subBlock (by decide)))
      hsub

/-- Each group was cut from whole tiles, and these were counted before. -/
theorem Resolves.grouped (h : Resolves c s p) (hc : c.WellFormed) (hs : s.Shaped c)
    (hmem : (parent, group, tile) ∈ groupings) :
    ∃ groups tiles, p.counts.report? group = some groups ∧ p.counts.report? tile = some tiles ∧
      p.Grouped c parent group tile (s.sizes group) groups ∧
      tiles.Counts c.domain.names (p.sizes.sizes parent) (p.sizes.sizes tile) := by
  obtain ⟨-, hblocks, hminiBlocks, hsubBlocks⟩ := h.counts hc hs
  simp only [groupings, List.mem_cons, List.not_mem_nil, or_false, Prod.mk.injEq] at hmem
  rcases hmem with ⟨rfl, rfl, rfl⟩ | ⟨rfl, rfl, rfl⟩ | ⟨rfl, rfl, rfl⟩
  · exact ⟨_, _, rfl, rfl, h.blockGroup, hblocks⟩
  · exact ⟨_, _, rfl, rfl, h.miniBlockGroup, hminiBlocks⟩
  · exact ⟨_, _, rfl, rfl, h.subBlockGroup, hsubBlocks⟩

/-- A group is whole tiles, and where nothing is asked for it is one tile. -/
theorem size_of_grouped {report : CutReport} (hc : c.WellFormed)
    (hasked : (s.sizes group).names = c.stencil.names)
    (htile : (p.sizes.sizes tile).names = c.stencil.names)
    (hpos : ∀ dim ∈ c.domain.names, 0 < p.sizes.size tile dim)
    (h : p.Grouped c parent group tile (s.sizes group) report)
    {dim : String} (hdim : dim ∈ c.domain.names) :
    p.sizes.size tile dim ∣ p.sizes.size group dim ∧
      (s.size group dim = 0 → p.sizes.size group dim = p.sizes.size tile dim) := by
  have hsize : p.sizes.size group dim = _ := getD_of_grouped hc hasked htile hpos h hdim
  rw [hsize]
  constructor
  · exact dvd_multipleAbove _ _
  · intro hzero
    have hone : (groupAsked c.stepDim (s.sizes group)).getD dim 0 = 1 := by
      rw [groupAsked, DimVec.getD_map (hasked ▸ hc.mem_stencil hdim)]
      exact if_pos ⟨hc.ne_step hdim, hzero⟩
    rw [hone, if_neg (by omega)]
    -- the least multiple that holds one point is the tile itself
    have hle := le_multipleAbove (n := 1) (hpos dim hdim)
    apply le_antisymm
    · exact multipleAbove_le (hpos dim hdim) (Int.dvd_refl _) (hpos dim hdim)
    · exact Int.le_of_dvd (Int.lt_of_lt_of_le Int.one_pos hle) (dvd_multipleAbove _ _)

/-- Groups are whole tiles in every dimension, however the groups are asked for. -/
theorem groups_whole_tiles (hc : c.Built) (hs : s.Reachable c)
    (hp : ((s.resolve c).run v ()).result = .ok p)
    (hmem : (parent, group, tile) ∈ groupings) :
    ∃ groups tiles, p.counts.report? group = some groups ∧ p.counts.report? tile = some tiles ∧
      groups.total ≤ tiles.total ∧
      ∀ dim ∈ c.domain.names, ∃ g t, groups.dim? dim = some g ∧ tiles.dim? dim = some t ∧
        GroupsTiles (p.sizes.size parent dim) (p.sizes.size group dim) (p.sizes.size tile dim)
          (s.size group dim) g t := by
  have hw := hc.wellFormed
  have h := (resolve_eq_ok hw hs.shaped).mp hp
  obtain ⟨hparent, htile, hne, hne', -⟩ := of_mem_groupings hmem
  obtain ⟨groups, tiles, hgroups, htiles, hcut, htilesCount⟩ := h.grouped hw hs.shaped hmem
  have hasked := hs.shaped.named group hne'
  have hnames := (h.fits hw hs.shaped hne).names
  have hpos : ∀ dim ∈ c.domain.names, 0 < p.sizes.size tile dim := fun dim hdim =>
    (h.whole hw hs.shaped htile dim hdim).1
  have hgroupsCount : groups.Counts c.domain.names (p.sizes.sizes parent) (p.sizes.sizes group) :=
    counts_of_cuts hw ((DimVec.names_map _ _).trans hasked) (h.whole hw hs.shaped hparent) hcut
  have hgroupPos : ∀ dim ∈ c.domain.names, 0 < p.sizes.size group dim := fun dim hdim =>
    pos_of_grouped hw hasked hnames (fun d hd => (h.whole hw hs.shaped hparent d hd).1) hpos hcut
      hdim
  refine ⟨groups, tiles, hgroups, htiles, ?_, fun dim hdim => ?_⟩
  · -- In every dimension there are at most as many groups as tiles, and so there are in all.
    rw [hgroupsCount.total_eq, htilesCount.total_eq, length_boxTiles_map, length_boxTiles_map]
    apply Int.ofNat_le.mpr
    apply List.prod_le_prod'
    intro dim hdim
    exact length_pieceExtents_le (hpos dim hdim) (hgroupPos dim hdim)
      (size_of_grouped hw hasked hnames hpos hcut hdim).1
  · obtain ⟨g, hg, hgpieces⟩ := hgroupsCount.exists_dim? hdim
    obtain ⟨t, ht, htpieces⟩ := htilesCount.exists_dim? hdim
    obtain ⟨hdvd, hunset⟩ := size_of_grouped hw hasked hnames hpos hcut hdim
    exact ⟨g, t, hg, ht,
      groupsTiles_of_dvd (hpos dim hdim) (hgroupPos dim hdim) hdvd hgpieces htpieces hunset⟩

end Settings

namespace Gathered

/-- Blocks of 32 points in a region of 128 by 160 points. The groups of blocks end inside a block
in one dimension, reach over the region in another and are not asked for in the third one. -/
def options : List (String × String) :=
  [("l", "128"), ("ly", "160"), ("bgy", "40"), ("bgx", "500")]

end Gathered

/-- Groups of 64 points, the last one clipped to a block. -/
theorem groups_whole_tiles_clipped : ∃ p groups tiles g t,
    (((Slabbed.after Gathered.options).resolve Slabbed.catalog).run none ()).result = .ok p ∧
      p.counts.report? .blockGroup = some groups ∧ p.counts.report? .block = some tiles ∧
      groups.dim? "y" = some g ∧ tiles.dim? "y" = some t ∧
      p.sizes.size .blockGroup "x" = 512 ∧ p.sizes.size .blockGroup "z" = 32 ∧
      GroupsTiles 160 64 32 40 g t := by
  obtain ⟨p, hp, hcheck⟩ := exists_eq_ok_of_any
    (x := (((Slabbed.after Gathered.options).resolve Slabbed.catalog).run none ()).result)
    (p := fun p => decide (p.sizes.size .region "y" = 160) &&
      decide (p.sizes.size .blockGroup "y" = 64) && decide (p.sizes.size .block "y" = 32) &&
      decide (p.sizes.size .blockGroup "x" = 512) && decide (p.sizes.size .blockGroup "z" = 32))
    (by decide +kernel)
  simp only [Bool.and_eq_true, decide_eq_true_eq] at hcheck
  obtain ⟨⟨⟨⟨hregion, hgroup⟩, hblock⟩, hx⟩, hz⟩ := hcheck
  obtain ⟨groups, tiles, hgroups, htiles, -, hdims⟩ :=
    Settings.groups_whole_tiles Slabbed.built (Slabbed.reachable_after _) hp
      (show (Level.region, Level.blockGroup, Level.block) ∈ Settings.groupings by decide)
  obtain ⟨g, t, hg, ht, hover⟩ := hdims "y" (by decide +kernel)
  -- The 40 points that are asked for are rounded up to two tiles of 32.
  have hasked : (Slabbed.after Gathered.options).size .blockGroup "y" = 40 := by decide +kernel
  rw [hregion, hgroup, hblock, hasked] at hover
  exact ⟨p, groups, tiles, g, t, hp, hgroups, htiles, hg, ht, hx, hz, hover⟩

end StencilPlan
