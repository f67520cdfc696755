import StencilPlan.Proofs.Tiling.Settled

/-!
# Where a resolution overflows

In a local domain of at most 2 ^ 61 points most requests are harmless, whatever they are: a level
of tiles is cut down to the level around it before anything is computed with it. Two kinds of
requests are used as they come. The requests for sub-blocks are added up if several threads share a
block, and those for groups are rounded up and added to the level around the group without being
cut down. A resolution overflows there and nowhere else.
-/

namespace StencilPlan

/-- What a request for a group comes to. -/
def groupExtent (parent tile asked : Int) : Int :=
  multipleAbove (if asked = 0 then 1 else if asked < 0 then parent else asked) tile

/-- Moderate requests come to moderate groups. -/
theorem groupExtent_lt {parent tile asked bound : Int} (htile : 0 < tile) (hle : tile ≤ parent)
    (hparent : parent ≤ bound) (hasked : asked ≤ bound) :
    groupExtent parent tile asked < bound + parent := by
  have hmul := Int.ediv_mul_le
    ((if asked = 0 then 1 else if asked < 0 then parent else asked) + tile - 1) htile.ne'
  unfold groupExtent multipleAbove
  have hbase : (if asked = 0 then 1 else if asked < 0 then parent else asked) ≤ bound := by
    split
    · omega
    · split <;> omega
  omega

/-- The most points that a local domain may have here: 2 ^ 61. -/
def manyPoints : Int := 2305843009213693952

namespace Settings

variable {c : Catalog} {v : Verbosity} {s t : Settings} {p : Plan}

/-! ### One cut -/

/-- The points of a tile. -/
def points (c : Catalog) (t : DimVec) : Int := (c.domain.names.map fun dim => t.getD dim 0).prod

theorem extents_stencil (hc : c.WellFormed) (t : DimVec) :
    extents t c.stepDim c.stencil.names = c.domain.names.map fun dim => t.getD dim 0 := by
  have hfilter : c.domain.names.filter (· ≠ c.stepDim) = c.domain.names := by
    refine List.filter_eq_self.mpr fun dim hdim => decide_eq_true ?_
    exact hc.ne_step hdim
  rw [extents, hc.stencil, List.filter_cons_of_neg (by simp), hfilter]

section

variable {parent asked tile : DimVec} (label label' : String)

/-- Whole clusters with few enough points: no entry is large. -/
theorem Clustered.le_points (h : Clustered c parent) {dim : String} (hdim : dim ∈ c.domain.names) :
    parent.getD dim 0 ≤ points c parent := by
  refine le_prod_of_mem (fun n hn => ?_) (List.mem_map_of_mem hdim)
  obtain ⟨d, hd, rfl⟩ := List.mem_map.mp hn
  exact (h d hd).1

theorem Clustered.points_le (h : Clustered c tile)
    (hle : ∀ dim ∈ c.domain.names, tile.getD dim 0 ≤ parent.getD dim 0) :
    points c tile ≤ points c parent :=
  List.prod_map_le_prod_map₀ _ _ (fun dim hdim => (h dim hdim).1.le) hle

/-- Tiles are cut down to the level around them, so this never overflows. -/
theorem exists_tiled (hc : c.WellFormed) (hp : Clustered c parent)
    (hsmall : points c parent ≤ manyPoints) (hasked : asked.names = c.stencil.names) :
    ∃ r, cutInto parent label (clamped parent c.stepDim asked) label' c.cluster c.stepDim =
      .ok r := by
  have hnames : (clamped parent c.stepDim asked).names = c.stencil.names :=
    (DimVec.names_map _ _).trans hasked
  have hholds : Holds parent c.cluster c.stepDim (clamped parent c.stepDim asked).names := by
    intro dim hdim hne
    have hmem := mem_domain_of_mem_stencil hc (hnames ▸ hdim) hne
    obtain ⟨hpos, hdvd⟩ := hp dim hmem
    exact ⟨(hc.cluster_getD hmem 1).1, Int.le_of_dvd hpos hdvd⟩
  rw [exists_cutInto_iff hholds (hnames ▸ nodup_stencil hc)]
  · -- The sum of the parent and what is cut from it is at most twice the number of its points.
    intro dim hdim hne
    have hmem := mem_domain_of_mem_stencil hc (hnames ▸ hdim) hne
    have hle := hp.le_points hmem
    have hcut := (getD_cut hc hasked hp).2 dim hmem
    rw [DimVec.getD_map (by rw [← clamped]; exact hdim)] at hcut
    have hchild : resolvedSize (parent.getD dim 0) (asked.getD dim 0) (c.cluster.getD dim 1) ≤
        parent.getD dim 0 := resolvedSize_le
    rw [← hcut] at hchild
    simp only [clamped, manyPoints, Idx.max] at hsmall ⊢
    omega
  · rw [hnames, extents_stencil hc]
    simp only [points, manyPoints, Idx.max] at hsmall ⊢
    omega

/-- A request for a group is rounded up to its extent. -/
theorem roundedEntry_groupAsked (hc : c.WellFormed) (htile : tile.names = c.stencil.names)
    (hasked : asked.names = c.stencil.names) {dim : String} (hdim : dim ∈ c.domain.names) :
    roundedEntry parent tile c.stepDim dim ((groupAsked c.stepDim asked).getD dim 0) =
      groupExtent (parent.getD dim 0) (tile.getD dim 0) (asked.getD dim 0) := by
  have hne := hc.ne_step hdim
  have hmem := hc.mem_stencil hdim
  rw [roundedEntry, if_neg hne, groupExtent, tile.getD_eq_getD (htile ▸ hmem) 1 0, groupAsked,
    DimVec.getD_map (hasked ▸ hmem)]
  congr 1
  simp only [hne, ne_eq, not_false_eq_true, true_and]
  by_cases hzero : asked.getD dim 0 = 0
  · rw [if_pos hzero, if_pos hzero, if_neg (by omega)]
  · rw [if_neg hzero, if_neg hzero]
    exact if_congr (by omega) rfl rfl

/-- Groups are not, so this overflows where a group does not fit on top of the level around it. -/
theorem exists_grouped_iff (hc : c.WellFormed) (ht : Clustered c tile)
    (htile : tile.names = c.stencil.names)
    (hle : ∀ dim ∈ c.domain.names, tile.getD dim 0 ≤ parent.getD dim 0)
    (hsmall : points c parent ≤ manyPoints) (hasked : asked.names = c.stencil.names) :
    (∃ r, cutInto parent label (groupAsked c.stepDim asked) label' tile c.stepDim = .ok r) ↔
      ∀ dim ∈ c.domain.names, parent.getD dim 0 +
        groupExtent (parent.getD dim 0) (tile.getD dim 0) (asked.getD dim 0) ≤ Idx.max := by
  have hnames : (groupAsked c.stepDim asked).names = c.stencil.names :=
    (DimVec.names_map _ _).trans hasked
  have hholds : Holds parent tile c.stepDim (groupAsked c.stepDim asked).names := by
    intro dim hdim hne
    have hmem := mem_domain_of_mem_stencil hc (hnames ▸ hdim) hne
    rw [tile.getD_eq_getD (htile ▸ hc.mem_stencil hmem) 1 0]
    exact ⟨(ht dim hmem).1, hle dim hmem⟩
  rw [exists_cutInto_iff hholds (hnames ▸ nodup_stencil hc)]
  · -- The criterion speaks of rounded entries; in the domain dimensions these are the extents.
    constructor
    · intro h dim hdim
      rw [← roundedEntry_groupAsked hc htile hasked hdim]
      exact h dim (hnames ▸ hc.mem_stencil hdim) (hc.ne_step hdim)
    · intro h dim hdim hne
      have hmem := mem_domain_of_mem_stencil hc (hnames ▸ hdim) hne
      rw [roundedEntry_groupAsked hc htile hasked hmem]
      exact h dim hmem
  · rw [hnames, extents_stencil hc]
    simp only [points, manyPoints, Idx.max] at hsmall ⊢
    omega

end

/-! ### Slabs and scans -/

theorem exists_firstOuterDim? (test : DimPlace → Checked Bool) (ds : List DimPlace)
    (h : ∀ d ∈ ds, ∃ b, test d = .ok b) : ∃ r, firstOuterDim? c test ds = .ok r := by
  induction ds with
  | nil => exact ⟨none, rfl⟩
  | cons d ds ih =>
    obtain ⟨⟨b, hb⟩, hds⟩ := List.forall_mem_cons.mp h
    obtain ⟨r, hr⟩ := ih hds
    rw [firstOuterDim?]
    by_cases hne : d.name ≠ c.innerDim
    · rw [if_pos hne]
      simp only [bind_eq_ok]
      cases b with
      | true => exact ⟨some d.name, true, hb, rfl⟩
      | false => exact ⟨r, false, hb, hr⟩
    · rw [if_neg hne]
      exact ⟨r, hr⟩

section

variable {block sub asked : DimVec} {threads : Int}

theorem Clustered.inRange (h : Clustered c block) (hsmall : points c block ≤ manyPoints)
    {dim : String} (hdim : dim ∈ c.domain.names) : Idx.InRange (block.getD dim 0) := by
  have hpos := (h dim hdim).1
  have hle := h.le_points hdim
  simp only [manyPoints] at hsmall
  exact Idx.inRange_of_nonneg hpos.le (by simp only [Idx.max]; omega)

/-- The quotient of a positive number in range never faults. -/
theorem div_of_pos {a b : Int} (ha : 0 ≤ a) (hrange : Idx.InRange a) (hb : 0 < b) :
    Idx.div a b = .ok (a / b) := by
  rw [Idx.div_eq_ok_iff, Int.tdiv_eq_ediv_of_nonneg ha]
  exact ⟨hb.ne', Idx.inRange_ediv hrange hb, rfl⟩

theorem exists_dimByClusters (threads : Int) (hc : c.WellFormed) (hb : Clustered c block)
    (hsmall : points c block ≤ manyPoints) : ∃ dim, dimByClusters c block threads = .ok dim := by
  have hscan := exists_firstOuterDim? (c := c) (fun d : DimPlace => do
      let points ← c.cluster.nth d.domainIndex
      let clusters ← Idx.div (block.getD d.name 0) points
      return decide (clusters ≥ threads)) c.dimPlaces fun d hd => by
    have hmem := mem_domain_of_mem_dimPlaces hd
    obtain ⟨n, hn⟩ := DimVec.exists_value hc.cluster.names (Catalog.mem_dimPlaces.mp hd).1
    have hdiv := div_of_pos (hb _ hmem).1.le (hb.inRange hsmall hmem)
      (hc.cluster.pos n (List.mem_of_getElem? hn))
    simp only [bind_eq_ok, pure_eq_ok]
    exact ⟨_, n, DimVec.nth_eq_ok_iff.mpr hn, _, hdiv, rfl⟩
  obtain ⟨found, hfound⟩ := hscan
  unfold dimByClusters
  simp only [bind_eq_ok, pure_eq_ok]
  exact ⟨_, found, hfound, rfl⟩

theorem exists_slabSize (threads : Int) (hc : c.WellFormed) (hb : Clustered c block)
    (hsmall : points c block ≤ manyPoints) {dim : String} (hdim : dim ∈ c.domain.names) :
    ∃ size, slabSize c block dim threads = .ok size := by
  unfold slabSize
  dsimp only
  split
  · exact ⟨_, rfl⟩
  · obtain ⟨hpos, hdvd⟩ := hb dim hdim
    have hpoints := (hc.cluster_getD hdim 1).1
    have hle := Int.le_of_dvd hpos hdvd
    have hbound := hb.le_points hdim
    have hshare := div_of_pos hpos.le (hb.inRange hsmall hdim)
      (show 0 < max threads 1 from lt_max_of_lt_right one_pos)
    have hless : block.getD dim 0 / max threads 1 ≤ block.getD dim 0 :=
      Int.ediv_le_self _ hpos.le
    -- Rounding up adds less than a cluster, and a cluster is no larger than the block.
    have hround := roundUp_of_add_le (n := block.getD dim 0 / max threads 1)
      (Idx.inRange_ediv (hb.inRange hsmall hdim) (le_max_right _ _)) hpoints (by
        simp only [manyPoints, Idx.max] at hsmall ⊢
        omega)
    simp only [bind_eq_ok]
    exact ⟨_, _, hshare, hround⟩

/-- All that the slabs need is the sum of what is asked for. -/
theorem exists_slabs_iff (asked : DimVec) (hc : c.WellFormed) (hb : Clustered c block)
    (hsmall : points c block ≤ manyPoints) :
    (∃ t dim, Slabs c block asked threads t dim) ↔
      (1 < threads → ∃ total, asked.sum = .ok total) := by
  constructor
  · rintro ⟨t, dim, h⟩ hmany
    cases h with
    | single hfew => omega
    | given _ hsum => exact ⟨_, hsum⟩
    | slab _ hsum => exact ⟨0, hsum⟩
  · intro h
    by_cases hmany : 1 < threads
    · obtain ⟨total, hsum⟩ := h hmany
      by_cases hzero : total = 0
      · subst hzero
        obtain ⟨dim, hdim⟩ := exists_dimByClusters threads hc hb hsmall
        obtain ⟨size, hsize⟩ := exists_slabSize threads hc hb hsmall
          (mem_domain_of_dimByClusters hc hdim)
        exact ⟨_, dim, .slab hmany hsum hdim hsize⟩
      · exact ⟨_, _, .given hmany hsum hzero⟩
    · exact ⟨_, _, .single (by omega)⟩

theorem exists_dimBySubBlocks (hb : Clustered c block) (hsmall : points c block ≤ manyPoints)
    (hsub : Clustered c sub) (hle : ∀ dim ∈ c.domain.names, sub.getD dim 0 ≤ block.getD dim 0)
    (previous : String) : ∃ dim, dimBySubBlocks c block sub threads previous = .ok dim := by
  have hscan := exists_firstOuterDim? (c := c) (fun d : DimPlace => do
      let subBlocks ← ceilDiv (block.getD d.name 0) (sub.getD d.name 0)
      return decide (subBlocks ≥ threads)) c.dimPlaces fun d hd => by
    have hmem := mem_domain_of_mem_dimPlaces hd
    have hpos := (hsub _ hmem).1
    have hless := hle _ hmem
    have hbound := hb.le_points hmem
    -- A quotient of two sizes and every intermediate result lies between zero and their sum.
    have hquot : 0 ≤ (block.getD d.name 0 + sub.getD d.name 0 - 1) / sub.getD d.name 0 ∧
        (block.getD d.name 0 + sub.getD d.name 0 - 1) / sub.getD d.name 0 ≤
          block.getD d.name 0 + sub.getD d.name 0 - 1 :=
      ⟨Int.ediv_nonneg (by omega) hpos.le, Int.ediv_le_self _ (by omega)⟩
    simp only [manyPoints] at hsmall
    rw [ceilDiv, if_neg (by omega)]
    simp only [bind_eq_ok, pure_eq_ok, Idx.add_eq_ok_iff, Idx.sub_eq_ok_iff,
      Idx.euclidDiv_eq_ok_iff, Idx.InRange, Idx.min, Idx.max]
    exact ⟨_, _, ⟨_, ⟨by omega, rfl⟩, _, ⟨by omega, rfl⟩, hpos.ne', by omega, rfl⟩, rfl⟩
  obtain ⟨found, hfound⟩ := hscan
  unfold dimBySubBlocks
  simp only [bind_eq_ok, pure_eq_ok]
  exact ⟨_, found, hfound, rfl⟩

end

/-! ### The tiles -/

theorem exists_tile {parent asked : DimVec} (outer inner : Level) (hc : c.WellFormed)
    (hp : Clustered c parent) (hsmall : points c parent ≤ manyPoints)
    (hasked : asked.names = c.stencil.names) : ∃ t report,
      cutInto parent outer.name (clamped parent c.stepDim asked) inner.name c.cluster c.stepDim =
        .ok (t, report) ∧ t.names = c.stencil.names ∧ Clustered c t ∧
        (∀ dim ∈ c.domain.names, t.getD dim 0 ≤ parent.getD dim 0) ∧
        points c t ≤ manyPoints := by
  obtain ⟨⟨t, report⟩, hcut⟩ := exists_tiled outer.name inner.name hc hp hsmall hasked
  have ht := hp.tiled hc hasked hcut
  have hle : ∀ dim ∈ c.domain.names, t.getD dim 0 ≤ parent.getD dim 0 := fun dim hdim =>
    ((getD_of_tiled hc hp hasked hcut).2 dim hdim).trans_le resolvedSize_le
  have hnames := (names_cutInto hcut).trans ((DimVec.names_map _ _).trans hasked)
  exact ⟨t, report, hcut, hnames, ht, hle, (ht.points_le hle).trans hsmall⟩

/-- Every group that is asked for fits into 64 bits on top of the level that holds it. -/
def GroupsFit (c : Catalog) (s : Settings) (p : Plan) : Prop :=
  ∀ parent group tile, (parent, group, tile) ∈ groupings → ∀ dim ∈ c.domain.names,
    p.sizes.size parent dim + groupExtent (p.sizes.size parent dim) (p.sizes.size tile dim)
      (s.size group dim) ≤ Idx.max

/-- The settings with the groups of other ones. -/
def withGroupsOf (s t : Settings) : Settings :=
  { s with
    blockGroup := t.blockGroup
    miniBlockGroup := t.miniBlockGroup
    subBlockGroup := t.subBlockGroup }

theorem points_localDomain (hc : c.WellFormed) (hs : s.Shaped c) :
    points c s.localDomain = s.localDomain.values.prod := by
  have hnames : s.localDomain.names = c.domain.names := hs.names (.level .localDomain)
  rw [← DimVec.map_getD_names (hnames ▸ hc.nodup) 0, hnames, points]

/-- A group that nothing is asked for is one tile, which fits. -/
theorem exists_unset_group {parent tile asked : DimVec} (outer inner : Level) (hc : c.WellFormed)
    (hp : Clustered c parent) (ht : Clustered c tile)
    (htile : tile.names = c.stencil.names)
    (hle : ∀ dim ∈ c.domain.names, tile.getD dim 0 ≤ parent.getD dim 0)
    (hsmall : points c parent ≤ manyPoints) (hasked : asked.names = c.stencil.names)
    (hunset : ∀ dim ∈ c.domain.names, asked.getD dim 0 = 0) : ∃ t report,
      cutInto parent outer.name (groupAsked c.stepDim asked) inner.name tile c.stepDim =
        .ok (t, report) := by
  have hcut := (exists_grouped_iff outer.name inner.name hc ht htile hle hsmall
    hasked).mpr fun dim hdim => ?_
  · obtain ⟨⟨t, report⟩, h⟩ := hcut
    exact ⟨t, report, h⟩
  · have hbound := (hp.le_points hdim).trans hsmall
    -- A group for which nothing is asked is a tile, and a tile is no larger than the parent.
    have hlt : groupExtent (parent.getD dim 0) (tile.getD dim 0) 0 <
        manyPoints + parent.getD dim 0 :=
      groupExtent_lt (ht dim hdim).1 (hle dim hdim) hbound (by decide)
    rw [hunset dim hdim]
    simp only [manyPoints, Idx.max] at hbound hlt ⊢
    omega

/-- Without groups nothing but the sum of the sub-block sizes can overflow. -/
theorem exists_resolves_of_ungrouped (hc : c.WellFormed) (hs : s.Shaped c)
    (hw : Whole c s .localDomain) (hsmall : s.localDomain.values.prod ≤ manyPoints)
    (hsum : 1 < s.threadsPerBlock → ∃ total, s.subBlock.sum = .ok total)
    (hgroups : ∀ l ∈ [Level.blockGroup, .miniBlockGroup, .subBlockGroup], ∀ dim ∈ c.domain.names,
      s.size l dim = 0) : ∃ p, Resolves c s p := by
  have hlocal : Clustered c s.localDomain := hw
  rw [← points_localDomain hc hs] at hsmall
  have hnames : ∀ l ≠ Level.localDomain,
      ((s.stepped c.stepDim).sizes l).names = c.stencil.names := fun _ hl =>
    (stepped_fits hs hl).names
  -- From the outside in: every level fits into the one around it and has no more points.
  obtain ⟨region, regions, hregion, hrn, hr, -, hrs⟩ := exists_tile .localDomain .region hc
    hlocal hsmall (hnames .region (by decide))
  obtain ⟨block, blocks, hblock, hbn, hb, hbr, hbs⟩ := exists_tile .region .block hc hr hrs
    (hnames .block (by decide))
  obtain ⟨mini, minis, hmini, hmn, hm, hmb, hms⟩ := exists_tile .block .miniBlock hc hb hbs
    (hnames .miniBlock (by decide))
  obtain ⟨asked, dim, hslabs⟩ := (exists_slabs_iff s.subBlock hc hb hbs).mpr hsum
  obtain ⟨sub, subs, hsub, hsn, hsubc, hsm, hss⟩ := exists_tile .miniBlock .subBlock hc hm
    hms (hslabs.names.trans (hs.named .subBlock (by decide)))
  obtain ⟨bg, bgs, hbg⟩ := exists_unset_group .region .blockGroup hc hr hb hbn hbr hrs
    (hs.named .blockGroup (by decide)) (hgroups .blockGroup (by simp))
  obtain ⟨mbg, mbgs, hmbg⟩ := exists_unset_group .block .miniBlockGroup hc hb hm hmn hmb hbs
    (hs.named .miniBlockGroup (by decide)) (hgroups .miniBlockGroup (by simp))
  obtain ⟨sbg, sbgs, hsbg⟩ := exists_unset_group .miniBlock .subBlockGroup hc hm hsubc hsn hsm hms
    (hs.named .subBlockGroup (by decide)) (hgroups .subBlockGroup (by simp))
  -- Bound threads look for another dimension to split, which does not fail either.
  obtain ⟨split, hsplit⟩ : ∃ split, if s.bindBlockThreads ∧ s.threadsPerBlock > 1 then
      dimBySubBlocks c block sub s.threadsPerBlock dim = .ok split else split = dim := by
    split
    · exact exists_dimBySubBlocks hb hbs hsubc
        (fun dim hdim => (hsm dim hdim).trans (hmb dim hdim)) dim
    · exact ⟨dim, rfl⟩
  refine ⟨{ sizes := { s with region, block, miniBlock := mini, subBlock := sub, blockGroup := bg,
                              miniBlockGroup := mbg, subBlockGroup := sbg }
            counts := { regions, blocks, miniBlocks := minis, subBlocks := subs, blockGroups := bgs,
                        miniBlockGroups := mbgs, subBlockGroups := sbgs }
            splitDim := split
            stepDim := c.stepDim
            cluster := c.cluster }, ?_⟩
  constructor
  case checked => exact (checkLocalDomain_eq_ok hc hs).mpr hw
  case rest => rfl
  case region => exact hregion
  case block => exact hblock
  case miniBlock => exact hmini
  case subBlock => exact ⟨asked, dim, hslabs, hsub, hsplit⟩
  case blockGroup => exact hbg
  case miniBlockGroup => exact hmbg
  case subBlockGroup => exact hsbg
  case stepDim => rfl
  case cluster => rfl

/-! ### The groups -/

/-- The points of a tile are no more than those of the local domain. -/
theorem Resolves.points_le (h : Resolves c s p) (hc : c.WellFormed) (hs : s.Shaped c)
    (hsmall : s.localDomain.values.prod ≤ manyPoints) {l : Level} (hl : l ∈ Level.nested) :
    points c (p.sizes.sizes l) ≤ manyPoints := by
  have hle : ∀ dim ∈ c.domain.names,
      (p.sizes.sizes l).getD dim 0 ≤ s.localDomain.getD dim 0 := by
    intro dim hdim
    obtain ⟨hlocal, -, -, -, hnested, -⟩ := h.legalIn hc hs hdim
    simp only [size] at hlocal hnested
    rw [show s.localDomain.getD dim 0 = _ from hlocal.symm]
    simp only [Level.nested, List.mem_cons, List.not_mem_nil, or_false] at hl
    rcases hl with rfl | rfl | rfl | rfl | rfl <;> omega
  have hpoints := (show Clustered c (p.sizes.sizes l) from h.whole hc hs hl).points_le hle
  rw [points_localDomain hc hs] at hpoints
  exact hpoints.trans hsmall

/-- In the tiles of a plan groups can be cut exactly if they fit. -/
theorem Resolves.exists_group_iff (h : Resolves c s p) (hc : c.WellFormed) (hs : s.Shaped c)
    (hsmall : s.localDomain.values.prod ≤ manyPoints) {parent group tile : Level}
    (hmem : (parent, group, tile) ∈ groupings) {asked : DimVec}
    (hasked : asked.names = c.stencil.names) :
    (∃ r, cutInto (p.sizes.sizes parent) parent.name (groupAsked c.stepDim asked) group.name
      (p.sizes.sizes tile) c.stepDim = .ok r) ↔ ∀ dim ∈ c.domain.names,
        p.sizes.size parent dim + groupExtent (p.sizes.size parent dim) (p.sizes.size tile dim)
          (asked.getD dim 0) ≤ Idx.max := by
  obtain ⟨hparent, htile, hne, -⟩ := of_mem_groupings hmem
  exact exists_grouped_iff _ _ hc (h.whole hc hs htile) (h.fits hc hs hne).names
    (fun dim hdim => h.tile_le hc hs hmem hdim) (h.points_le hc hs hsmall hparent) hasked

theorem Resolves.groupsFit (h : Resolves c s p) (hc : c.WellFormed) (hs : s.Shaped c)
    (hsmall : s.localDomain.values.prod ≤ manyPoints) : GroupsFit c s p := by
  intro parent group tile hmem
  have hgroup : ∃ asked report, p.Grouped c parent group tile asked report ∧
      asked = s.sizes group := by
    simp only [groupings, List.mem_cons, List.not_mem_nil, or_false, Prod.mk.injEq] at hmem
    rcases hmem with ⟨rfl, rfl, rfl⟩ | ⟨rfl, rfl, rfl⟩ | ⟨rfl, rfl, rfl⟩
    · exact ⟨_, _, h.blockGroup, rfl⟩
    · exact ⟨_, _, h.miniBlockGroup, rfl⟩
    · exact ⟨_, _, h.subBlockGroup, rfl⟩
  obtain ⟨_, report, hcut, rfl⟩ := hgroup
  obtain ⟨-, -, -, hne, -⟩ := of_mem_groupings hmem
  exact (h.exists_group_iff hc hs hsmall hmem (hs.named group hne)).mp ⟨_, hcut⟩

/-- Other groups that fit into the same tiles make another plan with these tiles. -/
theorem Resolves.regroup (h : Resolves c s p) (hc : c.WellFormed) (hs : s.Shaped c)
    (ht : t.Shaped c) (hsmall : s.localDomain.values.prod ≤ manyPoints)
    (hfits : GroupsFit c t p) : ∃ q, Resolves c (s.withGroupsOf t) q ∧
      ∀ l ∈ Level.nested, q.sizes.sizes l = p.sizes.sizes l := by
  have hcut : ∀ parent group tile, (parent, group, tile) ∈ groupings →
      ∃ r, cutInto (p.sizes.sizes parent) parent.name (groupAsked c.stepDim (t.sizes group))
        group.name (p.sizes.sizes tile) c.stepDim = .ok r := by
    intro parent group tile hmem
    obtain ⟨-, -, -, hne, -⟩ := of_mem_groupings hmem
    exact (h.exists_group_iff hc hs hsmall hmem (ht.named group hne)).mpr (hfits _ _ _ hmem)
  -- Groups are cut from the tiles as they stand and nothing else depends on them.
  obtain ⟨⟨bg, bgs⟩, hbg⟩ := hcut .region .blockGroup .block (by decide)
  obtain ⟨⟨mbg, mbgs⟩, hmbg⟩ := hcut .block .miniBlockGroup .miniBlock (by decide)
  obtain ⟨⟨sbg, sbgs⟩, hsbg⟩ := hcut .miniBlock .subBlockGroup .subBlock (by decide)
  obtain ⟨u, hu⟩ : ∃ u, p.sizes = s.withTilesOf u := ⟨p.sizes, Eq.symm h.rest⟩
  obtain ⟨sizes, counts, splitDim, stepDim, cluster⟩ := p
  obtain rfl : sizes = s.withTilesOf u := hu
  refine ⟨{ sizes := { s.withTilesOf u with
                         blockGroup := bg, miniBlockGroup := mbg, subBlockGroup := sbg }
            counts := { counts with
                          blockGroups := bgs, miniBlockGroups := mbgs, subBlockGroups := sbgs }
            splitDim, stepDim, cluster }, ?_, fun l hl => ?_⟩
  · constructor
    case checked => exact h.checked
    case rest => rfl
    case region => exact h.region
    case block => exact h.block
    case miniBlock => exact h.miniBlock
    case subBlock => exact h.subBlock
    case blockGroup => exact hbg
    case miniBlockGroup => exact hmbg
    case subBlockGroup => exact hsbg
    case stepDim => exact h.stepDim
    case cluster => exact h.cluster
  · simp only [Level.nested, List.mem_cons, List.not_mem_nil, or_false] at hl
    rcases hl with rfl | rfl | rfl | rfl | rfl <;> rfl

theorem Shaped.withGroupsOf (hs : s.Shaped c) (ht : t.Shaped c) :
    (s.withGroupsOf t).Shaped c := by
  have htarget : ∀ g, (s.withGroupsOf t).target g = s.target g ∨
      (s.withGroupsOf t).target g = t.target g := by
    intro g
    cases g with
    | level l => cases l <;> first | exact .inl rfl | exact .inr rfl
    | _ => exact .inl rfl
  constructor
  · intro g
    rcases htarget g with heq | heq
    · rw [heq, hs.names]
    · rw [heq, ht.names]
  · intro g
    rcases htarget g with heq | heq
    · rw [heq]
      exact hs.inRange g
    · rw [heq]
      exact ht.inRange g

/-- The settings with nothing asked for the groups. -/
def ungrouped (s : Settings) (c : Catalog) : Settings := s.withGroupsOf (.initial c 1)

theorem size_ungrouped (hc : c.WellFormed) {l : Level}
    (hl : l ∈ [Level.blockGroup, .miniBlockGroup, .subBlockGroup]) {dim : String}
    (hdim : dim ∈ c.domain.names) : (s.ungrouped c).size l dim = 0 := by
  have hzero : (c.stencilVec 0).getD dim 0 = 0 := DimVec.getD_map (hc.mem_stencil hdim)
  simp only [List.mem_cons, List.not_mem_nil, or_false] at hl
  rcases hl with rfl | rfl | rfl <;> exact hzero

/-- Groups of no more than 2 ^ 62 points in each dimension fit. -/
theorem groupsFit_of_le (hc : c.WellFormed) (hs : s.Shaped c)
    (hsmall : s.localDomain.values.prod ≤ manyPoints) (h : Resolves c s p)
    (ht : ∀ l ∈ [Level.blockGroup, .miniBlockGroup, .subBlockGroup], ∀ dim ∈ c.domain.names,
      t.size l dim ≤ 2 * manyPoints) : GroupsFit c t p := by
  intro parent group tile hmem dim hdim
  obtain ⟨hparent, htile, -, -, hgroup⟩ := of_mem_groupings hmem
  have hwhole : Clustered c (p.sizes.sizes parent) := h.whole hc hs hparent
  have hbound : p.sizes.size parent dim ≤ manyPoints :=
    (hwhole.le_points hdim).trans (h.points_le hc hs hsmall hparent)
  have hlt := groupExtent_lt (h.whole hc hs htile dim hdim).1
    (h.tile_le hc hs hmem hdim) (by simp only [manyPoints] at hbound ⊢; omega)
    (ht group hgroup dim hdim)
  simp only [manyPoints, Idx.max] at hbound hlt ⊢
  omega

/-- Settings are resolved exactly if their groups fit into what they come to without groups. -/
theorem Resolves.exists_iff_groupsFit {p₀ : Plan} (h₀ : Resolves c (s.ungrouped c) p₀)
    (hc : c.WellFormed) (hs : s.Shaped c) (hsmall : s.localDomain.values.prod ≤ manyPoints) :
    (∃ p, Resolves c s p) ↔ GroupsFit c s p₀ := by
  have hinitial : (Settings.initial c 1).Shaped c := shaped_initial 1
  have hungrouped : (s.ungrouped c).Shaped c := hs.withGroupsOf hinitial
  constructor
  · rintro ⟨p, h⟩
    have hunset : GroupsFit c (s.ungrouped c) p :=
      groupsFit_of_le hc hs hsmall h fun l hl dim hdim => by
        rw [size_ungrouped hc hl hdim]
        decide
    -- without the groups the same tiles make the plan that there is
    obtain ⟨q, hq, htiles⟩ := h.regroup hc hs hungrouped hsmall hunset
    obtain rfl : q = p₀ := hq.unique hc hungrouped h₀
    intro parent group tile hmem dim hdim
    obtain ⟨hparent, htile, -⟩ := of_mem_groupings hmem
    rw [size_congr (htiles parent hparent), size_congr (htiles tile htile)]
    exact h.groupsFit hc hs hsmall parent group tile hmem dim hdim
  · intro hfits
    obtain ⟨q, hq, -⟩ := h₀.regroup hc hungrouped hs hsmall hfits
    exact ⟨q, hq⟩

/-- Settings for a local domain of whole clusters, of at most 2 ^ 61 points, are resolved unless one
of two things overflows: the sum of the sub-block sizes where it is taken, or a group on top of the
level that holds it. Groups of at most 2 ^ 62 points in each dimension never do. -/
theorem resolve_overflows_iff (hc : c.Built) (hs : s.Reachable c) (hw : Whole c s .localDomain)
    (hsmall : s.localDomain.values.prod ≤ manyPoints) :
    if 1 < s.threadsPerBlock ∧ s.subBlock.sum = .error .arithmetic then
      ((s.resolve c).run v ()).result = .error (.fault .arithmetic)
    else ∃ p₀, (((s.ungrouped c).resolve c).run v ()).result = .ok p₀ ∧
      ((∃ p, ((s.resolve c).run v ()).result = .ok p) ↔ GroupsFit c s p₀) ∧
      (¬ GroupsFit c s p₀ → ((s.resolve c).run v ()).result = .error (.fault .arithmetic)) ∧
      ((∀ l ∈ [Level.blockGroup, .miniBlockGroup, .subBlockGroup], ∀ dim ∈ c.domain.names,
        s.size l dim ≤ 2 * manyPoints) → GroupsFit c s p₀) := by
  have hcw := hc.wellFormed
  have hshaped := hs.shaped
  have hresolves : ∀ p, ((s.resolve c).run v ()).result = .ok p ↔ Resolves c s p :=
    fun p => resolve_eq_ok hcw hshaped
  -- whatever goes wrong is an overflow
  have hfault : (¬ ∃ p, Resolves c s p) →
      ((s.resolve c).run v ()).result = .error (.fault .arithmetic) := by
    intro hno
    by_contra hfits
    exact hno (exists_resolves hcw hshaped hw hfits)
  split
  · next hsum =>
    refine hfault ?_
    rintro ⟨p, h⟩
    obtain ⟨asked, dim, hslabs, -⟩ := h.subBlock
    cases hslabs with
    | single hfew => omega
    | given _ hok => exact absurd (hok.symm.trans hsum.2) nofun
    | slab _ hok => exact absurd (hok.symm.trans hsum.2) nofun
  · next hsum =>
    have hok : 1 < s.threadsPerBlock → ∃ total, s.subBlock.sum = .ok total := by
      intro hmany
      obtain ⟨total, htotal, -⟩ := (Idx.gives_sum s.subBlock.values).exists_ok
        fun h => hsum ⟨hmany, h⟩
      exact ⟨total, htotal⟩
    have hungrouped : (s.ungrouped c).Shaped c := hshaped.withGroupsOf (shaped_initial 1)
    obtain ⟨p₀, h₀⟩ := exists_resolves_of_ungrouped hcw hungrouped hw hsmall hok
      fun l hl dim hdim => size_ungrouped hcw hl hdim
    have hiff := h₀.exists_iff_groupsFit hcw hshaped hsmall
    refine ⟨p₀, (resolve_eq_ok hcw hungrouped).mpr h₀, ?_, fun hno => ?_, fun hle => ?_⟩
    · rw [← hiff]
      exact exists_congr hresolves
    · exact hfault fun h => hno (hiff.mp h)
    · exact groupsFit_of_le hcw hungrouped hsmall h₀ hle

end Settings

/-- Groups of a hundred points are asked for in one dimension, where the region has 64. -/
theorem resolve_overflows_iff_slabbed : ∃ p,
    (((Slabbed.after (("bgx", "100") :: Slabbed.options)).resolve Slabbed.catalog).run
      none ()).result = .ok p := by
  have hresolve := Settings.resolve_overflows_iff (v := none) Slabbed.built
    (Slabbed.reachable_after (("bgx", "100") :: Slabbed.options))
    (by decide +kernel) (by decide +kernel)
  rw [if_neg (by decide +kernel)] at hresolve
  obtain ⟨p₀, -, hiff, -, hmoderate⟩ := hresolve
  exact hiff.mpr (hmoderate (by decide +kernel))

/-- Two threads share a block, and the sub-blocks are asked to be as large as a number can be in one
dimension and one point thick in another one. -/
def Slabbed.oversized : List (String × String) :=
  [("l", "64"), ("block_threads", "2"), ("sbx", "9223372036854775807"), ("sby", "1")]

/-- In a local domain of 64 points in each dimension the two requests are more than 64 bits hold,
although no sub-block would get larger than its mini-block. -/
theorem oversized_request_overflows : Slabbed.catalog.Built ∧
    (Slabbed.after Slabbed.oversized).Reachable Slabbed.catalog ∧
    Settings.Whole Slabbed.catalog (Slabbed.after Slabbed.oversized) .localDomain ∧
    (Slabbed.after Slabbed.oversized).localDomain.values.prod ≤ manyPoints ∧
    (((Slabbed.after Slabbed.oversized).resolve Slabbed.catalog).run none ()).result =
      .error (.fault .arithmetic) :=
  ⟨Slabbed.built, Slabbed.reachable_after _, by decide +kernel, by decide +kernel,
    by decide +kernel⟩

end StencilPlan
