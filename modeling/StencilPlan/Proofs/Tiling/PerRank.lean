import StencilPlan.Proofs.Tiling.Groups

/-!
# Tiles of a rank

The tiles of one level are counted inside a full tile of the level around it, and the numbers of a
whole rank are products of those counts. At the edges of the domain the tiles around are clipped,
and what is cut from them is less. So the products never fall short of the tiles there are, and
they are exact where every level above comes out even.
-/

namespace StencilPlan

/-- No dimension of the report has a remainder. -/
def CutReport.IsWhole (r : CutReport) : Prop := ∀ d ∈ r.cuts, d.remainder = 0

instance (r : CutReport) : Decidable r.IsWhole :=
  inferInstanceAs (Decidable (∀ d ∈ r.cuts, d.remainder = 0))

namespace TileCounts

variable {t : TileCounts} {n : Int}

theorem allBlocks_eq_ok (h : t.allBlocks = .ok n) : n = t.regions.total * t.blocks.total :=
  (Idx.mul_eq_ok_iff.mp h).2

theorem allMiniBlocks_eq_ok (h : t.allMiniBlocks = .ok n) :
    n = t.regions.total * t.blocks.total * t.miniBlocks.total := by
  obtain ⟨m, hm, h⟩ := bind_eq_ok.mp h
  rw [(Idx.mul_eq_ok_iff.mp h).2, allBlocks_eq_ok hm]

theorem allSubBlocks_eq_ok (h : t.allSubBlocks = .ok n) :
    n = t.regions.total * t.blocks.total * t.miniBlocks.total * t.subBlocks.total := by
  obtain ⟨m, hm, h⟩ := bind_eq_ok.mp h
  rw [(Idx.mul_eq_ok_iff.mp h).2, allMiniBlocks_eq_ok hm]

end TileCounts

namespace Plan

variable (c : Catalog) (p : Plan)

/-- The size of a level in each domain dimension. -/
def box (l : Level) : List Int := c.domain.names.map (p.sizes.size l)

/-- The tiles that some levels, from the outermost one inward, cut the local domain into. Each tile
ends where the one around it does. -/
def tiles (levels : List Level) : List (List Int) :=
  nestedTiles (levels.map (p.box c)) (p.box c .localDomain)

/-- The number `n` is not less than that of the tiles. It is the same where the reports on the
levels above have no remainders. -/
structure CountsTiles (levels : List Level) (above : List CutReport) (n : Int) : Prop where
  /-- All of the tiles have points in them. -/
  nonempty : ∀ tile ∈ p.tiles c levels, ∀ extent ∈ tile, 0 < extent
  le : (p.tiles c levels).length ≤ n
  eq_of_whole : (∀ r ∈ above, r.IsWhole) → (p.tiles c levels).length = n

/-- Levels that lie inside one another, with the reports that count each of them inside the one
before it. -/
def CutChain : Level → List (Level × CutReport) → Prop
  | _, [] => True
  | parent, (l, r) :: inner =>
    r.Counts c.domain.names (p.sizes.sizes parent) (p.sizes.sizes l) ∧ CutChain l inner

section

variable {c p} {parent : Level} {cuts : List (Level × CutReport)}

/-- If all tiles were full, there would be as many as the product of the totals says. -/
theorem CutChain.nestedCount_eq (h : CutChain c p parent cuts) :
    (nestedCount (cuts.map fun x => p.box c x.1) (p.box c parent) : Int) =
      (cuts.map (·.2.total)).prod := by
  induction cuts generalizing parent with
  | nil => rfl
  | cons x inner ih =>
    obtain ⟨hcounts, hinner⟩ := h
    have htotal : x.2.total = (boxTiles (p.box c x.1) (p.box c parent)).length := hcounts.total_eq
    simp only [List.map_cons, nestedCount, Nat.cast_mul, List.prod_cons]
    rw [ih hinner, htotal]

/-- A report without remainders is one on a level that divides the one around it. -/
theorem dvd_of_isWhole {l : Level} {r : CutReport}
    (h : r.Counts c.domain.names (p.sizes.sizes parent) (p.sizes.sizes l)) (hr : r.IsWhole) :
    List.Forall₂ (· ∣ ·) (p.box c l) (p.box c parent) := by
  rw [box, box, List.forall₂_map_left_iff, List.forall₂_map_right_iff, List.forall₂_same,
    ← h.dims]
  intro dim hdim
  obtain ⟨d, hd, rfl⟩ := List.mem_map.mp hdim
  exact h.whole d hd (hr d hd)

theorem CutChain.isChain_dvd (h : CutChain c p parent cuts)
    (hwhole : ∀ r ∈ cuts.dropLast.map (·.2), r.IsWhole) :
    (p.box c parent :: (cuts.map fun x => p.box c x.1).dropLast).IsChain
      fun parent child => List.Forall₂ (· ∣ ·) child parent := by
  induction cuts generalizing parent with
  | nil => exact .singleton _
  | cons x inner ih =>
    obtain ⟨hcounts, hinner⟩ := h
    cases inner with
    | nil => exact .singleton _
    | cons y inner =>
      rw [List.dropLast_cons_cons, List.map_cons, List.forall_mem_cons] at hwhole
      simp only [List.map_cons, List.dropLast_cons_cons, List.isChain_cons_cons]
      exact ⟨dvd_of_isWhole hcounts hwhole.1, ih hinner hwhole.2⟩

/-- Along the whole chain, what is counted for full tiles is enough for the clipped ones. -/
theorem CutChain.countsTiles (h : CutChain c p .localDomain cuts)
    (hdomain : Settings.Whole c p.sizes .localDomain) :
    p.CountsTiles c (cuts.map (·.1)) (cuts.dropLast.map (·.2)) (cuts.map (·.2.total)).prod := by
  -- The boxes along the chain are those of its levels, and all have as many dimensions as the
  -- domain.
  have hlevels : (cuts.map (·.1)).map (p.box c) = cuts.map fun x => p.box c x.1 := by
    rw [List.map_map]
    rfl
  have hlen : ∀ sizes ∈ cuts.map fun x => p.box c x.1,
      sizes.length = (p.box c .localDomain).length := by
    rw [List.forall_mem_map]
    intro x _
    rw [box, box, List.length_map, List.length_map]
  have hbox : ∀ n ∈ p.box c .localDomain, 0 < n :=
    List.forall_mem_map.mpr fun dim hdim => (hdomain dim hdim).1
  rw [← h.nestedCount_eq]
  constructor
  case nonempty =>
    rw [tiles, hlevels]
    exact fun tile htile => pos_of_mem_nestedTiles hlen hbox htile
  case le =>
    rw [tiles, hlevels]
    exact Int.ofNat_le.mpr
      (length_nestedTiles_le hlen (List.forall₂_same.mpr fun _ _ => le_rfl))
  case eq_of_whole =>
    intro hwhole
    rw [tiles, hlevels, length_nestedTiles_eq (h.isChain_dvd hwhole)]

end

end Plan

namespace Settings

variable {c : Catalog} {v : Verbosity} {s : Settings} {p : Plan}

/-- The numbers of regions, blocks, mini-blocks and sub-blocks of a rank are enough for all of
them, and exact where the levels above come out even. -/
theorem tiles_le_counts (hc : c.Built) (hs : s.Reachable c)
    (hp : ((s.resolve c).run v ()).result = .ok p) :
    p.CountsTiles c [.region] [] p.counts.allRegions ∧
      (∀ n, p.counts.allBlocks = .ok n →
        p.CountsTiles c [.region, .block] [p.counts.regions] n) ∧
      (∀ n, p.counts.allMiniBlocks = .ok n →
        p.CountsTiles c [.region, .block, .miniBlock] [p.counts.regions, p.counts.blocks] n) ∧
      (∀ n, p.counts.allSubBlocks = .ok n →
        p.CountsTiles c [.region, .block, .miniBlock, .subBlock]
          [p.counts.regions, p.counts.blocks, p.counts.miniBlocks] n) := by
  have hw := hc.wellFormed
  have h := (resolve_eq_ok hw hs.shaped).mp hp
  obtain ⟨hregions, hblocks, hminiBlocks, hsubBlocks⟩ := h.counts hw hs.shaped
  have hdomain := h.whole hw hs.shaped (l := .localDomain) (by decide)
  -- the numbers are the products of the totals along longer and longer parts of the chain
  have hcount : ∀ cuts n, p.CutChain c .localDomain cuts → n = (cuts.map (·.2.total)).prod →
      p.CountsTiles c (cuts.map (·.1)) (cuts.dropLast.map (·.2)) n := by
    rintro cuts _ hchain rfl
    exact hchain.countsTiles hdomain
  refine ⟨?_, fun n hn => ?_, fun n hn => ?_, fun n hn => ?_⟩
  · exact hcount [(.region, _)] _ ⟨hregions, trivial⟩ (by simp [TileCounts.allRegions])
  · exact hcount [(.region, _), (.block, _)] _ ⟨hregions, hblocks, trivial⟩
      (by simp [TileCounts.allBlocks_eq_ok hn])
  · exact hcount [(.region, _), (.block, _), (.miniBlock, _)] _
      ⟨hregions, hblocks, hminiBlocks, trivial⟩
      (by simp [TileCounts.allMiniBlocks_eq_ok hn, Int.mul_assoc])
  · exact hcount [(.region, _), (.block, _), (.miniBlock, _), (.subBlock, _)] _
      ⟨hregions, hblocks, hminiBlocks, hsubBlocks, trivial⟩
      (by simp [TileCounts.allSubBlocks_eq_ok hn, Int.mul_assoc])

end Settings

namespace Clipped

/-- Eighty points in each dimension come to a full region and a clipped one, and no level below
comes out even inside the one around it. -/
def options : List (String × String) :=
  [("l", "80"), ("r", "64"), ("b", "32"), ("mb", "20"), ("sb", "8")]

end Clipped

/-- Only the number of regions is exact here. The regions come out uneven, so the 64 blocks that are
counted are a bound. -/
theorem tiles_le_counts_clipped : ∃ p,
    (((Slabbed.after Clipped.options).resolve Slabbed.catalog).run none ()).result = .ok p ∧
      ¬ p.counts.regions.IsWhole ∧ p.counts.blocks.IsWhole ∧
      p.CountsTiles Slabbed.catalog [.region] [] 8 ∧
      p.CountsTiles Slabbed.catalog [.region, .block] [p.counts.regions] 64 ∧
      p.CountsTiles Slabbed.catalog [.region, .block, .miniBlock]
        [p.counts.regions, p.counts.blocks] 512 ∧
      p.CountsTiles Slabbed.catalog [.region, .block, .miniBlock, .subBlock]
        [p.counts.regions, p.counts.blocks, p.counts.miniBlocks] 13824 := by
  obtain ⟨p, hp, hcheck⟩ := exists_eq_ok_of_any
    (x := (((Slabbed.after Clipped.options).resolve Slabbed.catalog).run none ()).result)
    (p := fun p => decide (¬ p.counts.regions.IsWhole) && decide p.counts.blocks.IsWhole &&
      decide (p.counts.allRegions = 8) && decide (p.counts.allBlocks = .ok 64) &&
      decide (p.counts.allMiniBlocks = .ok 512) && decide (p.counts.allSubBlocks = .ok 13824))
    (by decide +kernel)
  simp only [Bool.and_eq_true, decide_eq_true_eq] at hcheck
  obtain ⟨⟨⟨⟨⟨hclipped, hwhole⟩, hregions⟩, hblocks⟩, hminiBlocks⟩, hsubBlocks⟩ := hcheck
  -- The check evaluates the counts; that they bound the tiles is what the theorem says of them.
  obtain ⟨hr, hb, hmb, hsb⟩ := Settings.tiles_le_counts Slabbed.built (Slabbed.reachable_after _) hp
  rw [hregions] at hr
  exact ⟨p, hp, hclipped, hwhole, hr, hb _ hblocks, hmb _ hminiBlocks, hsb _ hsubBlocks⟩

end StencilPlan
