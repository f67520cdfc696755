import StencilPlan.Proofs.Arith.Rounding
import StencilPlan.Proofs.Rank.Buildable
import StencilPlan.Proofs.Rank.Partition

/-!
# Whether all ranks find their places

Ranks that share their settings fill the grid in the same way, and it has a place for each of them.
What is left to each rank is to check its own share. The last rank of a dimension takes what is left
over when the overall size is divided, so its check can come out differently from that of the
others. Where it does not, all ranks are placed or none is.
-/

namespace StencilPlan

/-! ### The grid has a place for every rank -/

/-- A filled grid in which a topology can be built has exactly one place for each rank. -/
theorem Fills.prod_eq {ranks : Nat} {grid filled : DimVec} (h : Fills ranks grid filled)
    (hgrid : ∀ n ∈ grid.values, Idx.InRange n) (hranks : 0 < ranks) (hbound : ranks < Word.bound)
    (hb : Topology.Buildable filled) : (filled.values.map Int.toNat).prod = ranks := by
  have hmod : filled.values.prod ≡ ranks [ZMOD Word.bound] := by
    obtain ⟨fixed, hones, ⟨hprod, rfl⟩ | ⟨factors, rfl, hsome, hunset, hcounts⟩⟩ :=
      h.of_counts hgrid hranks
    · rw [hprod]
    · have hprod := handOut_prod_modEq hsome hunset hcounts
      rwa [hones, ← Int.natCast_mul] at hprod
  have hle := hb.product_eq.2
  rw [← hb.countable.cast_prod, Int.natCast_modEq_iff] at hmod
  -- both are counts below the bound
  have hlt : (filled.values.map Int.toNat).prod < Word.bound := by
    simp only [Idx.max, Word.bound] at hle ⊢
    omega
  exact (Nat.mod_eq_of_lt hlt).symm.trans (Eq.trans hmod (Nat.mod_eq_of_lt hbound))

/-! ### A share that can be taken -/

theorem shareOfGlobal_of_share {ranks index global asked size offset all : Int} (dim : String)
    (h : Share ranks index global asked size offset all) (hasked : asked ≤ 0)
    (hglobal : global ≤ Idx.max) (hge : 0 ≤ index) (hlt : index < ranks)
    (hranks : ranks ≤ Idx.max) :
    shareOfGlobal dim global ranks index = .ok (size, offset) := by
  cases h with
  | given hasked' => omega
  | @divided base _ hpos hbase hne =>
    obtain ⟨hbase₀, hle⟩ := Share.base_mul_le (by omega) hpos hbase
    -- All that is multiplied lies between zero and the overall size, so nothing overflows.
    have hmul : ∀ i, 0 ≤ i → i ≤ ranks → 0 ≤ base * i ∧ base * i ≤ global := fun i hi hi' =>
      ⟨Int.mul_nonneg hbase₀ hi, Int.le_trans (Int.mul_le_mul_of_nonneg_left hi' hbase₀) hle⟩
    have hone := hmul 1 (by omega) (by omega)
    have hlast := hmul (ranks - 1) (by omega) (by omega)
    have hindex := hmul index hge (by omega)
    have hrange : ∀ n : Int, 0 ≤ n → n ≤ global → Idx.InRange n := fun n hn hn' => by
      simp only [Idx.InRange, Idx.min] at *
      omega
    have hdiv : Idx.div global ranks = .ok base :=
      Idx.div_eq_ok_iff.mpr ⟨by omega, hbase ▸ hrange base hbase₀ (by omega), hbase⟩
    have hsub : Idx.sub ranks 1 = .ok (ranks - 1) := Idx.sub_eq_ok_iff.mpr ⟨by
      simp only [Idx.InRange, Idx.min]
      omega, rfl⟩
    simp only [shareOfGlobal, guard_eq_ok, bind_eq_ok, liftM_checked_eq_ok]
    refine ⟨by omega, base, hdiv, hne, ranks - 1, hsub, ?_⟩
    by_cases hlastIndex : index = ranks - 1
    · simp only [if_pos hlastIndex, bind_eq_ok, liftM_checked_eq_ok, Idx.mul_eq_ok_iff,
        Idx.sub_eq_ok_iff, pure_eq_ok]
      exact ⟨_, ⟨hrange _ hlast.1 hlast.2, rfl⟩, _, ⟨hrange _ (by omega) (by omega), rfl⟩, _,
        ⟨hrange _ hindex.1 hindex.2, rfl⟩, rfl⟩
    · simp only [if_neg hlastIndex, bind_eq_ok, liftM_checked_eq_ok, Idx.mul_eq_ok_iff, pure_eq_ok,
        exists_eq_left]
      exact ⟨_, ⟨hrange _ hindex.1 hindex.2, rfl⟩, rfl⟩

/-- The rank at some indices can take its share in a dimension: it follows from sizes that are in
range and consists of whole clusters. -/
def TakesShare (c : Catalog) (grid indices : DimVec) (s : Settings) (d : DimPlace) : Prop :=
  ∃ global asked size offset all, s.global.values[d.domainIndex]? = some global ∧
    s.localDomain.values[d.domainIndex]? = some asked ∧ global ≤ Idx.max ∧ asked ≤ Idx.max ∧
    Share (grid.getD d.name 1) (indices.getD d.name 0) global asked size offset all ∧
    size.tmod (c.cluster.getD d.name 1) = 0

/-- Placing other dimensions does not touch the sizes of this one. -/
theorem TakesShare.of_agreeOff {c : Catalog} {grid indices g l : DimVec} {s : Settings}
    {d : DimPlace} {posns : List Nat} (h : TakesShare c grid indices s d)
    (hd : d.domainIndex ∉ posns) (hg : AgreeOff posns s.global g)
    (hl : AgreeOff posns s.localDomain l) : TakesShare c grid indices (withShares s g l) d := by
  obtain ⟨global, asked, size, offset, all, hglobal, hasked, h⟩ := h
  exact ⟨global, asked, size, offset, all, (hg.2 _ hd).trans hglobal, (hl.2 _ hd).trans hasked, h⟩

/-- The rank has an index in a dimension, and the dimension has clusters. -/
structure Stands (c : Catalog) (grid indices : DimVec) (d : DimPlace) : Prop where
  cluster : 0 < c.cluster.getD d.name 1
  ge : 0 ≤ indices.getD d.name 0
  lt : indices.getD d.name 0 < grid.getD d.name 1
  le_max : grid.getD d.name 1 ≤ Idx.max

theorem stands_of_inside {c : Catalog} {grid indices : DimVec} (hc : c.WellFormed)
    (hgrid : grid.names = c.domain.names) (hindices : indices.names = c.domain.names)
    (hin : List.Forall₂ (fun n x => 0 ≤ x ∧ x < n) grid.values indices.values)
    (hmax : ∀ n ∈ grid.values, n ≤ Idx.max) {d : DimPlace} (hd : d ∈ c.dimPlaces) :
    Stands c grid indices d := by
  have hname := (Catalog.mem_dimPlaces.mp hd).1
  obtain ⟨_, hn⟩ := DimVec.exists_value hgrid hname
  obtain ⟨hlt, -⟩ := List.getElem?_eq_some_iff.mp hn
  have hlt' : d.domainIndex < indices.values.length := hin.length_eq ▸ hlt
  -- Both vectors are in the order of the domain, so the lookups by name are at one position.
  have hcount : grid.getD d.name 1 = grid.values[d.domainIndex] :=
    hc.getD_eq hgrid hname (List.getElem?_eq_getElem hlt)
  have hindex : indices.getD d.name 0 = indices.values[d.domainIndex] :=
    hc.getD_eq hindices hname (List.getElem?_eq_getElem hlt')
  have hinside := hin.get hlt hlt'
  simp only [List.get_eq_getElem, ← hcount, ← hindex] at hinside
  refine ⟨(hc.cluster_getD (List.mem_of_getElem? hname) 1).1, hinside.1, hinside.2, ?_⟩
  rw [hcount]
  exact hmax _ (List.getElem_mem hlt)

section PlaceDims

variable {c : Catalog} {topology : Topology} {offsets : DimVec} {s : Settings}

theorem exists_placeDim {d : DimPlace} (v : Verbosity)
    (h : TakesShare c s.numRanks topology.indices s d)
    (hstands : Stands c s.numRanks topology.indices d) (hd : d.domainIndex < offsets.length) :
    ∃ offsets' s', (placeDim c topology offsets d).Yields v s offsets' s' := by
  obtain ⟨global, asked, size, offset, all, hglobal, hasked, hglobalMax, haskedMax, hshare, hmul⟩ :=
    h
  obtain ⟨hcluster, hge, hlt, hmax⟩ := hstands
  have hin : ∀ {t : DimVec} {n : Int}, t.values[d.domainIndex]? = some n →
      d.domainIndex < t.length := fun hn => by
    rw [← DimVec.length_values]
    exact (List.getElem?_eq_some_iff.mp hn).1
  have hrem : Idx.rem size (c.cluster.getD d.name 1) = .ok 0 := by
    have hpos := hshare.size_pos (by omega)
    have hle := hshare.size_le (by omega) hglobalMax haskedMax
    rw [Idx.rem_of_pos ⟨by simp only [Idx.min]; omega, hle⟩ hcluster, hmul]
  obtain ⟨offsets', hos⟩ := DimVec.exists_setAt hd offset
  obtain ⟨l, hl⟩ := DimVec.exists_setAt (hin hasked) size
  simp only [placeDim, Task.yields_bind_get, Task.yields_bind_checked, DimVec.nth_eq_ok_iff]
  by_cases hle : asked ≤ 0
  · -- the overall size is divided
    have hfound := shareOfGlobal_of_share d.name hshare hle hglobalMax hge hlt hmax
    refine ⟨offsets', { s with localDomain := l }, global, hglobal, asked, hasked, ?_⟩
    simp only [if_pos hle, Task.yields_bind_outcome, Task.yields_bind_checked, ite_not, ne_eq,
      Task.yields_guard_not, Task.yields_bind_modify, Task.yields_pure]
    exact ⟨(size, offset), hfound, offsets', hos, 0, hrem, rfl, l, hl, rfl, rfl⟩
  · cases hshare with
    | divided hasked' => exact absurd hasked' hle
    | given hpos hrange =>
      -- the sizes of the ranks before this one add up to less than those of all, which are in range
      have hmulOffset : Idx.mul asked (topology.indices.getD d.name 0) =
          .ok (asked * topology.indices.getD d.name 0) := by
        have hnonneg := Int.mul_nonneg hpos.le hge
        have hbelow := Int.mul_le_mul_of_nonneg_left hlt.le hpos.le
        refine Idx.mul_eq_ok_iff.mpr ⟨⟨by simp only [Idx.min]; omega, ?_⟩, rfl⟩
        exact Int.le_trans hbelow hrange.2
      have hall : Idx.mul asked (s.numRanks.getD d.name 1) =
          .ok (asked * s.numRanks.getD d.name 1) :=
        Idx.mul_eq_ok_iff.mpr ⟨hrange, rfl⟩
      obtain ⟨g, hg⟩ := DimVec.exists_setAt (hin hglobal) (asked * s.numRanks.getD d.name 1)
      by_cases hgiven : global ≤ 0
      · refine ⟨offsets', { s with global := g, localDomain := l }, global, hglobal, asked, hasked,
          ?_⟩
        simp only [if_neg hle, if_pos hgiven, Task.yields_bind_checked, Task.yields_bind_modify,
          Task.yields_bind_pure, ite_not, ne_eq, Task.yields_guard_not, Task.yields_pure]
        exact ⟨_, hall, g, hg, _, hmulOffset, offsets', hos, 0, hrem, rfl, l, hl, rfl, rfl⟩
      · refine ⟨offsets', { s with localDomain := l }, global, hglobal, asked, hasked, ?_⟩
        simp only [if_neg hle, if_neg hgiven, Task.yields_bind_checked, Task.yields_ite,
          Task.yields_bind_note, ite_self]
        simp only [Task.yields_bind_checked, Task.yields_bind_pure, Task.yields_bind_modify,
          ite_not, ne_eq, Task.yields_guard_not, Task.yields_pure]
        exact ⟨_, hall, _, hmulOffset, offsets', hos, 0, hrem, rfl, l, hl, rfl, rfl⟩

/-- A rank that can take its share in each of some dimensions is placed in them. -/
theorem exists_placeDims (topology : Topology) (offsets : DimVec) {ds : List DimPlace}
    (v : Verbosity)
    (hds : (ds.map (·.domainIndex)).Nodup)
    (h : ∀ d ∈ ds, TakesShare c s.numRanks topology.indices s d)
    (hstands : ∀ d ∈ ds, Stands c s.numRanks topology.indices d)
    (hlen : ∀ d ∈ ds, d.domainIndex < offsets.length) :
    ∃ offsets' s', (placeDims c topology offsets ds).Yields v s offsets' s' := by
  -- The first dimension is placed with the sizes as they are; the others do not notice, because
  -- each dimension has a position of its own.
  induction ds generalizing offsets s with
  | nil => exact ⟨offsets, s, Task.yields_pure.mpr ⟨rfl, rfl⟩⟩
  | cons d ds ih =>
    obtain ⟨offsets₁, s₁, hfirst⟩ := exists_placeDim v (h d List.mem_cons_self)
      (hstands d List.mem_cons_self) (hlen d List.mem_cons_self)
    obtain ⟨g, l, rfl, hplaces⟩ := placesDims_of_placeDim hfirst
    obtain ⟨hnew, hnodup⟩ := List.nodup_cons.mp hds
    have hlength : offsets₁.length = offsets.length := by
      rw [← DimVec.length_names, hplaces.offsets.1, DimVec.length_names]
    obtain ⟨offsets₂, s₂, hrest⟩ := ih offsets₁ hnodup (s := withShares s g l)
      (fun e he => (h e (List.mem_cons_of_mem _ he)).of_agreeOff
        (fun hmem => hnew (List.mem_map.mpr ⟨e, he, List.mem_singleton.mp hmem⟩))
        hplaces.global hplaces.localDomain)
      (fun e he => hstands e (List.mem_cons_of_mem _ he))
      (fun e he => hlength ▸ hlen e (List.mem_cons_of_mem _ he))
    refine ⟨offsets₂, s₂, ?_⟩
    rw [placeDims, Task.yields_bind]
    exact ⟨offsets₁, _, hfirst, hrest⟩

end PlaceDims

/-! ### One rank and the others -/

/-- In every dimension in which the overall size is divided, the last share consists of whole
clusters if and only if the others do. -/
def Settings.DividesAlike (s : Settings) (c : Catalog) (grid : DimVec) : Prop :=
  ∀ dim ∈ c.domain.names, 0 < s.global.getD dim 0 → s.localDomain.getD dim 0 ≤ 0 →
    (c.cluster.getD dim 1 ∣ s.global.getD dim 0 / grid.getD dim 1 ↔
      c.cluster.getD dim 1 ∣ s.global.getD dim 0 -
        s.global.getD dim 0 / grid.getD dim 1 * (grid.getD dim 1 - 1))

instance (s : Settings) (c : Catalog) (grid : DimVec) : Decidable (s.DividesAlike c grid) :=
  inferInstanceAs (Decidable (∀ dim ∈ c.domain.names, _))

namespace Placed

variable {c : Catalog} {a ranks : Nat} {s s₁ : Settings} {p : Placement}

/-- What one rank has been given in a dimension, another one can be given too. -/
theorem takesShare (h : Placed c a ranks s p s₁) (hc : c.WellFormed) (hs : s.Shaped c)
    (halike : s.DividesAlike c s₁.numRanks) {d : DimPlace} (hd : d ∈ c.dimPlaces)
    (indices : DimVec) : TakesShare c s₁.numRanks indices s d := by
  obtain ⟨global, asked, size, offset, all, hglobal, hasked, hshare, hmul, -⟩ := h.share d hd
  have hname := (Catalog.mem_dimPlaces.mp hd).1
  have hglobalMax := (hs.inRange .global global (List.mem_of_getElem? hglobal)).2
  have haskedMax := (hs.inRange (.level .localDomain) asked (List.mem_of_getElem? hasked)).2
  cases hshare with
  | given hpos hrange =>
    exact ⟨global, asked, _, _, _, hglobal, hasked, hglobalMax, haskedMax, .given hpos hrange, hmul⟩
  | @divided base hle hpos hbase hne =>
    refine ⟨global, asked, _, _, _, hglobal, hasked, hglobalMax, haskedMax,
      .divided hle hpos hbase hne, ?_⟩
    have hsame := halike d.name (List.mem_of_getElem? hname)
    rw [show s.global.getD d.name 0 = global from hc.getD_eq (hs.names .global) hname hglobal,
      show s.localDomain.getD d.name 0 = asked from
        hc.getD_eq (hs.names (.level .localDomain)) hname hasked] at hsame
    have hsame := hsame hpos hle
    rw [← Int.tdiv_eq_ediv_of_nonneg (by omega), ← hbase] at hsame
    rw [← Int.dvd_iff_tmod_eq_zero] at hmul ⊢
    -- a share is one of two, and both consist of whole clusters or neither does
    split at hmul <;> split
    · exact hmul
    · exact hsame.mpr hmul
    · exact hsame.mp hmul
    · exact hmul

end Placed

/-- The grid of a rank that was placed is one to build topologies in. -/
theorem buildable_of_placeRank {c : Catalog} {me ranks : Nat} {s s' : Settings} {p : Placement}
    {v : Verbosity} (hgrid : ∀ n ∈ s.numRanks.values, Idx.InRange n)
    (h : (placeRank c me ranks).Yields v s p s') : Topology.Buildable s'.numRanks := by
  have hplaced := placed_of_yields hgrid h
  have hmax : ∀ n ∈ s'.numRanks.values, n ≤ Idx.max := fun n hn =>
    (hplaced.grid.inRange hgrid n hn).2
  simp only [placeRank, Task.yields_bind (x := Task.zoom _ _ _), Task.yields_zoom,
    Task.yields_bind_get] at h
  obtain ⟨_, _, ⟨grid, hfill, rfl⟩, h⟩ := h
  obtain rfl := (Fills.of_yields hfill).unique hplaced.grid
  split at h
  · simp only [Task.yields_bind_modify, Task.yields_bind_get, Task.yields_bind_stateless] at h
    obtain ⟨topology, hbuild, -⟩ := h
    exact Topology.buildable_of_build hmax hbuild
  · simp only [Task.yields_bind_get, Task.yields_bind_stateless] at h
    obtain ⟨topology, hbuild, -⟩ := h
    exact Topology.buildable_of_build hmax hbuild

/-- If one rank is placed and the overall sizes divide alike, every other rank is placed too. -/
theorem exists_placeRank {c : Catalog} {a b ranks : Nat} {s s₁ : Settings} {p : Placement}
    {v : Verbosity} (w : Verbosity) (hc : c.WellFormed) (hs : s.Shaped c)
    (hexplicit : s.explicitRankIndices = false) (hbound : ranks < Word.bound) (hb : b < ranks)
    (halike : s.DividesAlike c s₁.numRanks) (h : (placeRank c a ranks).Yields v s p s₁) :
    ∃ q s₂, (placeRank c b ranks).Yields w s q s₂ := by
  have hgrid := hs.inRange .numRanks
  have hplaced := placed_of_yields hgrid h
  have hbuildable := buildable_of_placeRank hgrid h
  have hnames := hplaced.names_numRanks hs
  have hprod := hplaced.grid.prod_eq hgrid (by omega) hbound hbuildable
  obtain ⟨hin, hnumber⟩ := DimVec.unlayout_spec hbuildable.pos (hprod.symm ▸ hb)
  have hplace : (s₁.numRanks.unlayout b).names = s₁.numRanks.names := DimVec.names_withValues _ _
  obtain ⟨topology, hbuild, hindices, hrank⟩ := hbuildable.exists_build (v := w)
    (hnames ▸ hc.nodup) hplace hin
  rw [hnumber] at hrank
  -- the settings as they are when the dimensions are placed
  obtain ⟨offsets, s₂, hdims⟩ := exists_placeDims topology (c.domainVec 0)
    (s := { s with numRanks := s₁.numRanks, rankIndices := s₁.numRanks.unlayout b }) w
    (Catalog.nodup_domainIndex c) (fun d hd => hplaced.takesShare hc hs halike hd _)
    (fun d hd => hindices ▸ stands_of_inside hc hnames (hplace.trans hnames) hin
      hbuildable.le_max hd)
    (fun d hd => by
      rw [← DimVec.length_names, Catalog.names_domainVec]
      exact (List.getElem?_eq_some_iff.mp (Catalog.mem_dimPlaces.mp hd).1).1)
  refine ⟨⟨topology, offsets⟩, { s₂ with rankIndices := topology.indices }, ?_⟩
  simp only [placeRank, Task.yields_bind (x := Task.zoom _ _ _), Task.yields_zoom,
    Task.yields_bind_get]
  refine ⟨(), _, ⟨s₁.numRanks, hplaced.grid.yields w, rfl⟩, ?_⟩
  rw [hexplicit] at hdims
  simp only [hexplicit, Bool.false_eq_true, not_false_eq_true, if_true, Task.yields_bind_modify,
    Task.yields_bind_get, Task.yields_bind_stateless, Task.yields_guard,
    Task.yields_bind (x := placeDims _ _ _ _), Task.yields_bind_note, Task.yields_pure, ne_eq,
    not_not]
  exact ⟨topology, hbuild, hrank, offsets, s₂, hdims, rfl, rfl⟩

/-- All ranks are placed or none is, if they share settings without rank indices that divide alike.
How much each of them writes into its journal has no part in it. -/
theorem placeRank_all_or_none {c : Catalog} {s : Settings} {ranks : Nat} {v : Nat → Verbosity}
    (hc : c.Built) (hs : s.Reachable c) (hexplicit : s.explicitRankIndices = false)
    (hbound : ranks < Word.bound)
    (halike : ∀ grid, Fills ranks s.numRanks grid → s.DividesAlike c grid) :
    (∀ k < ranks, ∃ p s', (placeRank c k ranks).Yields (v k) s p s') ∨
      ∀ k < ranks, ∀ p s', ¬ (placeRank c k ranks).Yields (v k) s p s' := by
  by_cases hsome : ∃ a < ranks, ∃ p s', (placeRank c a ranks).Yields (v a) s p s'
  · obtain ⟨a, -, p, s', h⟩ := hsome
    have hplaced := placed_of_yields (hs.shaped.inRange .numRanks) h
    refine .inl fun b hb => ?_
    exact exists_placeRank (v b) hc.wellFormed hs.shaped hexplicit hbound hb
      (halike _ hplaced.grid) h
  · exact .inr fun k hk p s' h => hsome ⟨k, hk, p, s', h⟩

namespace Leftover

/-- A line. -/
def line : Catalog := (Catalog.declare "t" ["x"] []).toOption.getD default

/-- A line in clusters of three points. -/
def catalog : Catalog := (line.withClusterFolds [3]).toOption.getD default

/-- The points are to be divided. -/
def settings (points : String) : Settings :=
  ((Settings.setOption catalog "gx" points).run none (.initial catalog 1)).state

theorem built : catalog.Built :=
  .cluster (.declare (show Catalog.declare "t" ["x"] [] = .ok line by decide +kernel))
    (show line.withClusterFolds [3] = .ok catalog by decide +kernel)

theorem reachable (points : String) : (settings points).Reachable catalog :=
  .option (.initial 1) "gx" points none

end Leftover

/-- Three ranks can have three of nine points each, and the first one is placed, so they all are. -/
theorem placeRank_all_or_none_nine :
    (Leftover.settings "9").explicitRankIndices = false ∧ 3 < Word.bound ∧
    (∀ grid, Fills 3 (Leftover.settings "9").numRanks grid →
      (Leftover.settings "9").DividesAlike Leftover.catalog grid) ∧
    ∀ k < 3, ∃ p s', (placeRank Leftover.catalog k 3).Yields none (Leftover.settings "9") p s' := by
  have hexplicit : (Leftover.settings "9").explicitRankIndices = false := by decide +kernel
  have halike : ∀ grid, Fills 3 (Leftover.settings "9").numRanks grid →
      (Leftover.settings "9").DividesAlike Leftover.catalog grid := by
    intro grid hgrid
    -- A grid is filled in one way only, so it is enough to look at what comes out.
    obtain ⟨_, hfill, hdivides⟩ := exists_eq_ok_of_any
      (x := ((fillGrid 3).run none (Leftover.settings "9").numRanks).result)
      (p := fun _ => decide ((Leftover.settings "9").DividesAlike Leftover.catalog
        ((fillGrid 3).run none (Leftover.settings "9").numRanks).state)) (by decide +kernel)
    rw [hgrid.unique (.of_yields (Task.yields_of_result hfill))]
    exact of_decide_eq_true hdivides
  refine ⟨hexplicit, by decide, halike, ?_⟩
  apply (placeRank_all_or_none (v := fun _ => none) Leftover.built (Leftover.reachable "9")
    hexplicit (by decide) halike).resolve_right
  intro hnone
  obtain ⟨p, hp, -⟩ := exists_eq_ok_of_any (p := fun _ => true)
    (x := ((placeRank Leftover.catalog 0 3).run none (Leftover.settings "9")).result)
    (by decide +kernel)
  exact hnone 0 (by decide) p _ (Task.yields_of_result hp)

/-- Of ten points the last of three ranks would have four, which are not whole clusters. The others
are placed. -/
theorem leftover_refused : ∃ (c : Catalog) (s : Settings), c.Built ∧ s.Reachable c ∧
    s.explicitRankIndices = false ∧ (∃ p s', (placeRank c 0 3).Yields none s p s') ∧
    (∃ p s', (placeRank c 1 3).Yields none s p s') ∧
    ((placeRank c 2 3).run none s).result =
      .error (.tiling (.notMultiple .localDomain "x" 4 3)) := by
  have hruns : ∀ k < 2, ∃ p s', (placeRank Leftover.catalog k 3).Yields none
      (Leftover.settings "10") p s' := by
    have hok : ∀ k < 2, ((placeRank Leftover.catalog k 3).run none
        (Leftover.settings "10")).result.toOption.any (fun _ => true) = true := by decide +kernel
    intro k hk
    obtain ⟨p, hp, -⟩ := exists_eq_ok_of_any (hok k hk)
    exact ⟨p, _, Task.yields_of_result hp⟩
  refine ⟨Leftover.catalog, Leftover.settings "10", Leftover.built, Leftover.reachable "10",
    by decide +kernel, hruns 0 (by decide), hruns 1 (by decide), ?_⟩
  have hrefused : (match
      ((placeRank Leftover.catalog 2 3).run none (Leftover.settings "10")).result with
      | .error e => decide (e = .tiling (.notMultiple .localDomain "x" 4 3))
      | .ok _ => false) = true := by decide +kernel
  cases hresult : ((placeRank Leftover.catalog 2 3).run none (Leftover.settings "10")).result with
  | ok p =>
    rw [hresult] at hrefused
    cases hrefused
  | error e =>
    rw [hresult] at hrefused
    rw [of_decide_eq_true hrefused]

end StencilPlan
