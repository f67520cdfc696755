import Mathlib.Algebra.BigOperators.Group.List.Lemmas
import Mathlib.Algebra.Order.BigOperators.GroupWithZero.List
import Mathlib.Algebra.Order.Ring.Int
import StencilPlan.Rank.Placement
import StencilPlan.Proofs.Dim.Catalog
import StencilPlan.Proofs.Rank.Grid
import StencilPlan.Proofs.Rank.Topology

/-!
# Where ranks are placed

Each rank works out its share by itself, from the same settings. In one dimension the share is
given by `Share`: the size and start that follow from the sizes asked for and the index of the rank.
Ranks with the same index get the same share, and the share of the next rank starts where that of
the one before it ends. A successful placement is a topology of the filled grid and a share in
every dimension (`Placed`).
-/

namespace StencilPlan

/-! ### The share in one dimension -/

/-- Of `ranks` ranks in a dimension, the one with an index gets `size` points from `offset` on, and
the overall size comes to be `all`. Either the overall size is divided, and the last rank takes
what is left over, or every rank has the size asked for. -/
inductive Share (ranks index global asked : Int) : (size offset all : Int) → Prop
  | divided {base : Int} (hasked : asked ≤ 0) (hglobal : 0 < global)
      (hbase : base = global.tdiv ranks) (hne : base ≠ 0) :
      Share ranks index global asked
        (if index = ranks - 1 then global - base * (ranks - 1) else base) (base * index) global
  | given (hasked : 0 < asked) (hrange : Idx.InRange (asked * ranks)) :
      Share ranks index global asked asked (asked * index)
        (if global ≤ 0 then asked * ranks else global)

namespace Share

variable {ranks index global asked size offset all size' offset' all' : Int}

theorem unique (h : Share ranks index global asked size offset all)
    (h' : Share ranks index global asked size' offset' all') :
    size = size' ∧ offset = offset' ∧ all = all' := by
  cases h with
  | divided hasked hglobal hbase =>
    cases h' with
    | divided _ _ hbase' => subst hbase hbase'; exact ⟨rfl, rfl, rfl⟩
    | given hasked' => omega
  | given hasked =>
    cases h' with
    | divided hasked' => omega
    | given => exact ⟨rfl, rfl, rfl⟩

/-- What is divided is at least as many times the quotient. -/
theorem base_mul_le {base : Int} (hranks : 0 < ranks) (hglobal : 0 < global)
    (hbase : base = global.tdiv ranks) : 0 ≤ base ∧ base * ranks ≤ global := by
  rw [hbase, Int.tdiv_eq_ediv_of_nonneg (by omega)]
  exact ⟨Int.ediv_nonneg (by omega) (by omega), Int.ediv_mul_le _ (by omega)⟩

theorem size_pos (h : Share ranks index global asked size offset all) (hranks : 1 ≤ ranks) :
    0 < size := by
  cases h with
  | given hasked => exact hasked
  | @divided base hasked hglobal hbase hne =>
    obtain ⟨hpos, hle⟩ := base_mul_le hranks hglobal hbase
    -- the last rank gets no less than the others
    split
    · rw [Int.mul_sub, Int.mul_one]
      omega
    · omega

theorem size_le (h : Share ranks index global asked size offset all) (hranks : 1 ≤ ranks)
    (hglobal : global ≤ Idx.max) (hasked : asked ≤ Idx.max) : size ≤ Idx.max := by
  cases h with
  | given => exact hasked
  | @divided base hasked hpos hbase hne =>
    obtain ⟨hge, hle⟩ := base_mul_le hranks hpos hbase
    have hbefore : 0 ≤ base * (ranks - 1) := Int.mul_nonneg hge (by omega)
    have hsplit : base * ranks = base * (ranks - 1) + base := by rw [Int.mul_sub]; omega
    split <;> omega

/-- A rank that is not the last one leaves room for as much again. -/
theorem two_mul_size_le (h : Share ranks index global asked size offset all)
    (hlast : index + 1 < ranks) (hranks : 2 ≤ ranks) (hglobal : global ≤ Idx.max) :
    2 * size ≤ Idx.max := by
  have hmul : ∀ n : Int, 0 ≤ n → n * ranks ≤ Idx.max → 2 * n ≤ Idx.max := by
    intro n hn hle
    have := Int.mul_le_mul_of_nonneg_left hranks hn
    omega
  cases h with
  | given hasked hrange => exact hmul _ (by omega) hrange.2
  | @divided base hasked hpos hbase hne =>
    rw [if_neg (by omega)]
    obtain ⟨hge, hle⟩ := base_mul_le (by omega) hpos hbase
    exact hmul base hge (Int.le_trans hle hglobal)

/-- The next rank starts where a rank ends. -/
theorem next (h : Share ranks index global asked size offset all)
    (h' : Share ranks (index + 1) global asked size' offset' all') (hlast : index + 1 < ranks) :
    offset' = offset + size := by
  cases h with
  | divided hasked hglobal hbase =>
    cases h' with
    | divided _ _ hbase' =>
      subst hbase hbase'
      rw [if_neg (by omega), Int.mul_add, Int.mul_one]
    | given hasked' => omega
  | given hasked =>
    cases h' with
    | divided hasked' => omega
    | given => rw [Int.mul_add, Int.mul_one]

end Share

theorem shareOfGlobal_eq_ok {dim : String} {global ranks index : Int} {p : Int × Int}
    (h : shareOfGlobal dim global ranks index = .ok p) {asked : Int} (hasked : asked ≤ 0) :
    Share ranks index global asked p.1 p.2 global := by
  simp only [shareOfGlobal, guard_eq_ok, bind_eq_ok, liftM_checked_eq_ok, Idx.div_eq_ok_iff,
    Idx.sub_eq_ok_iff] at h
  obtain ⟨hglobal, base, ⟨-, -, hbase⟩, hne, last, ⟨-, rfl⟩, h⟩ := h
  -- The last rank is a branch of its own in the definition and a conditional in the share.
  have hshare : Share ranks index global asked
      (if index = ranks - 1 then global - base * (ranks - 1) else base) (base * index) global :=
    .divided hasked (by omega) hbase hne
  split at h
  · next hidx =>
    simp only [bind_eq_ok, liftM_checked_eq_ok, Idx.sub_eq_ok_iff, Idx.mul_eq_ok_iff,
      pure_eq_ok] at h
    obtain ⟨_, ⟨-, rfl⟩, _, ⟨-, rfl⟩, _, ⟨-, rfl⟩, rfl⟩ := h
    simpa [hidx] using hshare
  · next hidx =>
    simp only [bind_eq_ok, liftM_checked_eq_ok, Idx.mul_eq_ok_iff, pure_eq_ok,
      exists_eq_left] at h
    obtain ⟨_, ⟨-, rfl⟩, rfl⟩ := h
    simpa [hidx] using hshare

/-! ### All dimensions -/

/-- Settings that differ at most in the overall and the local sizes. -/
def withShares (s : Settings) (global localDomain : DimVec) : Settings :=
  { s with global, localDomain }

/-- The share of a rank in one dimension, entered in `offsets`, `g` and `l` at the position of the
dimension. It follows from the sizes in `s`. -/
def ShareAt (c : Catalog) (grid indices : DimVec) (d : DimPlace) (s : Settings)
    (offsets g l : DimVec) : Prop :=
  ∃ global asked size offset all, s.global.values[d.domainIndex]? = some global ∧
    s.localDomain.values[d.domainIndex]? = some asked ∧
    Share (grid.getD d.name 1) (indices.getD d.name 0) global asked size offset all ∧
    size.tmod (c.cluster.getD d.name 1) = 0 ∧
    offsets.values[d.domainIndex]? = some offset ∧ g.values[d.domainIndex]? = some all ∧
    l.values[d.domainIndex]? = some size

/-- Two vectors of the same dimensions that agree except at some positions. -/
def AgreeOff (posns : List Nat) (t u : DimVec) : Prop :=
  u.names = t.names ∧ ∀ k, k ∉ posns → u.values[k]? = t.values[k]?

theorem AgreeOff.of_setAt {t u : DimVec} {i : Nat} {v : Int} (h : t.setAt i v = .ok u) :
    AgreeOff [i] t u ∧ u.values[i]? = some v := by
  obtain ⟨hlen, hnames, hvalues⟩ := DimVec.setAt_eq_ok_iff.mp h
  refine ⟨⟨hnames, fun k hk => ?_⟩, ?_⟩
  · rw [hvalues, List.getElem?_set_ne (fun h => hk (by simp [h]))]
  · rw [hvalues, List.getElem?_set_self (by simpa using hlen)]

theorem AgreeOff.refl (posns : List Nat) (t : DimVec) : AgreeOff posns t t := ⟨rfl, fun _ _ => rfl⟩

theorem AgreeOff.trans {ps qs : List Nat} {t u w : DimVec} (h : AgreeOff ps t u)
    (h' : AgreeOff qs u w) : AgreeOff (ps ++ qs) t w :=
  ⟨h'.1.trans h.1, fun k hk => by
    rw [List.mem_append, not_or] at hk
    rw [h'.2 k hk.2, h.2 k hk.1]⟩

/-- How the settings and the offsets change when some dimensions are placed. -/
structure PlacesDims (c : Catalog) (topology : Topology) (ds : List DimPlace) (s : Settings)
    (offsets offsets' : DimVec) (g l : DimVec) : Prop where
  global : AgreeOff (ds.map (·.domainIndex)) s.global g
  localDomain : AgreeOff (ds.map (·.domainIndex)) s.localDomain l
  offsets : AgreeOff (ds.map (·.domainIndex)) offsets offsets'
  share : ∀ d ∈ ds, ShareAt c s.numRanks topology.indices d s offsets' g l

theorem rem_eq_ok {a b r : Int} (h : Idx.rem a b = .ok r) : r = a.tmod b := by
  simp only [Idx.rem, bind_eq_ok, pure_eq_ok] at h
  obtain ⟨_, -, h⟩ := h
  exact h

theorem placesDims_of_placeDim {c : Catalog} {topology : Topology} {offsets offsets' : DimVec}
    {d : DimPlace} {v : Verbosity} {s s' : Settings}
    (h : (placeDim c topology offsets d).Yields v s offsets' s') :
    ∃ g l, s' = withShares s g l ∧ PlacesDims c topology [d] s offsets offsets' g l := by
  simp only [placeDim, Task.yields_bind_get, Task.yields_bind_checked,
    DimVec.nth_eq_ok_iff] at h
  obtain ⟨global, hglobal, asked, hasked, h⟩ := h
  -- Whatever the share, both of its numbers are entered in the same way.
  have hrest : ∀ {size offset all excess : Int} {g l : DimVec},
      AgreeOff [d.domainIndex] s.global g → g.values[d.domainIndex]? = some all →
      Share (s.numRanks.getD d.name 1) (topology.indices.getD d.name 0) global asked
        size offset all →
      offsets.setAt d.domainIndex offset = .ok offsets' →
      Idx.rem size (c.cluster.getD d.name 1) = .ok excess → excess = 0 →
      s.localDomain.setAt d.domainIndex size = .ok l → s' = withShares s g l →
      ∃ g l, s' = withShares s g l ∧ PlacesDims c topology [d] s offsets offsets' g l := by
    intro size offset all excess g l hg hgv hshare hos hrem hexcess hl hs'
    obtain ⟨hoa, hov⟩ := AgreeOff.of_setAt hos
    obtain ⟨hla, hlv⟩ := AgreeOff.of_setAt hl
    refine ⟨g, l, hs', hg, hla, hoa, fun e he => ?_⟩
    obtain rfl := List.mem_singleton.mp he
    exact ⟨global, asked, size, offset, all, hglobal, hasked, hshare,
      (rem_eq_ok hrem).symm.trans hexcess, hov, hgv, hlv⟩
  split at h
  · next hle =>
    simp only [Task.yields_bind_outcome, Task.yields_bind_checked, ite_not, ne_eq,
      Task.yields_guard_not, Task.yields_bind_modify, Task.yields_pure] at h
    obtain ⟨⟨size, offset⟩, hshare, _, hos, _, hrem, hexcess, l, hl, rfl, rfl⟩ := h
    exact hrest (.refl _ s.global) hglobal (shareOfGlobal_eq_ok hshare hle) hos hrem hexcess hl rfl
  · next hle =>
    simp only [Task.yields_bind_checked, Idx.mul_eq_ok_iff, Task.yields_ite,
      Task.yields_bind_note, ite_self] at h
    obtain ⟨all, ⟨hrange, rfl⟩, h⟩ := h
    have hshare : Share (s.numRanks.getD d.name 1) (topology.indices.getD d.name 0) global asked
        asked (asked * topology.indices.getD d.name 0)
        (if global ≤ 0 then asked * s.numRanks.getD d.name 1 else global) :=
      .given (by omega) hrange
    split at h
    · next hg =>
      simp only [Task.yields_bind_checked, Task.yields_bind_modify, Task.yields_bind_pure,
        Idx.mul_eq_ok_iff, ite_not, ne_eq, Task.yields_guard_not, Task.yields_pure] at h
      obtain ⟨g, hgset, _, ⟨-, rfl⟩, _, hos, _, hrem, hexcess, l, hl, rfl, rfl⟩ := h
      obtain ⟨hga, hgv⟩ := AgreeOff.of_setAt hgset
      rw [if_pos hg] at hshare
      exact hrest hga hgv hshare hos hrem hexcess hl rfl
    · next hg =>
      rw [if_neg hg] at hshare
      simp only [Task.yields_bind_checked, Task.yields_bind_pure, Task.yields_bind_modify,
        ite_not, ne_eq, Task.yields_guard_not, Task.yields_pure] at h
      obtain ⟨_, ⟨-, rfl⟩, _, hos, _, hrem, hexcess, l, hl, rfl, rfl⟩ := h
      exact hrest (.refl _ s.global) hglobal hshare hos hrem hexcess hl rfl

/-- A share that is not touched any more stays entered. -/
theorem ShareAt.of_agreeOff {c : Catalog} {grid indices : DimVec} {d : DimPlace} {s : Settings}
    {posns : List Nat} {offsets g l offsets' g' l' : DimVec}
    (h : ShareAt c grid indices d s offsets g l) (hd : d.domainIndex ∉ posns)
    (ho : AgreeOff posns offsets offsets') (hg : AgreeOff posns g g') (hl : AgreeOff posns l l') :
    ShareAt c grid indices d s offsets' g' l' := by
  obtain ⟨global, asked, size, offset, all, hglobal, hasked, hshare, hmul, hov, hgv, hlv⟩ := h
  exact ⟨global, asked, size, offset, all, hglobal, hasked, hshare, hmul,
    (ho.2 _ hd).trans hov, (hg.2 _ hd).trans hgv, (hl.2 _ hd).trans hlv⟩

/-- A share found after other dimensions were placed is the share that was to be had before. -/
theorem ShareAt.of_before {c : Catalog} {grid indices : DimVec} {d : DimPlace} {s : Settings}
    {posns : List Nat} {offsets g l g₁ l₁ : DimVec}
    (h : ShareAt c grid indices d (withShares s g₁ l₁) offsets g l) (hd : d.domainIndex ∉ posns)
    (hg : AgreeOff posns s.global g₁) (hl : AgreeOff posns s.localDomain l₁) :
    ShareAt c grid indices d s offsets g l := by
  obtain ⟨global, asked, size, offset, all, hglobal, hasked, hrest⟩ := h
  exact ⟨global, asked, size, offset, all, (hg.2 _ hd).symm.trans hglobal,
    (hl.2 _ hd).symm.trans hasked, hrest⟩

theorem placesDims_of_yields {c : Catalog} {topology : Topology} {ds : List DimPlace}
    {offsets offsets' : DimVec} {v : Verbosity} {s s' : Settings}
    (hds : (ds.map (·.domainIndex)).Nodup)
    (h : (placeDims c topology offsets ds).Yields v s offsets' s') :
    ∃ g l, s' = withShares s g l ∧ PlacesDims c topology ds s offsets offsets' g l := by
  induction ds generalizing offsets s with
  | nil =>
    simp only [placeDims, Task.yields_pure] at h
    obtain ⟨rfl, rfl⟩ := h
    exact ⟨s'.global, s'.localDomain, rfl, .refl _ _, .refl _ _, .refl _ _, by simp⟩
  | cons d ds ih =>
    simp only [placeDims, Task.yields_bind] at h
    obtain ⟨offsets₁, s₁, hfirst, h⟩ := h
    obtain ⟨g₁, l₁, rfl, hd⟩ := placesDims_of_placeDim hfirst
    obtain ⟨hnew, hnodup⟩ := List.nodup_cons.mp hds
    obtain ⟨g, l, rfl, hrest⟩ := ih hnodup h
    -- A dimension is placed once: the later ones leave its share, the earlier ones its settings.
    refine ⟨g, l, rfl, hd.global.trans hrest.global, hd.localDomain.trans hrest.localDomain,
      hd.offsets.trans hrest.offsets, fun e he => ?_⟩
    rcases List.mem_cons.mp he with rfl | he
    · exact (hd.share e (by simp)).of_agreeOff hnew hrest.offsets hrest.global hrest.localDomain
    · refine (hrest.share e he).of_before ?_ hd.global hd.localDomain
      intro hmem
      exact hnew (List.mem_map.mpr ⟨e, he, List.mem_singleton.mp hmem⟩)

/-! ### The whole placement -/

/-- Rank `me` is placed: what stands in the settings and in the placement afterwards. -/
structure Placed (c : Catalog) (me ranks : Nat) (s : Settings) (p : Placement) (s' : Settings) :
    Prop where
  grid : Fills ranks s.numRanks s'.numRanks
  topology : p.topology.Sound s'.numRanks
  topology_grid : p.topology.grid = s'.numRanks
  rank : p.topology.rank = me
  settings : s' = { withShares s s'.global s'.localDomain with
    numRanks := s'.numRanks, rankIndices := p.topology.indices }
  names_offsets : p.offsets.names = c.domain.names
  names_global : s'.global.names = s.global.names
  names_localDomain : s'.localDomain.names = s.localDomain.names
  share : ∀ d ∈ c.dimPlaces,
    ShareAt c s'.numRanks p.topology.indices d s p.offsets s'.global s'.localDomain

theorem placed_of_yields {c : Catalog} {me ranks : Nat} {s s' : Settings} {p : Placement}
    {v : Verbosity} (hgrid : ∀ n ∈ s.numRanks.values, Idx.InRange n)
    (h : (placeRank c me ranks).Yields v s p s') : Placed c me ranks s p s' := by
  simp only [placeRank, Task.yields_bind (x := Task.zoom _ _ _), Task.yields_zoom] at h
  obtain ⟨_, _, ⟨grid, hfill, rfl⟩, h⟩ := h
  have hfills := Fills.of_yields hfill
  -- Giving the rank indices a value changes nothing else.
  have hrest : ∀ {s₁ s₂ : Settings} {topology : Topology} {offsets : DimVec},
      s₁ = { s with numRanks := grid, rankIndices := s₁.rankIndices } →
      (Topology.build s₁.numRanks s₁.rankIndices).Yields v () topology () → topology.rank = me →
      (placeDims c topology (c.domainVec 0) c.dimPlaces).Yields v s₁ offsets s₂ →
      Placed c me ranks s ⟨topology, offsets⟩ { s₂ with rankIndices := topology.indices } := by
    intro s₁ s₂ topology offsets hs₁ hbuild hrank hdims
    have hnum : s₁.numRanks = grid := by rw [hs₁]
    rw [hnum] at hbuild
    obtain ⟨htgrid, hsound⟩ :=
      Topology.sound_of_build (fun n hn => (hfills.inRange hgrid n hn).2) hbuild
    obtain ⟨g, l, rfl, hplaces⟩ := placesDims_of_yields (Catalog.nodup_domainIndex c) hdims
    have hshare := hplaces.share
    have hglobal := hplaces.global.1
    have hlocal := hplaces.localDomain.1
    rw [hs₁] at hshare hglobal hlocal ⊢
    exact ⟨hfills, hsound, htgrid, hrank, rfl,
      hplaces.offsets.1.trans (c.names_domainVec 0), hglobal, hlocal, hshare⟩
  simp only [Task.yields_bind_get] at h
  split at h
  · simp only [Task.yields_bind_modify, Task.yields_bind_get, Task.yields_bind_stateless,
      Task.yields_guard, Task.yields_bind (x := placeDims _ _ _ _), Task.yields_bind_note,
      Task.yields_pure, ne_eq, not_not] at h
    obtain ⟨topology, hbuild, hrank, offsets, s₂, hdims, rfl, rfl⟩ := h
    exact hrest rfl hbuild hrank hdims
  · simp only [Task.yields_bind_modify, Task.yields_bind_get, Task.yields_bind_stateless,
      Task.yields_guard, Task.yields_bind (x := placeDims _ _ _ _), Task.yields_bind_note,
      Task.yields_pure, ne_eq, not_not] at h
    obtain ⟨topology, hbuild, hrank, offsets, s₂, hdims, rfl, rfl⟩ := h
    exact hrest rfl hbuild hrank hdims

/-- The counts of a grid that was filled fit into 64 bits. -/
theorem Placed.of_yields {c : Catalog} {me ranks : Nat} {s s' : Settings} {p : Placement}
    {v : Verbosity} (h : (placeRank c me ranks).Yields v s p s') : Placed c me ranks s p s' := by
  have hfirst := h
  simp only [placeRank, Task.yields_bind (x := Task.zoom _ _ _), Task.yields_zoom] at hfirst
  obtain ⟨_, _, ⟨grid, hfill, -⟩, -⟩ := hfirst
  exact placed_of_yields (Fills.of_yields hfill).grid_inRange h

end StencilPlan
