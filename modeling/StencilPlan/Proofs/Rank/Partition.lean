import StencilPlan.Proofs.Dim.Box
import StencilPlan.Proofs.Rank.Placement
import StencilPlan.Proofs.Settings.Reachable

/-!
# Local domains partition the domain

No rank tells another one where its local domain lies; each works it out from its own copy of the
settings. The results fit: the shares in one dimension follow each other without a gap from the
first point to the last (`Share.inside`, `Share.before`, `Share.exists_index`), every place of the
grid is that of one rank, and so every point of the domain belongs to one rank.
-/

namespace StencilPlan

/-! ### Shares in one dimension -/

namespace Share

variable {ranks index index' global asked size offset all size' offset' all' : Int}

theorem all_eq (h : Share ranks index global asked size offset all)
    (h' : Share ranks index' global asked size' offset' all') : all = all' := by
  cases h with
  | divided hasked =>
    cases h' with
    | divided => rfl
    | given hasked' => omega
  | given hasked =>
    cases h' with
    | divided hasked' => omega
    | given => rfl

/-- A share lies in the domain, unless sizes were given that do not fit together. -/
theorem inside (h : Share ranks index global asked size offset all)
    (hfit : 0 < global → 0 < asked → global = asked * ranks) (hge : 0 ≤ index)
    (hlt : index < ranks) : 0 ≤ offset ∧ offset + size ≤ all := by
  cases h with
  | @divided base hasked hglobal hbase hne =>
    obtain ⟨hpos, hle⟩ := base_mul_le (by omega) hglobal hbase
    refine ⟨Int.mul_nonneg hpos hge, ?_⟩
    by_cases hlast : index = ranks - 1
    · rw [if_pos hlast, hlast]
      omega
    · rw [if_neg hlast]
      have hnext : base * (index + 1) ≤ base * ranks :=
        Int.mul_le_mul_of_nonneg_left (by omega) hpos
      rw [Int.mul_add, Int.mul_one] at hnext
      omega
  | given hasked hrange =>
    refine ⟨Int.mul_nonneg (by omega) hge, ?_⟩
    have hnext : asked * (index + 1) ≤ asked * ranks :=
      Int.mul_le_mul_of_nonneg_left (by omega) (by omega)
    rw [Int.mul_add, Int.mul_one] at hnext
    split
    · exact hnext
    · have := hfit (by omega) hasked
      omega

/-- A share ends before those of greater indices start. -/
theorem before (h : Share ranks index global asked size offset all)
    (h' : Share ranks index' global asked size' offset' all') (hlt : index < index')
    (hlast : index' < ranks) (hge : 0 ≤ index) : offset + size ≤ offset' := by
  cases h with
  | @divided base hasked hglobal hbase hne =>
    cases h' with
    | @divided base' _ _ hbase' =>
      obtain rfl : base' = base := hbase'.trans hbase.symm
      obtain ⟨hpos, -⟩ := base_mul_le (by omega) hglobal hbase
      -- The first of the two is not the last rank, so its size is the base.
      have hnext := Int.mul_le_mul_of_nonneg_left (show index + 1 ≤ index' from hlt) hpos
      rw [Int.mul_add, Int.mul_one] at hnext
      rw [if_neg (by omega)]
      exact hnext
    | given hasked' => omega
  | given hasked =>
    cases h' with
    | divided hasked' => omega
    | given =>
      have hnext := Int.mul_le_mul_of_nonneg_left (show index + 1 ≤ index' from hlt)
        (show 0 ≤ asked by omega)
      rwa [Int.mul_add, Int.mul_one] at hnext

/-- Every point lies in the share of some index. -/
theorem exists_index (h : Share ranks index global asked size offset all)
    (hfit : 0 < global → 0 < asked → global = asked * ranks) (hranks : 0 < ranks) {x : Int}
    (hx : 0 ≤ x) (hxall : x < all) :
    ∃ i, 0 ≤ i ∧ i < ranks ∧ ∀ {size offset all : Int},
      Share ranks i global asked size offset all → offset ≤ x ∧ x < offset + size := by
  cases h with
  | @divided base hasked hglobal hbase hne =>
    obtain ⟨hpos, hle⟩ := base_mul_le hranks hglobal hbase
    -- The index is the quotient by the size of a share, but no more than the last one.
    have hqle := Int.mul_ediv_self_le (x := x) hne
    have hqlt := Int.lt_mul_ediv_self_add (x := x) (show 0 < base by omega)
    have hq : 0 ≤ x / base := Int.ediv_nonneg hx hpos
    by_cases hlast : x / base < ranks - 1
    · refine ⟨x / base, hq, by omega, fun h => ?_⟩
      cases h with
      | @divided base' _ _ hbase' =>
        obtain rfl : base' = base := hbase'.trans hbase.symm
        rw [if_neg (by omega)]
        exact ⟨hqle, hqlt⟩
      | given hasked' => omega
    · -- the points that are left over fall to the last rank
      refine ⟨ranks - 1, by omega, by omega, fun h => ?_⟩
      cases h with
      | @divided base' _ _ hbase' =>
        obtain rfl : base' = base := hbase'.trans hbase.symm
        rw [if_pos rfl]
        have hstart : base' * (ranks - 1) ≤ base' * (x / base') :=
          Int.mul_le_mul_of_nonneg_left (by omega) hpos
        omega
      | given hasked' => omega
  | given hasked hrange =>
    have hqle := Int.mul_ediv_self_le (x := x) (show asked ≠ 0 by omega)
    have hqlt := Int.lt_mul_ediv_self_add (x := x) hasked
    refine ⟨x / asked, Int.ediv_nonneg hx (by omega), ?_, fun h => ?_⟩
    · have hall : x < asked * ranks := by
        split at hxall
        · exact hxall
        · have := hfit (by omega) hasked
          omega
      by_contra hge
      have := Int.mul_le_mul_of_nonneg_left (show ranks ≤ x / asked by omega)
        (show 0 ≤ asked by omega)
      omega
    · cases h with
      | divided hasked' => omega
      | given => exact ⟨hqle, hqlt⟩

end Share

/-! ### Places in the grid -/

namespace Placed

variable {c : Catalog} {a b ranks : Nat} {s s' s₁ s₂ : Settings} {p q : Placement}

theorem names_numRanks (h : Placed c a ranks s p s₁) (hs : s.Shaped c) :
    s₁.numRanks.names = c.domain.names := h.grid.names.trans (hs.names .numRanks)

/-- The share of a rank in one dimension, looked up by name. -/
theorem share_of_name (h : Placed c a ranks s p s₁) (hc : c.WellFormed) (hs : s.Shaped c)
    {j : Nat} {dim : String} (hj : c.domain.names[j]? = some dim) :
    ∃ (count index global asked : Int), s₁.numRanks.values[j]? = some count ∧
      p.topology.indices.values[j]? = some index ∧ s.global.values[j]? = some global ∧
      s.localDomain.values[j]? = some asked ∧ global ≤ Idx.max ∧ asked ≤ Idx.max ∧
      0 ≤ index ∧ index < count ∧
      Share count index global asked (s₁.localDomain.getD dim 0) (p.offsets.getD dim 0)
        (s₁.global.getD dim 0) := by
  obtain ⟨global, asked, size, offset, all, hglobal, hasked, hshare, -, hoffset, hall, hsize⟩ :=
    h.share ⟨j + 1, j, dim⟩ (Catalog.mem_dimPlaces.mpr ⟨hj, rfl⟩)
  dsimp only at hglobal hasked hshare hoffset hall hsize
  have hgrid := h.names_numRanks hs
  have hindices : p.topology.indices.names = c.domain.names := h.topology.names.trans hgrid
  have hlocal : s₁.localDomain.names = c.domain.names :=
    h.names_localDomain.trans (hs.names (.level .localDomain))
  have hoverall : s₁.global.names = c.domain.names := h.names_global.trans (hs.names .global)
  obtain ⟨count, hcount⟩ := DimVec.exists_value hgrid hj
  obtain ⟨index, hindex⟩ := DimVec.exists_value hindices hj
  -- the names of a domain are distinct, so a look-up by name is one by position
  rw [hc.getD_eq hgrid hj hcount, hc.getD_eq hindices hj hindex] at hshare
  have hinside := h.topology.indices_inside
  obtain ⟨hjc, rfl⟩ := List.getElem?_eq_some_iff.mp hcount
  obtain ⟨hji, rfl⟩ := List.getElem?_eq_some_iff.mp hindex
  have hin := hinside.get hjc hji
  refine ⟨_, _, global, asked, hcount, hindex, hglobal, hasked, ?_, ?_, hin.1, hin.2, ?_⟩
  · exact (hs.inRange .global global (List.mem_of_getElem? hglobal)).2
  · exact (hs.inRange (.level .localDomain) asked (List.mem_of_getElem? hasked)).2
  · rw [hc.getD_eq hlocal hj hsize, hc.getD_eq h.names_offsets hj hoffset,
      hc.getD_eq hoverall hj hall]
    exact hshare

/-- All ranks fill the grid in the same way. -/
theorem numRanks_eq (h : Placed c a ranks s p s₁) (h' : Placed c b ranks s' q s₂)
    (hsame : s.numRanks = s'.numRanks) : s₁.numRanks = s₂.numRanks :=
  h.grid.unique (hsame ▸ h'.grid)

theorem length_grid (h : Placed c a ranks s p s₁) (hs : s.Shaped c) :
    s₁.numRanks.values.length = c.domain.names.length := by
  rw [DimVec.length_values, ← DimVec.length_names, h.names_numRanks hs]

/-- The filled grid has a place for no more than all ranks. -/
theorem prod_grid_le (h : Placed c a ranks s p s₁) (hs : s.Shaped c) (hranks : 0 < ranks) :
    (s₁.numRanks.values.map Int.toNat).prod ≤ ranks := by
  refine Nat.le_trans (Nat.le_of_eq ?_) (h.grid.prod_le (hs.inRange .numRanks) hranks)
  refine congrArg List.prod (List.map_congr_left fun x hx => ?_)
  obtain ⟨i, hi, rfl⟩ := List.getElem_of_mem hx
  have hinside := h.topology.indices_inside
  have := hinside.get hi (hinside.length_eq ▸ hi)
  simp only [List.get_eq_getElem] at this
  omega

/-- A place in the grid is that of some rank: the one that has its number. -/
theorem exists_rank (h : Placed c a ranks s p s₁) (hs : s.Shaped c) (hranks : 0 < ranks)
    {xs : List Int} (hxs : List.Forall₂ (fun n x => 0 ≤ x ∧ x < n) s₁.numRanks.values xs) :
    ∃ k < ranks, ∀ {q : Placement}, q.topology.Sound s₁.numRanks → q.topology.rank = k →
      q.topology.indices.values = xs := by
  have hlt := DimVec.numberFrom_lt (i := 0) hxs
  rw [Nat.zero_add, Nat.one_mul] at hlt
  refine ⟨_, Nat.lt_of_lt_of_le hlt (h.prod_grid_le hs hranks), fun hq hk => ?_⟩
  obtain ⟨hin, hnumber⟩ := DimVec.layout_eq_some hq.le_max hq.rank
  rw [hk] at hnumber
  exact (DimVec.numberFrom_injective hin hxs hnumber.symm).2

end Placed

/-! ### All ranks together -/

/-- Settings that are the same but for the rank indices and for whether they were given. -/
def Settings.SameExceptIndices (s t : Settings) : Prop :=
  t = { s with
    rankIndices := t.rankIndices
    explicitRankIndices := t.explicitRankIndices }

/-- The overall size and the local size, where both are given, fit together in the grid `grid`. -/
def Settings.SizesFit (s : Settings) (grid : DimVec) : Prop :=
  ∀ dim ∈ grid.names, 0 < s.global.getD dim 0 → 0 < s.localDomain.getD dim 0 →
    s.global.getD dim 0 = s.localDomain.getD dim 0 * grid.getD dim 0

instance (s : Settings) (grid : DimVec) : Decidable (s.SizesFit grid) :=
  inferInstanceAs (Decidable (∀ dim ∈ grid.names, _))

namespace Settings.SameExceptIndices

variable {s t : Settings}

theorem global (h : s.SameExceptIndices t) : t.global = s.global := by rw [h]

theorem localDomain (h : s.SameExceptIndices t) : t.localDomain = s.localDomain := by rw [h]

theorem numRanks (h : s.SameExceptIndices t) : t.numRanks = s.numRanks := by rw [h]

end Settings.SameExceptIndices

namespace Placed

variable {c : Catalog} {a b ranks : Nat} {s s' s₁ s₂ : Settings} {p q : Placement}

section Pair

variable (h : Placed c a ranks s p s₁) (h' : Placed c b ranks s' q s₂) (hc : c.WellFormed)
  (hs : s.Shaped c) (hs' : s'.Shaped c) (hsame : s.SameExceptIndices s')

include h h' hc hs hs' hsame

/-- The shares of two ranks in one dimension are shares of the same sizes, and both report the same
overall size. -/
theorem shares_of_same {j : Nat} {dim : String} (hj : c.domain.names[j]? = some dim) :
    ∃ (count index index' global asked : Int), s₁.numRanks.values[j]? = some count ∧
      s₁.numRanks.getD dim 0 = count ∧ s.global.getD dim 0 = global ∧
      s.localDomain.getD dim 0 = asked ∧ p.topology.indices.values[j]? = some index ∧
      q.topology.indices.values[j]? = some index' ∧ 0 ≤ index ∧ index < count ∧ 0 ≤ index' ∧
      index' < count ∧
      Share count index global asked (s₁.localDomain.getD dim 0) (p.offsets.getD dim 0)
        (s₁.global.getD dim 0) ∧
      Share count index' global asked (s₂.localDomain.getD dim 0) (q.offsets.getD dim 0)
        (s₂.global.getD dim 0) := by
  obtain ⟨count, index, global, asked, hcount, hindex, hglobal, hasked, -, -, hge, hlt, hshare⟩ :=
    h.share_of_name hc hs hj
  obtain ⟨count', index', global', asked', hcount', hindex', hglobal', hasked', -, -, hge', hlt',
    hshare'⟩ := h'.share_of_name hc hs' hj
  rw [← h.numRanks_eq h' hsame.numRanks.symm, hcount] at hcount'
  rw [hsame.global, hglobal] at hglobal'
  rw [hsame.localDomain, hasked] at hasked'
  obtain rfl := Option.some.inj hcount'
  obtain rfl := Option.some.inj hglobal'
  obtain rfl := Option.some.inj hasked'
  exact ⟨count, index, index', global, asked, hcount, hc.getD_eq (h.names_numRanks hs) hj hcount,
    hc.getD_eq (hs.names .global) hj hglobal, hc.getD_eq (hs.names (.level .localDomain)) hj hasked,
    hindex, hindex', hge, hlt, hge', hlt', hshare, hshare'⟩

/-- All ranks report the same overall size. -/
theorem global_eq : s₁.global = s₂.global := by
  have hnames : s₁.global.names = c.domain.names := h.names_global.trans (hs.names .global)
  have hnames' : s₂.global.names = c.domain.names := h'.names_global.trans (hs'.names .global)
  refine DimVec.eq_of_names_of_values (hnames.trans hnames'.symm) ?_
  rw [← DimVec.map_getD_names (hnames ▸ hc.nodup) 0, ← DimVec.map_getD_names (hnames' ▸ hc.nodup) 0,
    hnames, hnames']
  refine List.map_congr_left fun dim hdim => ?_
  obtain ⟨j, hj⟩ := List.mem_iff_getElem?.mp hdim
  obtain ⟨count, index, index', global, asked, -, -, -, -, -, -, -, -, -, -, hshare, hshare'⟩ :=
    h.shares_of_same h' hc hs hs' hsame hj
  exact hshare.all_eq hshare'

/-- Ranks at different places have no point in common. -/
theorem indices_eq_of_inBox {x : String → Int}
    (hx : InBox c.domain.names p.offsets s₁.localDomain x)
    (hx' : InBox c.domain.names q.offsets s₂.localDomain x) :
    p.topology.indices.values = q.topology.indices.values := by
  have hlen : p.topology.indices.values.length = c.domain.names.length :=
    h.topology.indices_inside.length_eq.symm.trans (h.length_grid hs)
  have hlen' : q.topology.indices.values.length = c.domain.names.length :=
    h'.topology.indices_inside.length_eq.symm.trans (h'.length_grid hs')
  refine List.ext_getElem? fun j => ?_
  by_cases hj : j < c.domain.names.length
  · have hdim : c.domain.names[j]? = some c.domain.names[j] := List.getElem?_eq_getElem hj
    obtain ⟨count, index, index', global, asked, -, -, -, -, hindex, hindex', hge, hlt, hge', hlt',
      hshare, hshare'⟩ := h.shares_of_same h' hc hs hs' hsame hdim
    rw [hindex, hindex']
    have hin := hx _ (List.getElem_mem hj)
    have hin' := hx' _ (List.getElem_mem hj)
    -- At different indices one share ends before the other one starts.
    rcases Int.lt_trichotomy index index' with hless | heq | hgreater
    · have := hshare.before hshare' hless hlt' hge
      omega
    · rw [heq]
    · have := hshare'.before hshare hgreater hlt hge'
      omega
  · rw [List.getElem?_eq_none (by omega), List.getElem?_eq_none (by omega)]

end Pair

/-- A coordinate of a point of the domain falls to one index: who has it has the coordinate. -/
theorem exists_index (h : Placed c a ranks s p s₁) (hc : c.WellFormed) (hs : s.Shaped c)
    (hfit : s.SizesFit s₁.numRanks) {x : String → Int}
    (hx : InBox c.domain.names (c.domainVec 0) s₁.global x) {j : Nat} {dim : String}
    (hj : c.domain.names[j]? = some dim) :
    ∃ i count : Int, s₁.numRanks.values[j]? = some count ∧ 0 ≤ i ∧ i < count ∧
      ∀ {b : Nat} {s' s₂ : Settings} {q : Placement}, Placed c b ranks s' q s₂ → s'.Shaped c →
        s.SameExceptIndices s' → q.topology.indices.values[j]? = some i →
        q.offsets.getD dim 0 ≤ x dim ∧
          x dim < q.offsets.getD dim 0 + s₂.localDomain.getD dim 0 := by
  have hdim := List.mem_of_getElem? hj
  obtain ⟨count, index, -, global, asked, hcount, hgrid, hglobal, hasked, -, -, hge, hlt, -, -,
    hshare, -⟩ := h.shares_of_same h hc hs hs rfl hj
  have hfits := hfit dim (h.names_numRanks hs ▸ hdim)
  rw [hglobal, hasked, hgrid] at hfits
  have hin := hx dim hdim
  rw [Catalog.getD_domainVec hdim, Int.zero_add] at hin
  obtain ⟨i, hi, hi', hshares⟩ := hshare.exists_index hfits (by omega) hin.1 hin.2
  refine ⟨i, count, hcount, hi, hi', fun h' hs' hsame hq => ?_⟩
  -- The other rank has a share of the same sizes.
  obtain ⟨count', -, index', global', asked', hcount', -, hglobal', hasked', -, hindex', -, -, -,
    -, -, hshare'⟩ := h.shares_of_same h' hc hs hs' hsame hj
  obtain rfl := Option.some.inj (hcount.symm.trans hcount')
  obtain rfl := hglobal.symm.trans hglobal'
  obtain rfl := hasked.symm.trans hasked'
  obtain rfl := Option.some.inj (hq.symm.trans hindex')
  exact hshares hshare'

/-- Every point of the domain has a place in the grid, and whoever is there owns the point. -/
theorem exists_place (h : Placed c a ranks s p s₁) (hc : c.WellFormed) (hs : s.Shaped c)
    (hfit : s.SizesFit s₁.numRanks) {x : String → Int}
    (hx : InBox c.domain.names (c.domainVec 0) s₁.global x) :
    ∃ xs, List.Forall₂ (fun n x => 0 ≤ x ∧ x < n) s₁.numRanks.values xs ∧
      ∀ {b : Nat} {s' s₂ : Settings} {q : Placement}, Placed c b ranks s' q s₂ → s'.Shaped c →
        s.SameExceptIndices s' → q.topology.indices.values = xs →
        InBox c.domain.names q.offsets s₂.localDomain x := by
  choose place count hcount hge hlt howns using fun j : Fin c.domain.names.length =>
    h.exists_index hc hs hfit hx (List.getElem?_eq_getElem j.2)
  refine ⟨List.ofFn place, ?_, fun h' hs' hsame hq dim hdim => ?_⟩
  · refine List.forall₂_iff_get.mpr ⟨by rw [h.length_grid hs, List.length_ofFn], fun j hj hj' => ?_⟩
    rw [List.length_ofFn] at hj'
    have hvalue := hcount ⟨j, hj'⟩
    rw [List.getElem?_eq_getElem hj, Option.some.injEq] at hvalue
    simp only [List.get_eq_getElem, List.getElem_ofFn, hvalue]
    exact ⟨hge _, hlt _⟩
  · obtain ⟨j, hj, rfl⟩ := List.getElem_of_mem hdim
    apply howns ⟨j, hj⟩ h' hs' hsame
    rw [hq, List.getElem?_ofFn, dif_pos hj]

/-- A local domain lies in the domain. -/
theorem inside (h : Placed c a ranks s p s₁) (hc : c.WellFormed) (hs : s.Shaped c)
    (hfit : s.SizesFit s₁.numRanks) {dim : String} (hdim : dim ∈ c.domain.names) :
    0 ≤ p.offsets.getD dim 0 ∧ 0 < s₁.localDomain.getD dim 0 ∧
      p.offsets.getD dim 0 + s₁.localDomain.getD dim 0 ≤ s₁.global.getD dim 0 := by
  obtain ⟨j, hj⟩ := List.mem_iff_getElem?.mp hdim
  obtain ⟨count, index, -, global, asked, -, hgrid, hglobal, hasked, -, -, hge, hlt, -, -, hshare,
    -⟩ := h.shares_of_same h hc hs hs rfl hj
  have hfits := hfit dim (h.names_numRanks hs ▸ hdim)
  rw [hglobal, hasked, hgrid] at hfits
  obtain ⟨hstart, hend⟩ := hshare.inside hfits hge hlt
  exact ⟨hstart, hshare.size_pos (by omega), hend⟩

end Placed

/-- The local domains of all ranks partition the domain. The ranks share their settings but for the
rank indices, and where both the overall and the local size of a dimension are given these fit
together. Then all ranks come to the same grid and the same overall size, every point of the domain
lies in the local domain of one rank, and no local domain goes beyond the domain. -/
theorem localDomains_partition {c : Catalog} {ranks : Nat} {settings placed : Nat → Settings}
    {p : Nat → Placement} {v : Nat → Verbosity} (hc : c.Built)
    (hs : ∀ k < ranks, (settings k).Reachable c)
    (hsame : ∀ j < ranks, ∀ k < ranks, (settings j).SameExceptIndices (settings k))
    (hplace : ∀ k < ranks, (placeRank c k ranks).Yields (v k) (settings k) (p k) (placed k))
    (hfit : ∀ k < ranks, (settings k).SizesFit (placed k).numRanks) :
    (∀ j < ranks, ∀ k < ranks, (placed j).numRanks = (placed k).numRanks ∧
      (placed j).global = (placed k).global) ∧
    (∀ j < ranks, ∀ x, InBox c.domain.names (c.domainVec 0) (placed j).global x →
      ∃! k, k < ranks ∧ InBox c.domain.names (p k).offsets (placed k).localDomain x) ∧
    ∀ k < ranks, ∀ dim ∈ c.domain.names, 0 ≤ (p k).offsets.getD dim 0 ∧
      0 < (placed k).localDomain.getD dim 0 ∧
      (p k).offsets.getD dim 0 + (placed k).localDomain.getD dim 0 ≤
        (placed k).global.getD dim 0 := by
  have hc := hc.wellFormed
  have hs : ∀ k < ranks, (settings k).Shaped c := fun k hk => (hs k hk).shaped
  have hplaced : ∀ k (hk : k < ranks), Placed c k ranks (settings k) (p k) (placed k) :=
    fun k hk => placed_of_yields ((hs k hk).inRange .numRanks) (hplace k hk)
  have hgrid : ∀ j < ranks, ∀ k < ranks, (placed j).numRanks = (placed k).numRanks :=
    fun j hj k hk => (hplaced j hj).numRanks_eq (hplaced k hk) (hsame j hj k hk).numRanks.symm
  refine ⟨fun j hj k hk => ⟨hgrid j hj k hk, ?_⟩, fun j hj x hx => ?_, fun k hk dim hdim => ?_⟩
  · exact (hplaced j hj).global_eq (hplaced k hk) hc (hs j hj) (hs k hk) (hsame j hj k hk)
  · obtain ⟨xs, hxs, howns⟩ := (hplaced j hj).exists_place hc (hs j hj) (hfit j hj) hx
    obtain ⟨k, hk, hat⟩ := (hplaced j hj).exists_rank (hs j hj) (by omega) hxs
    have hsound : ∀ i < ranks, (p i).topology.Sound (placed j).numRanks := fun i hi =>
      hgrid i hi j hj ▸ (hplaced i hi).topology
    have hindices := hat (hsound k hk) (hplaced k hk).rank
    refine ⟨k, ⟨hk, howns (hplaced k hk) (hs k hk) (hsame j hj k hk) hindices⟩, ?_⟩
    rintro i ⟨hi, hx'⟩
    -- Ranks that share a point are at the same place, and the place numbers the rank.
    have hsameplace := (hplaced i hi).indices_eq_of_inBox (hplaced k hk) hc (hs i hi) (hs k hk)
      (hsame i hi k hk) hx' (howns (hplaced k hk) (hs k hk) (hsame j hj k hk) hindices)
    have hrank := (hsound i hi).rank
    rw [DimVec.layout_congr hsameplace, (hsound k hk).rank, (hplaced i hi).rank,
      (hplaced k hk).rank, Except.ok.injEq, Option.some.injEq] at hrank
    exact hrank.symm
  · exact (hplaced k hk).inside hc (hs k hk) (hfit k hk) hdim

namespace Uneven

/-- A line. -/
def catalog : Catalog := (Catalog.declare "t" ["x"] []).toOption.getD default

/-- Seven points are to be divided. -/
def settings : Settings :=
  ((Settings.setOption catalog "gx" "7").run none (.initial catalog 1)).state

/-- The settings after rank `k` of two is placed. -/
def placed (k : Nat) : Settings := ((placeRank catalog k 2).run none settings).state

theorem built : catalog.Built :=
  .declare (show Catalog.declare "t" ["x"] [] = .ok catalog by decide +kernel)

theorem reachable : settings.Reachable catalog := .option (.initial 1) "gx" "7" none

end Uneven

/-- Two ranks divide seven points. Only one of them has the fourth point. -/
theorem localDomains_partition_uneven : ∃ p : Nat → Placement,
    (∀ k < 2, (placeRank Uneven.catalog k 2).Yields none Uneven.settings (p k) (Uneven.placed k)) ∧
    (∀ k < 2, (Uneven.placed k).global.getD "x" 0 = 7) ∧
    (∃! k, k < 2 ∧ InBox ["x"] (p k).offsets (Uneven.placed k).localDomain fun _ => 3) ∧
    ∀ k < 2, (p k).offsets.getD "x" 0 + (Uneven.placed k).localDomain.getD "x" 0 ≤ 7 := by
  have hruns : ∀ k < 2, ((placeRank Uneven.catalog k 2).run none
      Uneven.settings).result.toOption.isSome = true := by decide +kernel
  have hplaced : ∀ k, ∃ q, k < 2 →
      ((placeRank Uneven.catalog k 2).run none Uneven.settings).result = .ok q := by
    have hrun : ∀ k < 2, ∃ q, ((placeRank Uneven.catalog k 2).run none Uneven.settings).result =
        .ok q := fun k hk => by
      obtain ⟨q, hq, -⟩ := exists_eq_ok_of_any (hruns k hk)
      exact ⟨q, hq⟩
    intro k
    by_cases hk : k < 2
    · exact (hrun k hk).imp fun q hq _ => hq
    · exact (hrun 0 (by decide)).imp fun q _ h => absurd h hk
  choose p hp using hplaced
  have hplace : ∀ k < 2, (placeRank Uneven.catalog k 2).Yields none Uneven.settings (p k)
      (Uneven.placed k) := fun k hk => Task.yields_of_result (hp k hk)
  have hglobal : ∀ k < 2, (Uneven.placed k).global.getD "x" 0 = 7 := by decide +kernel
  obtain ⟨-, howner, hinside⟩ := localDomains_partition Uneven.built (fun _ _ => Uneven.reachable)
    (fun _ _ _ _ => rfl) hplace (by decide +kernel)
  refine ⟨p, hplace, hglobal, ?_, fun k hk => ?_⟩
  · apply howner 0 (by decide) fun _ => 3
    decide +kernel
  · rw [← hglobal k hk]
    exact (hinside k hk "x" (by decide +kernel)).2.2

end StencilPlan
