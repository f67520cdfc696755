import StencilPlan.Proofs.Dim.Numbering
import StencilPlan.Proofs.Rank.Placement

/-!
# Grids in which every rank has a topology

Building a topology is full of checks, but none of them is about the rank that builds it: they
pass for one place of a grid if and only if they pass for every other. What they come to is said
by `Topology.Buildable`. For the rest, the rank in the middle of a neighborhood is the only one
that the offset zero leads to, and the others have other numbers.
-/

namespace StencilPlan.Topology

/-- Every rank of the grid can build its topology. -/
structure Buildable (grid : DimVec) : Prop where
  nonempty : grid.isEmpty = false
  pos : ∀ n ∈ grid.values, 1 ≤ n
  le_max : ∀ n ∈ grid.values, n ≤ Idx.max
  product : ∃ total, grid.product = .ok total
  box : ∃ places, (grid.fill 3).product = .ok places ∧
    Word.ofIdx places * Neighbor.entryBytes ≤ arrayBytes
  expected : Word.pow 3 grid.length =
    .ok (DimVec.boxPoints (List.replicate grid.length 3)).length

/-- A topology that is asserted to be valid passes the check. -/
theorem validate_of_assertValid {t : Topology} (h : t.assertValid = .ok ()) :
    ∃ total, t.grid.product = .ok total ∧ t.validate = .ok () := by
  unfold assertValid at h
  cases hv : t.validate with
  | error e => cases e <;> simp [hv] at h
  | ok u =>
    have hfirst := hv
    simp only [validate, bind_eq_ok, liftM_checked_eq_ok] at hfirst
    obtain ⟨total, htotal, -⟩ := hfirst
    exact ⟨total, htotal, rfl⟩

/-- A topology is only built in such a grid. -/
theorem buildable_of_build {grid indices : DimVec} {t : Topology} {v : Verbosity}
    (hmax : ∀ n ∈ grid.values, n ≤ Idx.max)
    (h : (Topology.build grid indices).Yields v () t ()) : Buildable grid := by
  obtain ⟨-, hsound⟩ := sound_of_build hmax h
  obtain ⟨hnonempty, hplace, hgrid, -, -, hbox, hplaces, -, hvalid⟩ := yields_build h
  obtain ⟨expected, hpow, hsize, -⟩ := assertValid_eq_ok hvalid
  obtain ⟨total, htotal, -⟩ := validate_of_assertValid hvalid
  rw [hgrid] at hpow htotal
  refine ⟨hnonempty, fun n hn => ?_, hmax, ⟨total, htotal⟩, hbox ▸ hplaces, ?_⟩
  · obtain ⟨e, he, rfl⟩ := List.mem_map.mp hn
    exact checkPlace_eq_ok hplace e he
  · rw [← hsound.size, hsize]
    exact hpow

theorem inside_iff {ns xs : List Int} (hlen : ns.length = xs.length) :
    inside ns xs = true ↔ List.Forall₂ (fun n x => 0 ≤ x ∧ x < n) ns xs := by
  rw [List.forall₂_iff_zip, inside, List.all_eq_true]
  simp only [decide_eq_true_eq, Prod.forall, hlen, true_and]

/-- Steps lead to the same place if and only if none of them is a real one. -/
theorem zipWith_add_eq_left_iff {xs ss : List Int} (hlen : xs.length = ss.length) :
    List.zipWith (· + ·) xs ss = xs ↔ ∀ s ∈ ss, s = 0 := by
  induction xs generalizing ss with
  | nil => simp [List.length_eq_zero_iff.mp hlen.symm]
  | cons x xs ih =>
    cases ss with
    | nil => cases hlen
    | cons s ss =>
      rw [List.zipWith_cons_cons, List.cons.injEq, ih (Nat.succ.inj hlen), List.forall_mem_cons,
        add_eq_left]

namespace Sound

variable {grid : DimVec} {t : Topology} {i : Nat} {n : Neighbor}

/-- The place in the middle is where the rank itself is. -/
theorem offset_center (h : t.Sound grid) (hn : t.neighbor? t.center = some n) :
    ∀ s ∈ n.offset.values, s = 0 := by
  obtain ⟨p, hp, hlen, -, -, hvalues, -⟩ := h.entry hn
  have hopp := h.opposite_point (List.getElem?_eq_some_iff.mp hn).1 hp hlen
  -- in the middle, counting from the other end gives the same point
  have hsame : t.size - 1 - t.center = t.center := by
    have hodd := h.size_odd
    have hcenter := h.center
    omega
  rw [hsame, hp, Option.some.injEq] at hopp
  intro s hs
  rw [hvalues] at hs
  obtain ⟨j, hj, rfl⟩ := List.getElem_of_mem hs
  have hneg : (stepsTo p)[j]? = ((stepsTo p).map (- ·))[j]? := by
    rw [← stepsTo_opposite, ← hopp]
  rw [List.getElem?_map, List.getElem?_eq_getElem hj, Option.map_some, Option.some.injEq] at hneg
  omega

theorem isSelf_iff (h : t.Sound grid) (hn : t.neighbor? i = some n) :
    n.isSelf = true ↔ i = t.center := by
  rw [Neighbor.isSelf, List.all_eq_true]
  simp only [decide_eq_true_eq]
  constructor
  · exact h.index_of_zero hn
  · rintro rfl
    exact h.offset_center hn

/-- The offset zero leads to the rank itself and no other offset does. -/
theorem rank_eq_iff (h : t.Sound grid) (hn : t.neighbor? i = some n) :
    n.rank = some t.rank ↔ i = t.center := by
  obtain ⟨p, hp, hlen, -, -, hvalues, hplace⟩ := h.entry hn
  have hindices : t.indices.values.length = (stepsTo p).length := by
    rw [DimVec.length_values, h.length_indices, stepsTo, List.length_map, hlen]
  have hlength : (placeOf t.indices p).length = grid.length := by
    rw [placeOf, List.length_zipWith, hindices, Nat.min_self, stepsTo, List.length_map, hlen]
  -- The number of a place says which place it is, and only without a step one stays.
  constructor
  · intro hr
    rw [hr, rankOf] at hplace
    split at hplace
    · have hsame := DimVec.layout_injective h.le_max hplace h.rank
      rw [DimVec.values_withValues hlength, placeOf, zipWith_add_eq_left_iff hindices,
        ← hvalues] at hsame
      exact h.index_of_zero hn hsame
    · cases hplace
  · rintro rfl
    have hzero := h.offset_center hn
    rw [hvalues] at hzero
    have hstay : placeOf t.indices p = t.indices.values :=
      (zipWith_add_eq_left_iff hindices).mpr hzero
    rw [hstay, rankOf, if_pos (inside_of_forall₂ h.indices_inside),
      DimVec.layout_congr (DimVec.values_withValues (by rw [DimVec.length_values,
        h.length_indices])), h.rank] at hplace
    exact (Except.ok.inj hplace).symm

/-- Each entry passes its check. -/
theorem validNeighbor (h : t.Sound grid) (hn : n ∈ t.neighbors) :
    t.validNeighbor (grid.values.map Int.toNat).prod n = true := by
  obtain ⟨i, hi⟩ := List.mem_iff_getElem?.mp hn
  have hself := h.isSelf_iff hi
  have hown := h.rank_eq_iff hi
  unfold Topology.validNeighbor
  cases hr : n.rank with
  | none =>
    rw [hr] at hown
    simp only [Bool.not_eq_true', Bool.eq_false_iff, ne_eq, hself, ← hown, reduceCtorEq,
      not_false_eq_true]
  | some r =>
    have hlt := h.rank_lt hi hr
    rw [hr, Option.some.injEq] at hown
    by_cases hi : i = t.center
    · simp [hself.mpr hi, hown.mpr hi]
    · have hnot : n.isSelf = false := by simpa using mt hself.mp hi
      simp [hnot, hlt, mt hown.mp hi]

theorem center_lt (h : t.Sound grid) : t.center < t.size := by
  have hodd := h.size_odd
  have hcenter := h.center
  omega

theorem neighbor_center (h : t.Sound grid) : ∃ n, t.neighbor? t.center = some n :=
  ⟨_, List.getElem?_eq_getElem h.center_lt⟩

/-- The last entry that leads to the rank itself is the one in the middle. -/
theorem index_of_last_self (h : t.Sound grid) :
    ((t.neighbors.filter (·.isSelf)).getLast?.map (·.index)).getD 0 = t.center := by
  -- There is no other entry without steps, so that it does not matter which one is the last.
  have hindex : ∀ m ∈ t.neighbors.filter (·.isSelf), m.index = t.center := by
    intro m hm
    obtain ⟨hmem, hself⟩ := List.mem_filter.mp hm
    obtain ⟨i, hi⟩ := List.mem_iff_getElem?.mp hmem
    obtain ⟨-, -, -, hindex, -⟩ := h.entry hi
    exact hindex.trans ((h.isSelf_iff hi).mp hself)
  obtain ⟨n, hn⟩ := h.neighbor_center
  have hmem : n ∈ t.neighbors.filter (·.isSelf) :=
    List.mem_filter.mpr ⟨List.mem_of_getElem? hn, (h.isSelf_iff hn).mpr rfl⟩
  rw [List.getLast?_eq_some_getLast (List.ne_nil_of_mem hmem), Option.map_some, Option.getD_some]
  exact hindex _ (List.getLast_mem _)

end Sound

/-- Indices that say where in the grid a rank is: one inside the grid for each dimension, in any
order. -/
def IsPlace (grid indices : DimVec) : Prop :=
  ∀ e ∈ grid.entries, ∃ x, indices.get? e.1 = some x ∧ 0 ≤ x ∧ x < e.2

namespace IsPlace

variable {grid indices : DimVec}

/-- Indices in the order of the grid. -/
theorem of_inside (hd : grid.names.Nodup) (hnames : indices.names = grid.names)
    (hin : List.Forall₂ (fun n x => 0 ≤ x ∧ x < n) grid.values indices.values) :
    IsPlace grid indices := by
  intro e he
  obtain ⟨i, hi⟩ := List.mem_iff_getElem?.mp he
  have hname : grid.names[i]? = some e.1 := by simp [DimVec.names, hi]
  have hvalue : grid.values[i]? = some e.2 := by simp [DimVec.values, hi]
  obtain ⟨hlt, hget⟩ := List.getElem?_eq_some_iff.mp hvalue
  have hlt' : i < indices.values.length := hin.length_eq ▸ hlt
  have hx := hin.get hlt hlt'
  simp only [List.get_eq_getElem, hget] at hx
  refine ⟨indices.values[i], ?_, hx.1, hx.2⟩
  rw [DimVec.get?_of_nodup (hnames ▸ hd) (i := i) (by rw [hnames, hname]),
    List.getElem?_eq_getElem hlt']

/-- Brought into the order of the grid, the indices lie inside it one by one. -/
theorem inside (h : IsPlace grid indices) : List.Forall₂ (fun n x => 0 ≤ x ∧ x < n) grid.values
    (grid.map fun dim _ => indices.getD dim 0).values := by
  rw [DimVec.values_map, DimVec.values, List.forall₂_map_left_iff, List.forall₂_map_right_iff,
    List.forall₂_same]
  intro e he
  obtain ⟨x, hget, hx⟩ := h e he
  rwa [DimVec.getD, hget, Option.getD_some]

/-- The check of a place finds nothing wrong. -/
theorem checkPlace_eq_ok (h : IsPlace grid indices) :
    Topology.checkPlace indices grid.entries = .ok () := by
  unfold IsPlace at h
  -- Induction on the entries that are left; what is known of each does not mention the others.
  generalize grid.entries = es at h
  induction es with
  | nil => rfl
  | cons e es ih =>
    obtain ⟨x, hget, hge, hlt⟩ := h e List.mem_cons_self
    rw [Topology.checkPlace, if_neg (by omega), hget]
    dsimp only
    rw [if_neg (by omega)]
    exact ih fun e' he' => h e' (List.mem_cons_of_mem _ he')

end IsPlace

namespace Buildable

variable {grid indices : DimVec} {v : Verbosity}

/-- The ranks of the grid can be counted. -/
theorem countable (h : Buildable grid) : grid.Countable := by
  obtain ⟨total, htotal⟩ := h.product
  obtain ⟨hprod, hrange⟩ := Idx.product_eq_ok htotal
  exact ⟨h.pos, hprod ▸ hrange.2⟩

/-- So can the places of a neighborhood. -/
theorem countable_box (h : Buildable grid) : (grid.fill 3).Countable := by
  obtain ⟨places, hplaces, -⟩ := h.box
  obtain ⟨hprod, hrange⟩ := Idx.product_eq_ok hplaces
  refine ⟨fun n hn => ?_, hprod ▸ hrange.2⟩
  rw [DimVec.values_fill] at hn
  rw [List.eq_of_mem_replicate hn]
  decide

theorem product_eq (h : Buildable grid) :
    grid.product = .ok ((grid.values.map Int.toNat).prod : Nat) ∧
      (((grid.values.map Int.toNat).prod : Nat) : Int) ≤ Idx.max := by
  rw [h.countable.cast_prod]
  exact ⟨Idx.product_of_le_max h.pos h.countable.le_max, h.countable.le_max⟩

/-- A sound topology in such a grid passes the check. -/
theorem assertValid (h : Buildable grid) {t : Topology} (ht : t.Sound grid)
    (hgrid : t.grid = grid) : t.assertValid = .ok () := by
  have hvalid : t.validate = .ok () := by
    obtain ⟨n, hn⟩ := ht.neighbor_center
    have htotal : Word.ofIdx ((grid.values.map Int.toNat).prod : Nat) =
        (grid.values.map Int.toNat).prod := by
      rw [Word.ofIdx_of_nonneg (Int.natCast_nonneg _) h.product_eq.2, Int.toNat_natCast]
    have hcentral : decide (n.rank = some t.rank) = true :=
      decide_eq_true ((ht.rank_eq_iff hn).mpr rfl)
    simp only [validate, hgrid, h.product_eq.1, h.expected, ht.rank, ← ht.size, bind, Except.bind,
      htotal, liftM, monadLift, MonadLift.monadLift, ensure,
      decide_eq_true (DimVec.layout_lt ht.le_max ht.rank), decide_true, if_true,
      if_pos ht.center, hn, hcentral]
    apply forM_eq_ok
    intro m hm
    rw [ht.validNeighbor hm]
    rfl
  rw [Topology.assertValid, hvalid]

/-- The steps to a place of the neighborhood are one to either side at most. -/
theorem stepsTo_eq_ok {k : Nat} {p : List Int}
    (hp : p ∈ DimVec.boxPoints (List.replicate k 3)) :
    p.mapM (Idx.sub · 1) = .ok (stepsTo p) := by
  rw [mapM_eq_ok, stepsTo, List.forall₂_map_right_iff, List.forall₂_same]
  intro x hx
  have hbounds := stepsTo_bounds hp (List.mem_map_of_mem hx)
  rw [Idx.sub_eq_ok_iff]
  refine ⟨?_, rfl⟩
  simp only [Idx.InRange, Idx.min, Idx.max]
  omega

/-- A step out of the grid is still in range, so that where it leads can be worked out. -/
theorem placeOf_eq_ok (hmax : ∀ n ∈ grid.values, n ≤ Idx.max)
    (hin : List.Forall₂ (fun n x => 0 ≤ x ∧ x < n) grid.values indices.values) {k : Nat}
    {p : List Int} (hp : p ∈ DimVec.boxPoints (List.replicate k 3)) :
    (indices.values.zip (stepsTo p)).mapM (fun (e : Int × Int) => Idx.add e.1 e.2) =
      .ok (placeOf indices p) := by
  rw [mapM_eq_ok, placeOf, ← List.map_uncurry_zip_eq_zipWith, List.forall₂_map_right_iff,
    List.forall₂_same]
  rintro ⟨x, s⟩ he
  obtain ⟨hx, hs⟩ := List.of_mem_zip he
  have hbounds := stepsTo_bounds hp hs
  obtain ⟨j, hj, rfl⟩ := List.getElem_of_mem hx
  have hj' : j < grid.values.length := hin.length_eq ▸ hj
  have hinside := hin.get hj' hj
  have hcount := hmax _ (List.getElem_mem hj')
  simp only [List.get_eq_getElem, Idx.max] at hinside hcount
  rw [Idx.add_eq_ok_iff]
  refine ⟨?_, rfl⟩
  simp only [Idx.InRange, Idx.min, Idx.max]
  omega

/-- Every place of the neighborhood can be worked out. -/
theorem exists_neighborAt (h : Buildable grid) (hlen : indices.length = grid.length)
    (hin : List.Forall₂ (fun n x => 0 ≤ x ∧ x < n) grid.values indices.values) {p : List Int}
    (hp : p ∈ DimVec.boxPoints (List.replicate grid.length 3)) (i : Nat) :
    ∃ n, neighborAt grid indices ((grid.fill 3).withValues p) i = .ok n := by
  have hlength : p.length = grid.length := by
    rw [DimVec.length_of_mem_boxPoints hp, List.length_replicate]
  have hplaceLength : (placeOf indices p).length = grid.length := by
    simp [placeOf, stepsTo, hlen, hlength]
  rw [neighborAt, DimVec.values_withValues (by rw [hlength, DimVec.length_fill]),
    stepsTo_eq_ok hp]
  simp only [bind, Except.bind, placeOf_eq_ok h.le_max hin hp]
  by_cases hinside : inside grid.values (placeOf indices p) = true
  · rw [if_pos hinside]
    rw [inside_iff (by rw [DimVec.length_values, hplaceLength])] at hinside
    rw [h.countable.layout_inside (by rwa [DimVec.values_withValues hplaceLength])]
    exact ⟨_, rfl⟩
  · rw [if_neg hinside]
    exact ⟨_, rfl⟩

/-- A rank at any place of the grid can build its topology, in which the indices are in the order of
the grid. -/
theorem exists_build_of_isPlace (h : Buildable grid) (hplace : IsPlace grid indices) :
    ∃ t, (Topology.build grid indices).Yields v () t () ∧
      t.indices = (grid.map fun dim _ => indices.getD dim 0) ∧
      t.rank = DimVec.numberFrom 0 (grid.values.zip t.indices.values) := by
  have hin := hplace.inside
  have hnames := DimVec.names_map (fun dim _ => indices.getD dim 0) grid
  have hcheck := hplace.checkPlace_eq_ok
  unfold Topology.build
  generalize (grid.map fun dim _ => indices.getD dim 0) = place at hin hnames ⊢
  have hlen : place.length = grid.length := by
    rw [← DimVec.length_names, hnames, DimVec.length_names]
  have hlayout := h.countable.layout_inside hin
  obtain ⟨places, hplaces, hroom⟩ := h.box
  have hbox := h.countable_box.pos
  -- No entry of the table fails, so the sweep that collects them does not either.
  obtain ⟨ns, hns⟩ := DimVec.sweep_collector_total hbox (f := neighborAt grid place)
    fun p hp i => h.exists_neighborAt hlen hin (by rwa [DimVec.values_fill] at hp) i
  rw [← neighborhood_eq_sweep] at hns
  obtain ⟨hsize, hget⟩ := neighborhood_eq_ok hbox hns
  rw [DimVec.values_fill] at hsize hget
  -- What was collected is a sound table, which is all that the final assertion asks for.
  have hsound : Sound grid ⟨grid, place, DimVec.numberFrom 0 (grid.values.zip place.values),
      grid.fill 3, ns.length / 2, ns⟩ :=
    ⟨h.le_max, hnames, hlayout, hsize, rfl, hget⟩
  refine ⟨⟨grid, place, DimVec.numberFrom 0 (grid.values.zip place.values), grid.fill 3,
    ns.length / 2, ns⟩, ?_, rfl, rfl⟩
  simp only [h.nonempty, Bool.false_eq_true, if_false, Task.yields_bind_planError,
    Task.yields_bind_checked]
  refine ⟨(), hcheck, _, hlayout, ?_⟩
  simp only [Task.yields_bind_checked, Task.yields_bind_note, Task.yields_pure]
  have hcenter := hsound.index_of_last_self
  dsimp only at hcenter
  refine ⟨places, hplaces, (), reserve_eq_ok_iff.mpr hroom, ns, hns, (), ?_⟩
  rw [hcenter]
  exact ⟨h.assertValid hsound rfl, rfl, trivial⟩

/-- Indices that come in the order of the grid stay as they are. -/
theorem exists_build (h : Buildable grid) (hd : grid.names.Nodup)
    (hnames : indices.names = grid.names)
    (hin : List.Forall₂ (fun n x => 0 ≤ x ∧ x < n) grid.values indices.values) :
    ∃ t, (Topology.build grid indices).Yields v () t () ∧ t.indices = indices ∧
      t.rank = DimVec.numberFrom 0 (grid.values.zip indices.values) := by
  have hsame : (grid.map fun dim _ => indices.getD dim 0) = indices := by
    refine DimVec.eq_of_names_of_values ((DimVec.names_map _ _).trans hnames.symm) ?_
    rw [← DimVec.map_getD_names (t := indices) (hnames ▸ hd) 0, hnames]
    simp [DimVec.names]
  obtain ⟨t, ht, hindices, hrank⟩ := h.exists_build_of_isPlace (.of_inside hd hnames hin)
  rw [hsame] at hindices
  exact ⟨t, ht, hindices, hindices ▸ hrank⟩

end Buildable

end StencilPlan.Topology
