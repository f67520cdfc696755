import StencilPlan.Proofs.Rank.Buildable

/-!
# The neighborhood is complete

Where the ranks of a grid can be counted and there is room for the table of a neighborhood, a rank
at any place of the grid builds its topology, and the topology passes its own check. Its table runs
through the offsets in order and leads to a rank just where the grid reaches that far. How many
neighbors there are is a product over the dimensions: in each of them a rank has a neighbor on
either side, unless it is at the edge, and it may stay where it is (`countP_offsets`). Of these
places the one where it stays in every dimension is its own. Without room for the table no rank of
the grid has a topology (`faults_build`); the places of a neighborhood may still be countable then,
for an entry takes many bytes.
-/

namespace StencilPlan

namespace Topology

/-- The offsets of minus one, zero and one in each dimension, the last one running fastest. -/
def offsets : Nat → List (List Int)
  | 0 => [[]]
  | dims + 1 => [-1, 0, 1].flatMap fun s => (offsets dims).map (s :: ·)

/-- How many indices there are from one before to one after an index, in a dimension of some
ranks. -/
def reach (count index : Int) : Nat :=
  1 + (if 0 < index then 1 else 0) + (if index < count - 1 then 1 else 0)

/-- The offsets are the steps to the points of a box of three in each dimension. -/
theorem offsets_eq_map_stepsTo (dims : Nat) :
    offsets dims = (DimVec.boxPoints (List.replicate dims 3)).map stepsTo := by
  induction dims with
  | zero => rfl
  | succ dims ih =>
    have hthree : List.range (Int.toNat 3) = [0, 1, 2] := rfl
    simp only [offsets, ih, List.replicate_succ, DimVec.boxPoints, hthree, List.flatMap_cons,
      List.flatMap_nil, List.append_nil, List.map_append, List.map_map]
    rfl

theorem length_offsets (dims : Nat) : (offsets dims).length = 3 ^ dims := by
  rw [offsets_eq_map_stepsTo, List.length_map, DimVec.length_boxPoints, List.map_replicate,
    List.prod_replicate]
  rfl

theorem inside_cons (n x : Int) (ns xs : List Int) :
    inside (n :: ns) (x :: xs) = (decide (0 ≤ x ∧ x < n) && inside ns xs) := rfl

/-- The places around a rank that are in the grid are counted one dimension at a time. -/
theorem countP_offsets {counts place : List Int}
    (h : List.Forall₂ (fun n x => 0 ≤ x ∧ x < n) counts place) :
    (offsets counts.length).countP
        (fun o => inside counts (List.zipWith (· + ·) place o)) =
      (List.zipWith reach counts place).prod := by
  induction h with
  | nil => rfl
  | @cons n x counts place hx _ ih =>
    -- A step in the first dimension leads out of the grid, or the other dimensions decide.
    have hstep : ∀ s : Int, ((offsets counts.length).map (s :: ·)).countP
        (fun o => inside (n :: counts) (List.zipWith (· + ·) (x :: place) o)) =
          (if 0 ≤ x + s ∧ x + s < n then 1 else 0) * (List.zipWith reach counts place).prod := by
      intro s
      rw [List.countP_map, ← ih]
      by_cases hin : 0 ≤ x + s ∧ x + s < n
      · rw [if_pos hin, Nat.one_mul]
        apply List.countP_congr
        intro o _
        simp [inside_cons, hin]
      · rw [if_neg hin, Nat.zero_mul, List.countP_eq_zero]
        intro o _
        simp [inside_cons, hin]
    rw [List.length_cons, offsets, List.flatMap_cons, List.flatMap_cons, List.flatMap_cons,
      List.flatMap_nil, List.append_nil, List.countP_append, List.countP_append, hstep, hstep,
      hstep, ← Nat.add_mul, ← Nat.add_mul, List.zipWith_cons_cons, List.prod_cons]
    congr 1
    unfold reach
    split_ifs <;> omega

section Room

variable {grid indices : DimVec} {v : Verbosity}

theorem isEmpty_eq_false (hdims : 1 ≤ grid.length) : grid.isEmpty = false := by
  rw [DimVec.isEmpty, Bool.eq_false_iff, ne_eq, List.isEmpty_iff_length_eq_zero]
  exact Nat.ne_of_gt hdims

/-- The places of a neighborhood are counted before there is a table of them. -/
theorem product_box (hplaces : (3 : Int) ^ grid.length ≤ Idx.max) :
    (grid.fill 3).product = .ok (3 ^ grid.length) ∧
      Word.ofIdx (3 ^ grid.length) = 3 ^ grid.length := by
  have hprod : (grid.fill 3).values.prod = 3 ^ grid.length := by
    rw [DimVec.values_fill, List.prod_replicate]
  have hpos : ∀ n ∈ (grid.fill 3).values, 1 ≤ n := by
    intro n hn
    rw [DimVec.values_fill] at hn
    rw [List.eq_of_mem_replicate hn]
    decide
  constructor
  · rw [← hprod]
    exact Idx.product_of_le_max hpos (hprod ▸ hplaces)
  · rw [Word.ofIdx_of_nonneg (Int.pow_nonneg (by decide)) hplaces]
    exact Int.toNat_natCast (3 ^ grid.length)

/-- A table for which there is room has places that can be counted. -/
theorem places_le_max (hroom : 3 ^ grid.length * Neighbor.entryBytes ≤ arrayBytes) :
    (3 : Int) ^ grid.length ≤ Idx.max := by
  have hcast : (3 : Int) ^ grid.length = (3 ^ grid.length : Nat) := (Int.natCast_pow 3 _).symm
  simp only [Neighbor.entryBytes, arrayBytes] at hroom
  simp only [Idx.max]
  omega

/-- A grid of positive counts has topologies if its ranks can be counted and there is room for the
table of a neighborhood. -/
theorem buildable_of_countable (hdims : 1 ≤ grid.length) (h : grid.Countable)
    (hroom : 3 ^ grid.length * Neighbor.entryBytes ≤ arrayBytes) : Buildable grid where
  nonempty := isEmpty_eq_false hdims
  pos := h.pos
  le_max := h.size_le_max
  product := ⟨_, Idx.product_of_le_max h.pos h.le_max⟩
  box := by
    obtain ⟨hproduct, hword⟩ := product_box (places_le_max hroom)
    exact ⟨_, hproduct, by rwa [hword]⟩
  expected := by
    rw [DimVec.length_boxPoints, List.map_replicate, List.prod_replicate]
    apply Word.pow_of_lt (by decide)
    simp only [Neighbor.entryBytes, arrayBytes] at hroom
    simp only [Word.bound]
    omega

/-- Without room for the table the topology is given up, wherever in the grid the rank is. -/
theorem faults_build (hdims : 1 ≤ grid.length) (h : grid.Countable)
    (hplaces : (3 : Int) ^ grid.length ≤ Idx.max)
    (hroom : arrayBytes < 3 ^ grid.length * Neighbor.entryBytes) (hplace : IsPlace grid indices) :
    (Topology.build grid indices).Faults v () .capacity () := by
  obtain ⟨hproduct, hword⟩ := product_box hplaces
  unfold Topology.build
  simp only [isEmpty_eq_false hdims, Bool.false_eq_true, if_false]
  -- The place is checked and numbered, and the table is reserved before any entry is worked out.
  refine (Task.yields_planError.mpr ⟨hplace.checkPlace_eq_ok, rfl⟩).faults_bind ?_
  refine Task.faults_bind_of_checked (h.layout_inside hplace.inside) ?_
  refine Task.faults_bind_of_checked hproduct ?_
  exact Task.faults_bind_checked (reserve_of_lt (by rwa [hword]))

end Room

namespace Sound

variable {grid : DimVec} {t : Topology} {i : Nat} {n : Neighbor}

/-- The table runs through the offsets. -/
theorem map_offset (h : t.Sound grid) :
    t.neighbors.map (·.offset.values) = offsets grid.length := by
  rw [offsets_eq_map_stepsTo]
  refine List.ext_getElem ?_ fun i hi hi' => ?_
  · rw [List.length_map, List.length_map]
    exact h.size
  · rw [List.length_map] at hi
    obtain ⟨p, hp, -, -, -, hvalues, -⟩ := h.entry (List.getElem?_eq_getElem hi)
    rw [List.getElem_map, List.getElem_map, hvalues, (List.getElem?_eq_some_iff.mp hp).2]

theorem size_eq_pow (h : t.Sound grid) : t.size = 3 ^ grid.length := by
  rw [← length_offsets, ← h.map_offset, List.length_map, Topology.size]

/-- There is a neighbor just where the grid reaches that far. -/
theorem isSome_rank (ht : t.Sound grid) (h : Buildable grid) (hn : t.neighbor? i = some n) :
    n.rank.isSome =
      inside grid.values (List.zipWith (· + ·) t.indices.values n.offset.values) := by
  obtain ⟨p, -, hlen, -, -, hvalues, hrank⟩ := ht.entry hn
  have hlength : (placeOf t.indices p).length = grid.length := by
    simp [placeOf, stepsTo, ht.length_indices, hlen]
  rw [hvalues]
  show n.rank.isSome = inside grid.values (placeOf t.indices p)
  rw [rankOf] at hrank
  split at hrank
  -- A place in the grid has a number, because the ranks can be counted.
  · next hin =>
    have hinside := hin
    rw [inside_iff (by rw [DimVec.length_values, hlength])] at hinside
    rw [h.countable.layout_inside (by rwa [DimVec.values_withValues hlength])] at hrank
    rw [hin, ← Except.ok.inj hrank]
    rfl
  · next hin =>
    rw [← Except.ok.inj hrank, Option.isSome_none, eq_comm, Bool.eq_false_iff]
    exact hin

/-- The neighbors that exist are those that are not the rank itself. -/
theorem mem_existing_iff_isSelf (h : t.Sound grid) :
    n ∈ t.existing ↔ n ∈ t.neighbors ∧ n.isSelf = false ∧ n.rank.isSome := by
  rw [Topology.existing, List.mem_filter, decide_eq_true_eq]
  refine and_congr_right fun hn => and_congr_left fun _ => ?_
  obtain ⟨i, hi⟩ := List.mem_iff_getElem?.mp hn
  obtain ⟨-, -, -, hindex, -⟩ := h.entry hi
  rw [hindex, Bool.eq_false_iff, ne_eq, ne_eq, h.isSelf_iff hi]

/-- The rank itself is found once among the places of its neighborhood. -/
theorem countP_center (h : t.Sound grid) :
    t.neighbors.countP (fun n => n.index = t.center ∧ n.rank.isSome) = 1 := by
  calc t.neighbors.countP (fun n => n.index = t.center ∧ n.rank.isSome)
      = t.neighbors.countP (fun n => n.index == t.center) := by
        apply List.countP_congr
        intro n hn
        obtain ⟨i, hi⟩ := List.mem_iff_getElem?.mp hn
        obtain ⟨-, -, -, hindex, -⟩ := h.entry hi
        simp only [decide_eq_true_eq, beq_iff_eq, and_iff_left_iff_imp, hindex]
        intro hcenter
        rw [(h.rank_eq_iff hi).mpr hcenter]
        rfl
    _ = (t.neighbors.map (·.index)).count t.center := by
        rw [List.count, List.countP_map]
        rfl
    _ = 1 := by
        rw [h.map_index]
        exact List.count_eq_one_of_mem List.nodup_range (List.mem_range.mpr h.center_lt)

/-- With the rank itself there are as many neighbors as the dimensions allow for. -/
theorem length_existing (ht : t.Sound grid) (h : Buildable grid) :
    t.existing.length + 1 = (List.zipWith reach grid.values t.indices.values).prod :=
  calc t.existing.length + 1
      = t.neighbors.countP (fun n => n.index ≠ t.center ∧ n.rank.isSome) +
          t.neighbors.countP (fun n => n.index = t.center ∧ n.rank.isSome) := by
        rw [ht.countP_center, Topology.existing, List.countP_eq_length_filter]
    _ = t.neighbors.countP (·.rank.isSome) := by
        rw [List.countP_eq_countP_filter_add t.neighbors (·.rank.isSome) (·.index ≠ t.center),
          List.countP_filter, List.countP_filter]
        simp [Bool.and_comm]
    _ = t.neighbors.countP (fun n =>
          inside grid.values (List.zipWith (· + ·) t.indices.values n.offset.values)) := by
        apply List.countP_congr
        intro n hn
        obtain ⟨i, hi⟩ := List.mem_iff_getElem?.mp hn
        rw [ht.isSome_rank h hi]
    _ = (offsets grid.values.length).countP (fun o =>
          inside grid.values (List.zipWith (· + ·) t.indices.values o)) := by
        rw [DimVec.length_values, ← ht.map_offset, List.countP_map]
        rfl
    _ = (List.zipWith reach grid.values t.indices.values).prod := countP_offsets ht.indices_inside

end Sound

end Topology

/-- In a grid of positive counts whose ranks can be counted, as can the places of a neighborhood, it
is the room for the table that decides. With it, the topology of a rank at any place is built and
passes its check. Its table has the offsets in order and a rank just where the place that an offset
leads to is in the grid. A visit calls on every neighbor that exists once, in the order of the
numbers, and with the rank itself there are as many of them as the product of what each dimension
allows for. Without it, no rank of the grid gets a topology. -/
theorem neighborhood_complete (grid indices : DimVec) (v : Verbosity) (hdims : 1 ≤ grid.length)
    (hpos : ∀ n ∈ grid.values, 1 ≤ n) (hranks : grid.values.prod ≤ Idx.max)
    (hplaces : (3 : Int) ^ grid.length ≤ Idx.max)
    (hplace : ∀ e ∈ grid.entries, ∃ x, indices.get? e.1 = some x ∧ 0 ≤ x ∧ x < e.2) :
    (3 ^ grid.length * Neighbor.entryBytes ≤ arrayBytes →
      ∃ t, (Topology.build grid indices).Yields v () t () ∧ t.validate = .ok () ∧
        t.indices = (grid.map fun dim _ => indices.getD dim 0) ∧ t.size = 3 ^ grid.length ∧
        (∀ i o, (Topology.offsets grid.length)[i]? = some o →
          ∃ n, t.neighbor? i = some n ∧ n.index = i ∧ n.offset.names = grid.names ∧
            n.offset.values = o ∧
            (n.rank.isSome ↔ List.Forall₂ (fun count x => 0 ≤ x ∧ x < count) grid.values
              (List.zipWith (· + ·) t.indices.values o))) ∧
        ∃ calls : List Neighbor,
          (∀ (σ : Type) (f : Neighbor → σ → σ) (s : σ),
            t.visit f s = calls.foldl (fun s n => f n s) s) ∧
          (∀ n, n ∈ calls ↔ n ∈ t.neighbors ∧ n.isSelf = false ∧ n.rank.isSome) ∧
          (calls.map (·.index)).Pairwise (· < ·) ∧
          calls.length + 1 = (List.zipWith Topology.reach grid.values t.indices.values).prod) ∧
    (arrayBytes < 3 ^ grid.length * Neighbor.entryBytes →
      (Topology.build grid indices).Faults v () .capacity ()) := by
  refine ⟨fun hroom => ?_, fun hroom =>
    Topology.faults_build hdims ⟨hpos, hranks⟩ hplaces hroom hplace⟩
  have h : Topology.Buildable grid := Topology.buildable_of_countable hdims ⟨hpos, hranks⟩ hroom
  obtain ⟨t, ht, hindices, -⟩ := h.exists_build_of_isPlace (v := v) hplace
  obtain ⟨hgrid, hsound⟩ := Topology.sound_of_build h.le_max ht
  obtain ⟨-, -, hvalid⟩ := Topology.validate_of_assertValid (h.assertValid hsound hgrid)
  refine ⟨t, ht, hvalid, hindices, hsound.size_eq_pow, fun i o ho => ?_, t.existing,
    fun _ _ _ => rfl, fun n => hsound.mem_existing_iff_isSelf, hsound.pairwise_index,
    hsound.length_existing h⟩
  rw [← hsound.map_offset, List.getElem?_map, Option.map_eq_some_iff] at ho
  obtain ⟨n, hn, rfl⟩ := ho
  obtain ⟨p, -, hlen, hindex, hnames, hvalues, -⟩ := hsound.entry hn
  refine ⟨n, hn, hindex, hnames, rfl, ?_⟩
  rw [hsound.isSome_rank h hn, Topology.inside_iff]
  simp [hvalues, Topology.stepsTo, hlen, hsound.length_indices]

/-- In a grid of two by three ranks the second one has a neighbor on one side in the first dimension
and on both sides in the second one: five in all, not counting itself. The indices may come in any
order. -/
theorem neighborhood_complete_edge :
    ∃ t, (Topology.build ⟨[("x", 2), ("y", 3)]⟩ ⟨[("y", 1), ("x", 0)]⟩).Yields none () t () ∧
      t.validate = .ok () ∧ t.size = 9 ∧
      ∃ calls : List Neighbor,
        (∀ (σ : Type) (f : Neighbor → σ → σ) (s : σ),
          t.visit f s = calls.foldl (fun s n => f n s) s) ∧ calls.length = 5 := by
  obtain ⟨t, ht, hvalid, hindices, hsize, -, calls, hcalls, -, -, hlength⟩ :=
    (neighborhood_complete ⟨[("x", 2), ("y", 3)]⟩ ⟨[("y", 1), ("x", 0)]⟩ none
      (by decide) (by decide) (by decide) (by decide) (by
        intro e he
        rcases List.mem_cons.mp he with rfl | he
        · exact ⟨0, by decide⟩
        · obtain rfl := List.mem_singleton.mp he
          exact ⟨1, by decide⟩)).1 (by decide)
  refine ⟨t, ht, hvalid, hsize, calls, hcalls, ?_⟩
  rw [hindices] at hlength
  exact Nat.succ.inj (hlength.trans (by decide))

/-- One value for each of so many dimensions. -/
def cube (dims : Nat) (value : Int) : DimVec :=
  ⟨(List.range dims).map fun k => (s!"d{k}", value)⟩

/-- The only rank of a grid with thirty-seven dimensions gets no topology. The places of its
neighborhood can be counted, but not the bytes of its table. -/
theorem neighborhood_without_room :
    (cube 37 1).names.Nodup ∧ 1 ≤ (cube 37 1).length ∧ (∀ n ∈ (cube 37 1).values, 1 ≤ n) ∧
      (cube 37 1).values.prod ≤ Idx.max ∧ (3 : Int) ^ (cube 37 1).length ≤ Idx.max ∧
      (∀ e ∈ (cube 37 1).entries, ∃ x, (cube 37 0).get? e.1 = some x ∧ 0 ≤ x ∧ x < e.2) ∧
      ∀ v, (Topology.build (cube 37 1) (cube 37 0)).Faults v () .capacity () := by
  have hpos : ∀ n ∈ (cube 37 1).values, 1 ≤ n := by decide +kernel
  have hranks : (cube 37 1).values.prod ≤ Idx.max := by decide +kernel
  have hplaces : (3 : Int) ^ (cube 37 1).length ≤ Idx.max := by decide +kernel
  have hplace : Topology.IsPlace (cube 37 1) (cube 37 0) := by
    have hzero : ∀ e ∈ (cube 37 1).entries, (cube 37 0).get? e.1 = some 0 ∧ e.2 = 1 := by
      decide +kernel
    intro e he
    obtain ⟨hget, hone⟩ := hzero e he
    exact ⟨0, hget, by omega, by omega⟩
  exact ⟨by decide +kernel, by decide +kernel, hpos, hranks, hplaces, hplace, fun v =>
    Topology.faults_build (by decide +kernel) ⟨hpos, hranks⟩ hplaces (by decide +kernel) hplace⟩

end StencilPlan
