import StencilPlan.Rank.Topology
import StencilPlan.Proofs.Dim.RowMajor

/-!
# Neighbors see each other

A topology that was built satisfies `Topology.Sound`: its table of neighbors runs over the offsets
of minus one, zero and one in row-major order, and each entry names the rank at its place in the
grid. From this alone follows that the relation is symmetric. If a rank has another one as its
neighbor at some offset, the other one has it at the opposite offset, whose number is found by
counting from the other end (`Sound.neighbor_mirror`).
-/

namespace StencilPlan.Topology

/-- The steps that lead to a point of the neighborhood: its coordinates, less one. -/
def stepsTo (p : List Int) : List Int := p.map (· - 1)

theorem stepsTo_injective : Function.Injective stepsTo := by
  apply List.map_injective_iff.mpr
  intro a b h
  have : a - 1 = b - 1 := h
  omega

/-- The place in the grid that a point of the neighborhood stands for. -/
def placeOf (indices : DimVec) (p : List Int) : List Int :=
  List.zipWith (· + ·) indices.values (stepsTo p)

/-- The number of the rank at a place, if the grid reaches that far. -/
def rankOf (grid : DimVec) (place : List Int) : Checked (Option Nat) :=
  if inside grid.values place then grid.layout (grid.withValues place) else .ok none

/-- What holds of the topology of a rank in a grid. -/
structure Sound (grid : DimVec) (t : Topology) : Prop where
  le_max : ∀ n ∈ grid.values, n ≤ Idx.max
  names : t.indices.names = grid.names
  rank : grid.layout t.indices = .ok (some t.rank)
  size : t.size = (DimVec.boxPoints (List.replicate grid.length 3)).length
  center : t.center = t.size / 2
  neighbor : ∀ i p, (DimVec.boxPoints (List.replicate grid.length 3))[i]? = some p →
    ∃ n, t.neighbor? i = some n ∧
      neighborAt grid t.indices ((grid.fill 3).withValues p) i = .ok n

theorem checkPlace_eq_ok {indices : DimVec} {es : List (String × Int)}
    (h : checkPlace indices es = .ok ()) : ∀ e ∈ es, 1 ≤ e.2 := by
  induction es with
  | nil => simp
  | cons e es ih =>
    obtain ⟨dim, count⟩ := e
    rw [checkPlace] at h
    split at h
    · simp at h
    · split at h
      · simp at h
      · split at h
        · simp at h
        · intro e he
          rcases List.mem_cons.mp he with rfl | he
          · show 1 ≤ count
            omega
          · exact ih h e he

theorem neighborhood_eq_sweep (grid indices box : DimVec) :
    neighborhood grid indices box =
      ((box.sweep (DimVec.collector (neighborAt grid indices)) (.ok [])).2).map List.reverse := by
  unfold neighborhood
  congr 3
  funext p k found
  unfold DimVec.collector
  cases found <;> cases neighborAt grid indices p k <;> rfl

theorem neighborhood_eq_ok {grid indices box : DimVec} {ns : List Neighbor}
    (hpos : ∀ n ∈ box.values, 0 < n) (h : neighborhood grid indices box = .ok ns) :
    ns.length = (DimVec.boxPoints box.values).length ∧
      ∀ i p, (DimVec.boxPoints box.values)[i]? = some p →
        ∃ n, ns[i]? = some n ∧ neighborAt grid indices (box.withValues p) i = .ok n :=
  DimVec.sweep_collector hpos (neighborhood_eq_sweep grid indices box ▸ h)

/-- The checks that a topology passes before it is handed out. -/
theorem assertValid_eq_ok {t : Topology} (h : t.assertValid = .ok ()) :
    ∃ expected, Word.pow 3 t.grid.length = .ok expected ∧ t.size = expected ∧
      t.center = expected / 2 := by
  unfold assertValid at h
  cases hv : t.validate with
  | error e => cases e <;> simp [hv] at h
  | ok u =>
    simp only [validate, bind_eq_ok, liftM_checked_eq_ok, liftM_planError_eq_ok] at hv
    obtain ⟨_, -, expected, hpow, _, -, _, hsize, _, -, hv⟩ := hv
    refine ⟨expected, hpow, ?_, ?_⟩
    · unfold ensure at hsize
      split at hsize
      · next h => simpa using h
      · simp at hsize
    · by_contra hne
      simp [hne, ensure] at hv

/-- All that a topology went through before it is handed out. -/
theorem yields_build {grid indices : DimVec} {t : Topology} {v : Verbosity}
    (h : (Topology.build grid indices).Yields v () t ()) :
    grid.isEmpty = false ∧ checkPlace indices grid.entries = .ok () ∧ t.grid = grid ∧
      t.indices = (grid.map fun dim _ => indices.getD dim 0) ∧
      grid.layout t.indices = .ok (some t.rank) ∧ t.box = grid.fill 3 ∧
      (∃ places, t.box.product = .ok places ∧
        Word.ofIdx places * Neighbor.entryBytes ≤ arrayBytes) ∧
      neighborhood grid t.indices t.box = .ok t.neighbors ∧ t.assertValid = .ok () := by
  simp only [build] at h
  split at h
  · simp at h
  · next hnonempty =>
    simp only [Task.yields_bind_planError, Task.yields_bind_checked] at h
    obtain ⟨_, hplace, rank, hrank, h⟩ := h
    cases rank with
    | none => simp at h
    | some rank =>
      simp only [Task.yields_bind_checked, Task.yields_bind_note, Task.yields_pure] at h
      obtain ⟨places, hplaces, _, hroom, ns, hns, _, hvalid, rfl, -⟩ := h
      exact ⟨by simpa using hnonempty, hplace, rfl, rfl, hrank, rfl,
        ⟨places, hplaces, reserve_eq_ok_iff.mp hroom⟩, hns, hvalid⟩

/-- Whatever `build` hands out is sound. -/
theorem sound_of_build {grid indices : DimVec} {t : Topology} {v : Verbosity}
    (hmax : ∀ n ∈ grid.values, n ≤ Idx.max)
    (h : (Topology.build grid indices).Yields v () t ()) : t.grid = grid ∧ t.Sound grid := by
  obtain ⟨-, -, hgrid, hindices, hrank, hbox, -, hns, hvalid⟩ := yields_build h
  obtain ⟨expected, -, hsize, hcenter⟩ := assertValid_eq_ok hvalid
  rw [hbox] at hns
  -- The box has three places in every dimension, so none of its extents is zero.
  obtain ⟨hlen, hget⟩ := neighborhood_eq_ok (by
    intro n hn
    rw [DimVec.values_fill] at hn
    rw [List.eq_of_mem_replicate hn]
    decide) hns
  rw [DimVec.values_fill] at hlen hget
  refine ⟨hgrid, hmax, ?_, hrank, hlen, by rw [hcenter, ← hsize], hget⟩
  rw [hindices, DimVec.names_map]

namespace Sound

variable {grid : DimVec} {t u : Topology} {i : Nat} {n : Neighbor}

theorem indices_inside (h : t.Sound grid) :
    List.Forall₂ (fun n x => 0 ≤ x ∧ x < n) grid.values t.indices.values :=
  (DimVec.layout_eq_some h.le_max h.rank).1

theorem length_indices (h : t.Sound grid) : t.indices.length = grid.length := by
  rw [← DimVec.length_names, h.names, DimVec.length_names]

/-- Every number below the size of the neighborhood is that of a point of the box. -/
theorem exists_point (h : t.Sound grid) (hi : i < t.size) :
    ∃ p, (DimVec.boxPoints (List.replicate grid.length 3))[i]? = some p ∧
      p.length = grid.length := by
  rw [h.size] at hi
  refine ⟨_, List.getElem?_eq_getElem hi, ?_⟩
  rw [DimVec.length_of_mem_boxPoints (List.getElem_mem hi), List.length_replicate]

end Sound

/-- Adding or subtracting position by position, where every sum is in range. -/
theorem forall₂_sub_one {p steps : List Int}
    (h : List.Forall₂ (fun x s => Idx.sub x 1 = .ok s) p steps) : steps = stepsTo p := by
  induction h with
  | nil => rfl
  | cons hx _ ih => rw [(Idx.sub_eq_ok_iff.mp hx).2, ih, stepsTo, stepsTo, List.map_cons]

theorem forall₂_add {xs ys sums : List Int}
    (h : List.Forall₂ (fun (e : Int × Int) s => Idx.add e.1 e.2 = .ok s) (xs.zip ys) sums) :
    sums = List.zipWith (· + ·) xs ys := by
  rw [← List.map_uncurry_zip_eq_zipWith]
  generalize xs.zip ys = es at h
  induction h with
  | nil => rfl
  | cons hx _ ih =>
    rw [(Idx.add_eq_ok_iff.mp hx).2, ih]
    rfl

/-- An entry of the table: the offset, and the rank at the place it leads to. -/
theorem neighborAt_eq_ok {grid indices box : DimVec} {p : List Int} {i : Nat} {n : Neighbor}
    (hp : p.length = box.length) (h : neighborAt grid indices (box.withValues p) i = .ok n) :
    n.index = i ∧ n.offset.names = box.names ∧ n.offset.values = stepsTo p ∧
      rankOf grid (placeOf indices p) = .ok n.rank := by
  simp only [neighborAt, bind_eq_ok, DimVec.values_withValues hp, mapM_eq_ok] at h
  obtain ⟨steps, hsteps, place, hplace, h⟩ := h
  obtain rfl := forall₂_sub_one hsteps
  obtain rfl := forall₂_add hplace
  have hlen : (stepsTo p).length = (box.withValues p).length := by
    rw [DimVec.length_withValues, ← hp, stepsTo, List.length_map]
  -- The check of each coordinate in turn is `inside` by definition.
  change (if inside grid.values (placeOf indices p) then _ else _) = _ at h
  split at h
  · next hin =>
    simp only [bind_eq_ok, pure_eq_ok] at h
    obtain ⟨rank, hrank, rfl⟩ := h
    refine ⟨rfl, by simp, DimVec.values_withValues hlen, ?_⟩
    rw [rankOf, if_pos hin]
    exact hrank
  · next hin =>
    simp only [bind_eq_ok, pure_eq_ok, exists_eq_left] at h
    subst h
    refine ⟨rfl, by simp, DimVec.values_withValues hlen, ?_⟩
    rw [rankOf, if_neg hin]

theorem inside_of_forall₂ {ns xs : List Int}
    (h : List.Forall₂ (fun n x => 0 ≤ x ∧ x < n) ns xs) : inside ns xs = true := by
  induction h with
  | nil => rfl
  | cons hx _ ih => simpa [inside, hx] using ih

/-- The steps to the points of a neighborhood are minus one, zero and one. -/
theorem stepsTo_bounds {k : Nat} {p : List Int} (hp : p ∈ DimVec.boxPoints (List.replicate k 3))
    {s : Int} (hs : s ∈ stepsTo p) : -1 ≤ s ∧ s ≤ 1 := by
  rw [stepsTo, List.mem_map] at hs
  obtain ⟨x, hx, rfl⟩ := hs
  obtain ⟨j, hj, rfl⟩ := List.getElem_of_mem hx
  have hbox := DimVec.mem_boxPoints.mp hp
  have hin := hbox.get (hbox.length_eq ▸ hj) hj
  simp only [List.get_eq_getElem, List.getElem_replicate] at hin
  omega

/-- The point of the neighborhood on the other side of its center. -/
def opposite (p : List Int) : List Int :=
  List.zipWith (fun n x => n - 1 - x) (List.replicate p.length 3) p

theorem stepsTo_opposite (p : List Int) : stepsTo (opposite p) = (stepsTo p).map (- ·) := by
  induction p with
  | nil => rfl
  | cons x p ih =>
    simp only [stepsTo, opposite, List.length_cons, List.replicate_succ, List.zipWith_cons_cons,
      List.map_cons, List.cons.injEq] at ih ⊢
    exact ⟨by omega, ih⟩

/-- Going back leads to where one came from. -/
theorem zipWith_add_neg {xs ss : List Int} (h : xs.length = ss.length) :
    List.zipWith (· + ·) (List.zipWith (· + ·) xs ss) (ss.map (- ·)) = xs := by
  induction xs generalizing ss with
  | nil => simp
  | cons x xs ih =>
    cases ss with
    | nil => simp at h
    | cons s ss => simpa [Int.add_neg_cancel_right] using ih (by simpa using h)

/-- Different points of the neighborhood lead to different places. -/
theorem placeOf_inj {indices : DimVec} {p q : List Int} (hlen : p.length = q.length)
    (hindices : p.length = indices.values.length) (h : placeOf indices p = placeOf indices q) :
    p = q := by
  unfold placeOf stepsTo at h
  generalize indices.values = xs at h hindices
  induction p generalizing q xs with
  | nil => exact (List.length_eq_zero_iff.mp hlen.symm).symm
  | cons a p ih =>
    obtain ⟨b, q, rfl⟩ := List.exists_cons_of_length_eq_add_one hlen.symm
    obtain ⟨x, xs, rfl⟩ := List.exists_cons_of_length_eq_add_one hindices.symm
    simp only [List.map_cons, List.zipWith_cons_cons, List.cons.injEq] at h
    rw [ih (Nat.succ.inj hlen) xs h.2 (Nat.succ.inj hindices), show a = b by omega]

namespace Sound

variable {grid : DimVec} {t u : Topology} {i : Nat} {n : Neighbor}

/-- What an entry of a sound table says. -/
theorem entry (h : t.Sound grid) (hn : t.neighbor? i = some n) :
    ∃ p, (DimVec.boxPoints (List.replicate grid.length 3))[i]? = some p ∧
      p.length = grid.length ∧ n.index = i ∧ n.offset.names = grid.names ∧
      n.offset.values = stepsTo p ∧
      rankOf grid (placeOf t.indices p) = .ok n.rank := by
  have hi : i < t.size := (List.getElem?_eq_some_iff.mp hn).1
  obtain ⟨p, hp, hlen⟩ := h.exists_point hi
  obtain ⟨m, hm, hat⟩ := h.neighbor i p hp
  obtain rfl : n = m := Option.some.inj (hn.symm.trans hm)
  obtain ⟨hindex, hnames, hvalues, hrank⟩ := neighborAt_eq_ok (by simpa using hlen) hat
  exact ⟨p, hp, hlen, hindex, by simpa using hnames, hvalues, hrank⟩

/-- A step leads to the place before, to the place after or nowhere. -/
theorem offset_bounds (h : t.Sound grid) (hn : t.neighbor? i = some n) {s : Int}
    (hs : s ∈ n.offset.values) : -1 ≤ s ∧ s ≤ 1 := by
  obtain ⟨p, hp, -, -, -, hvalues, -⟩ := h.entry hn
  exact stepsTo_bounds (List.mem_of_getElem? hp) (hvalues ▸ hs)

/-- The offset tells which neighbor it is. -/
theorem offset_inj (h : t.Sound grid) {j : Nat} {m : Neighbor} (hn : t.neighbor? i = some n)
    (hm : t.neighbor? j = some m) (hoffset : n.offset.values = m.offset.values) : n = m := by
  obtain ⟨p, hp, -, -, -, hvalues, -⟩ := h.entry hn
  obtain ⟨q, hq, -, -, -, hvalues', -⟩ := h.entry hm
  obtain rfl : p = q := by
    rw [hvalues, hvalues'] at hoffset
    exact stepsTo_injective hoffset
  obtain ⟨hi, heq⟩ := List.getElem?_eq_some_iff.mp hp
  obtain rfl := (List.Nodup.getElem_inj_iff (DimVec.nodup_boxPoints _)).mp
    (heq.trans (List.getElem?_eq_some_iff.mp hq).2.symm)
  exact Option.some.inj (hn.symm.trans hm)

/-- A neighbor is one of the ranks of the grid. -/
theorem rank_lt (h : t.Sound grid) (hn : t.neighbor? i = some n) {r : Nat}
    (hr : n.rank = some r) : r < (grid.values.map Int.toNat).prod := by
  obtain ⟨p, -, -, -, -, -, hplace⟩ := h.entry hn
  rw [hr, rankOf] at hplace
  split at hplace
  · exact DimVec.layout_lt h.le_max hplace
  · cases hplace

/-- No rank is a neighbor twice. -/
theorem index_inj (h : t.Sound grid) {j : Nat} {m : Neighbor} (hn : t.neighbor? i = some n)
    (hm : t.neighbor? j = some m) {r : Nat} (hr : n.rank = some r) (hr' : m.rank = some r) :
    i = j := by
  obtain ⟨p, hp, hlen, -, -, -, hplace⟩ := h.entry hn
  obtain ⟨q, hq, hlen', -, -, -, hplace'⟩ := h.entry hm
  rw [hr, rankOf] at hplace
  rw [hr', rankOf] at hplace'
  split at hplace
  · split at hplace'
    · have hvalues : ∀ {x : List Int}, x.length = grid.length →
          (grid.withValues (placeOf t.indices x)).values = placeOf t.indices x := fun hx =>
        DimVec.values_withValues (by simp [placeOf, stepsTo, h.length_indices, hx])
      -- A rank has one place in the grid, and a place has one offset from here.
      have hplaces := DimVec.layout_injective h.le_max hplace hplace'
      rw [hvalues hlen, hvalues hlen'] at hplaces
      have hpq : p = q := placeOf_inj (by rw [hlen, hlen']) (by
        rw [hlen, DimVec.length_values, h.length_indices]) hplaces
      subst hpq
      obtain ⟨hi, heq⟩ := List.getElem?_eq_some_iff.mp hp
      exact (List.Nodup.getElem_inj_iff (DimVec.nodup_boxPoints _)).mp
        (heq.trans (List.getElem?_eq_some_iff.mp hq).2.symm)
    · cases hplace'
  · cases hplace

/-- Counting from the other end gives the opposite point of the box. -/
theorem opposite_point (h : t.Sound grid) {p : List Int} (hi : i < t.size)
    (hp : (DimVec.boxPoints (List.replicate grid.length 3))[i]? = some p)
    (hlen : p.length = grid.length) :
    (DimVec.boxPoints (List.replicate grid.length 3))[t.size - 1 - i]? = some (opposite p) := by
  rw [h.size] at hi ⊢
  rw [← List.getElem?_reverse hi, DimVec.reverse_boxPoints, List.getElem?_map, hp, opposite, hlen]
  rfl

/-- If `u` is the neighbor of `t` at an offset, then `t` is the neighbor of `u` at the opposite
offset, and the places of the two differ by the offset. -/
theorem neighbor_mirror (ht : t.Sound grid) (hu : u.Sound grid) (hn : t.neighbor? i = some n)
    (hr : n.rank = some u.rank) :
    ∃ m, u.neighbor? (t.size - 1 - i) = some m ∧ m.rank = some t.rank ∧
      m.offset.values = n.offset.values.map (- ·) ∧
      u.indices.values = List.zipWith (· + ·) t.indices.values n.offset.values := by
  have hi : i < t.size := (List.getElem?_eq_some_iff.mp hn).1
  obtain ⟨p, hp, hlen, -, -, hvalues, hplace⟩ := ht.entry hn
  -- The place the offset leads to is the place of `u`, because the numbers agree.
  have hindices : u.indices.values = placeOf t.indices p := by
    rw [hr, rankOf] at hplace
    split at hplace
    · have hwith : (grid.withValues (placeOf t.indices p)).values = placeOf t.indices p :=
        DimVec.values_withValues (by simp [placeOf, stepsTo, ht.length_indices, hlen])
      rw [← hwith]
      exact DimVec.layout_injective hu.le_max hu.rank hplace
    · simp at hplace
  have hopp := ht.opposite_point hi hp hlen
  obtain ⟨m, hm, -⟩ := hu.neighbor _ _ hopp
  obtain ⟨q, hq, -, -, -, hmvalues, hmplace⟩ := hu.entry hm
  obtain rfl : q = opposite p := Option.some.inj (hq.symm.trans hopp)
  have hback : placeOf u.indices (opposite p) = t.indices.values := by
    rw [placeOf, hindices, placeOf, stepsTo_opposite]
    exact zipWith_add_neg (by simp [stepsTo, ht.length_indices, hlen])
  refine ⟨m, hm, ?_, by rw [hmvalues, hvalues, stepsTo_opposite],
    by rw [hindices, hvalues, placeOf]⟩
  rw [hback, rankOf, if_pos (inside_of_forall₂ ht.indices_inside),
    DimVec.layout_congr (DimVec.values_withValues (by simp [ht.length_indices])),
    ht.rank] at hmplace
  exact (Except.ok.inj hmplace).symm

/-- The neighborhood has one place in the middle. -/
theorem size_odd (h : t.Sound grid) : t.size % 2 = 1 := by
  rw [h.size, DimVec.length_boxPoints, List.map_replicate]
  induction grid.length with
  | zero => rfl
  | succ k ih =>
    have hthree : Int.toNat 3 = 3 := rfl
    rw [hthree] at ih ⊢
    rw [List.replicate_succ, List.prod_cons]
    omega

theorem size_eq (ht : t.Sound grid) (hu : u.Sound grid) : t.size = u.size :=
  ht.size.trans hu.size.symm

/-- The offset that leads nowhere has the number in the middle. -/
theorem index_of_zero (h : t.Sound grid) (hn : t.neighbor? i = some n)
    (hzero : ∀ s ∈ n.offset.values, s = 0) : i = t.center := by
  obtain ⟨p, hp, hlen, -, -, hvalues, -⟩ := h.entry hn
  have hi : i < t.size := (List.getElem?_eq_some_iff.mp hn).1
  rw [hvalues] at hzero
  -- such a point is opposite to itself, so it is the same number from either end
  have hself : opposite p = p := by
    apply stepsTo_injective
    rw [stepsTo_opposite]
    refine (List.map_congr_left fun s hs => ?_).trans (List.map_id _)
    rw [hzero s hs]
    rfl
  have hopp := h.opposite_point hi hp hlen
  rw [hself] at hopp
  obtain ⟨hj, heq⟩ := List.getElem?_eq_some_iff.mp hopp
  obtain ⟨hi', heq'⟩ := List.getElem?_eq_some_iff.mp hp
  have hsame := (List.Nodup.getElem_inj_iff (DimVec.nodup_boxPoints _)).mp (heq.trans heq'.symm)
  have hodd := h.size_odd
  rw [h.center]
  omega

/-- The existing neighbors stand in the neighborhood under their numbers. -/
theorem mem_existing (h : t.Sound grid) :
    n ∈ t.existing ↔ t.neighbor? n.index = some n ∧ n.index ≠ t.center ∧ n.rank.isSome := by
  simp only [Topology.existing, List.mem_filter, decide_eq_true_eq]
  refine and_congr_left fun _ => ⟨fun hn => ?_, fun hn => List.mem_of_getElem? hn⟩
  obtain ⟨i, hi, rfl⟩ := List.getElem_of_mem hn
  have hget : t.neighbor? i = some t.neighbors[i] := List.getElem?_eq_getElem hi
  obtain ⟨-, -, -, hindex, -⟩ := h.entry hget
  rw [hindex]
  exact hget

theorem index_lt (h : t.Sound grid) (hn : n ∈ t.existing) : n.index < t.size :=
  (List.getElem?_eq_some_iff.mp ((h.mem_existing.mp hn).1)).1

/-- The table is in the order of the numbers. -/
theorem map_index (h : t.Sound grid) : t.neighbors.map (·.index) = List.range t.size := by
  refine List.ext_getElem (by simp [Topology.size]) fun i hi _ => ?_
  rw [List.length_map] at hi
  obtain ⟨-, -, -, hindex, -⟩ := h.entry (List.getElem?_eq_getElem hi)
  rw [List.getElem_map, List.getElem_range, hindex]

/-- So are the neighbors that exist. -/
theorem pairwise_index (h : t.Sound grid) : (t.existing.map (·.index)).Pairwise (· < ·) := by
  have hsub : List.Sublist (t.existing.map (·.index)) (t.neighbors.map (·.index)) :=
    List.filter_sublist.map _
  rw [h.map_index] at hsub
  exact List.pairwise_lt_range.sublist hsub

theorem nodup_index (h : t.Sound grid) : (t.existing.map (·.index)).Nodup :=
  h.pairwise_index.imp Nat.ne_of_lt

/-- If `u` is a neighbor of `t`, then `t` is the neighbor of `u` at the opposite offset. -/
theorem existing_mirror (ht : t.Sound grid) (hu : u.Sound grid) (hn : n ∈ t.existing)
    (hr : n.rank = some u.rank) :
    ∃ m ∈ u.existing, t.oppositeIndex? n.index = some m.index ∧ m.rank = some t.rank ∧
      m.offset.values = n.offset.values.map (- ·) := by
  obtain ⟨hget, hcenter, -⟩ := ht.mem_existing.mp hn
  have hlt := ht.index_lt hn
  obtain ⟨m, hm, hrank, hvalues, -⟩ := ht.neighbor_mirror hu hget hr
  obtain ⟨-, -, -, hindex, -⟩ := hu.entry hm
  refine ⟨m, hu.mem_existing.mpr ⟨hindex ▸ hm, ?_, by rw [hrank]; rfl⟩, ?_, hrank, hvalues⟩
  · have hodd := ht.size_odd
    have hsize := ht.size_eq hu
    have ht' := ht.center
    have hu' := hu.center
    omega
  · rw [oppositeIndex?, if_pos hlt, hindex]

/-- Seen from the neighbor, the opposite offset leads back. -/
theorem opposite_back (ht : t.Sound grid) (hu : u.Sound grid) (hn : n ∈ t.existing)
    (hr : n.rank = some u.rank) {m : Neighbor} (hm : m ∈ u.existing)
    (hmr : m.rank = some t.rank) : u.oppositeIndex? m.index = some n.index := by
  obtain ⟨n', hn', hopposite, hrank, -⟩ := hu.existing_mirror ht hm hmr
  rw [hopposite]
  exact congrArg some
    (ht.index_inj (ht.mem_existing.mp hn').1 (ht.mem_existing.mp hn).1 hrank hr)

/-- A rank is no neighbor of its own. -/
theorem rank_ne (h : t.Sound grid) (hn : n ∈ t.existing) : n.rank ≠ some t.rank := by
  intro hr
  obtain ⟨hget, hcenter, -⟩ := h.mem_existing.mp hn
  obtain ⟨m, hm, hrank, -⟩ := h.neighbor_mirror h hget hr
  -- It would be its own mirror image.
  have hmid := h.index_inj hget hm hr hrank
  have hodd := h.size_odd
  have hmiddle := h.center
  omega

end Sound

end StencilPlan.Topology
