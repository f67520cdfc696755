import StencilPlan.Proofs.Rank.Buildable

/-!
# The neighbor relation

A rank leads to another one at an offset if the entry of the offset in its table names that rank.
The table is a matter of numbers, but what it says is a matter of places: it leads to a rank just
where the places of the two differ by the offset (`Sound.leadsTo_iff`), so a rank is named by some
entry if and only if it is next to this one in every dimension (`Sound.exists_leadsTo_iff`). The
relation is symmetric when an offset is exchanged for the opposite one, and no rank is named twice
(`neighbors_symmetric`).
-/

namespace StencilPlan

namespace Topology

/-- The entry with a number names a rank. -/
def LeadsTo (t : Topology) (index rank : Nat) : Prop :=
  ∃ n, t.neighbor? index = some n ∧ n.rank = some rank

namespace Sound

variable {grid : DimVec} {t u : Topology} {i j : Nat} {n : Neighbor}

/-- The number of the place where a rank is. -/
theorem rankOf_indices (h : t.Sound grid) : rankOf grid t.indices.values = .ok (some t.rank) := by
  rw [rankOf, if_pos (inside_of_forall₂ h.indices_inside),
    DimVec.layout_congr (DimVec.values_withValues (by
      rw [DimVec.length_values, h.length_indices])), h.rank]

/-- An entry names a rank if and only if its offset leads from the one place to the other. -/
theorem leadsTo_iff (ht : t.Sound grid) (hu : u.Sound grid) (hn : t.neighbor? i = some n) :
    n.rank = some u.rank ↔
      u.indices.values = List.zipWith (· + ·) t.indices.values n.offset.values := by
  constructor
  · intro hr
    obtain ⟨-, -, -, -, hplace⟩ := ht.neighbor_mirror hu hn hr
    exact hplace
  · intro hplace
    obtain ⟨p, -, -, -, -, hvalues, hrank⟩ := ht.entry hn
    rw [hvalues] at hplace
    rw [placeOf, ← hplace, hu.rankOf_indices] at hrank
    exact (Except.ok.inj hrank).symm

/-- What the table of `t` says of `u`, the table of `u` says of `t` from the other end. -/
theorem leadsTo_mirror (ht : t.Sound grid) (hu : u.Sound grid) (h : t.LeadsTo i u.rank) :
    ∃ j, t.oppositeIndex? i = some j ∧ u.LeadsTo j t.rank := by
  obtain ⟨n, hn, hr⟩ := h
  obtain ⟨m, hm, hrank, -⟩ := ht.neighbor_mirror hu hn hr
  exact ⟨_, if_pos (List.getElem?_eq_some_iff.mp hn).1, m, hm, hrank⟩

/-- Two tables over one grid are counted from the other end in the same way. -/
theorem oppositeIndex?_eq (ht : t.Sound grid) (hu : u.Sound grid) :
    t.oppositeIndex? i = u.oppositeIndex? i := by
  rw [oppositeIndex?, oppositeIndex?, ht.size_eq hu]

/-- Counting from the other end twice comes back. -/
theorem oppositeIndex?_symm (h : t.oppositeIndex? i = some j) : t.oppositeIndex? j = some i := by
  simp only [oppositeIndex?, Option.ite_none_right_eq_some, Option.some.injEq] at h ⊢
  omega

/-- The entry from the other end has the opposite offset. -/
theorem offset_mirror (h : t.Sound grid) (hn : t.neighbor? i = some n) :
    ∃ j m, t.oppositeIndex? i = some j ∧ t.neighbor? j = some m ∧
      m.offset = n.offset.map fun _ o => -o := by
  have hi : i < t.size := (List.getElem?_eq_some_iff.mp hn).1
  obtain ⟨p, hp, hlen, -, hnames, hvalues, -⟩ := h.entry hn
  have hopp := h.opposite_point hi hp hlen
  obtain ⟨m, hm, -⟩ := h.neighbor _ _ hopp
  obtain ⟨q, hq, -, -, hnames', hvalues', -⟩ := h.entry hm
  obtain rfl : q = opposite p := Option.some.inj (hq.symm.trans hopp)
  refine ⟨_, m, if_pos hi, hm, DimVec.eq_of_names_of_values ?_ ?_⟩
  · rw [DimVec.names_map, hnames', hnames]
  · have hneg : (n.offset.map fun _ o => -o).values = n.offset.values.map (- ·) := by
      rw [DimVec.values_map, DimVec.values, List.map_map]
      rfl
    rw [hneg, hvalues', hvalues, stepsTo_opposite]

/-- One of the entries names a rank if and only if its place is at most one step away in every
dimension. -/
theorem exists_leadsTo_iff (ht : t.Sound grid) (hu : u.Sound grid) :
    (∃ i, t.LeadsTo i u.rank) ↔
      List.Forall₂ (fun x y => -1 ≤ y - x ∧ y - x ≤ 1) t.indices.values u.indices.values := by
  have hlen : t.indices.values.length = u.indices.values.length := by
    rw [DimVec.length_values, DimVec.length_values, ht.length_indices, hu.length_indices]
  constructor
  · rintro ⟨i, n, hn, hr⟩
    rw [(ht.leadsTo_iff hu hn).mp hr] at hlen ⊢
    rw [List.forall₂_iff_get]
    refine ⟨hlen, fun k hk hk' => ?_⟩
    rw [List.length_zipWith] at hk'
    have hbounds := ht.offset_bounds hn (List.getElem_mem (n := k) (by omega))
    simp only [List.get_eq_getElem, List.getElem_zipWith]
    omega
  · intro hnear
    -- The point of the neighborhood that stands for the difference of the two places.
    obtain ⟨p, hp, hplace⟩ : ∃ p ∈ DimVec.boxPoints (List.replicate grid.length 3),
        placeOf t.indices p = u.indices.values := by
      refine ⟨List.zipWith (fun x y => y - x + 1) t.indices.values u.indices.values, ?_, ?_⟩
      · rw [DimVec.mem_boxPoints, List.forall₂_iff_get]
        refine ⟨by simp [ht.length_indices, hu.length_indices], fun k hk hk' => ?_⟩
        rw [List.length_zipWith] at hk'
        have hk := hnear.get (i := k) (by omega) (by omega)
        simp only [List.get_eq_getElem, List.getElem_replicate, List.getElem_zipWith] at hk ⊢
        omega
      · refine List.ext_getElem (by simp [placeOf, stepsTo, hlen]) fun k hk hk' => ?_
        simp only [placeOf, stepsTo, List.getElem_zipWith, List.getElem_map]
        omega
    obtain ⟨i, hi⟩ := List.mem_iff_getElem?.mp hp
    obtain ⟨n, hn, -⟩ := ht.neighbor i p hi
    obtain ⟨q, hq, -, -, -, hvalues, -⟩ := ht.entry hn
    obtain rfl : q = p := Option.some.inj (hq.symm.trans hi)
    exact ⟨i, n, hn, (ht.leadsTo_iff hu hn).mpr (by rw [hvalues, ← hplace, placeOf])⟩

end Sound

end Topology

/-- For the topologies of any two places in a grid: an entry of the one names the other just where
its offset leads there, the other one names the first under the number counted from the other
end, offsets counted from the other end are opposite, and no rank is named twice. -/
theorem neighbors_symmetric {grid here there : DimVec} {v w : Verbosity} {a b : Topology}
    (hmax : ∀ n ∈ grid.values, n ≤ Idx.max)
    (ha : (Topology.build grid here).Yields v () a ())
    (hb : (Topology.build grid there).Yields w () b ()) :
    (∀ i, a.LeadsTo i b.rank ↔ ∃ j, a.oppositeIndex? i = some j ∧ b.LeadsTo j a.rank) ∧
      (∀ i n, a.neighbor? i = some n →
        (n.rank = some b.rank ↔
          b.indices.values = List.zipWith (· + ·) a.indices.values n.offset.values) ∧
        ∃ j m, a.oppositeIndex? i = some j ∧ a.neighbor? j = some m ∧
          m.offset = n.offset.map fun _ o => -o) ∧
      ((∃ i, a.LeadsTo i b.rank) ↔
        List.Forall₂ (fun x y => -1 ≤ y - x ∧ y - x ≤ 1) a.indices.values b.indices.values) ∧
      ∀ i j r, a.LeadsTo i r → a.LeadsTo j r → i = j := by
  obtain ⟨-, ha⟩ := Topology.sound_of_build hmax ha
  obtain ⟨-, hb⟩ := Topology.sound_of_build hmax hb
  refine ⟨fun i => ⟨ha.leadsTo_mirror hb, ?_⟩,
    fun i n hn => ⟨ha.leadsTo_iff hb hn, ha.offset_mirror hn⟩, ha.exists_leadsTo_iff hb, ?_⟩
  · -- Seen from the other rank it is the same statement, and counting twice comes back.
    rintro ⟨j, hj, hback⟩
    obtain ⟨k, hk, hleads⟩ := hb.leadsTo_mirror ha hback
    rw [← ha.oppositeIndex?_eq hb, Topology.Sound.oppositeIndex?_symm hj] at hk
    obtain rfl := Option.some.inj hk
    exact hleads
  · rintro i j r ⟨n, hn, hr⟩ ⟨m, hm, hr'⟩
    exact ha.index_inj hn hm hr hr'

/-- In a grid of two by three ranks the second rank has the fourth one at number six, so the fourth
one has it at number two. -/
theorem neighbors_symmetric_corner : ∃ a b : Topology,
    (Topology.build ⟨[("x", 2), ("y", 3)]⟩ ⟨[("x", 0), ("y", 1)]⟩).Yields none () a () ∧
    (Topology.build ⟨[("x", 2), ("y", 3)]⟩ ⟨[("x", 1), ("y", 0)]⟩).Yields none () b () ∧
    a.rank = 1 ∧ b.rank = 3 ∧ a.LeadsTo 6 b.rank ∧ b.LeadsTo 2 a.rank := by
  obtain ⟨a, ha, hleads⟩ := exists_eq_ok_of_any
    (x := ((Topology.build ⟨[("x", 2), ("y", 3)]⟩ ⟨[("x", 0), ("y", 1)]⟩).run none ()).result)
    (p := fun (t : Topology) => decide (t.rank = 1 ∧ t.size = 9) &&
      decide ((t.neighbor? 6).bind (·.rank) = some 3)) (by decide +kernel)
  obtain ⟨b, hb, hrank⟩ := exists_eq_ok_of_any
    (x := ((Topology.build ⟨[("x", 2), ("y", 3)]⟩ ⟨[("x", 1), ("y", 0)]⟩).run none ()).result)
    (p := fun (t : Topology) => decide (t.rank = 3)) (by decide +kernel)
  simp only [Bool.and_eq_true, decide_eq_true_eq, Option.bind_eq_some_iff] at hleads hrank
  obtain ⟨⟨hone, hsize⟩, n, hn, hr⟩ := hleads
  have ha := Task.yields_of_result ha
  have hb := Task.yields_of_result hb
  have hleads : a.LeadsTo 6 b.rank := ⟨n, hn, by rw [hrank, hr]⟩
  obtain ⟨hsymm, -⟩ := neighbors_symmetric (by decide) ha hb
  -- Number six of nine, counted from the other end, is number two.
  obtain ⟨j, hj, hback⟩ := (hsymm 6).mp hleads
  rw [Topology.oppositeIndex?, hsize, if_pos (by decide), Option.some.injEq] at hj
  subst hj
  exact ⟨a, b, ha, hb, hone, hrank, hleads, hback⟩

end StencilPlan
