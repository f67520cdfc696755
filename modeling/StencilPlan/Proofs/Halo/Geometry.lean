import Mathlib.Algebra.BigOperators.Group.List.Lemmas
import Mathlib.Algebra.Order.BigOperators.GroupWithZero.List
import Mathlib.Algebra.Order.Ring.Int
import StencilPlan.Halo.Table
import StencilPlan.Proofs.Dim.Catalog
import StencilPlan.Proofs.Dim.RowMajor

/-!
# Where halo buffers lie

Two local domains that meet have slabs that fit: what one of them sends is, point by point, what
the other one receives, once both are counted from the same origin. In one dimension this is
`slab_mirror`; a buffer is a slab in each dimension, and its points come in row-major order, so the
points of two buffers that fit come in the same order.
-/

namespace StencilPlan

/-! ### One dimension -/

/-- In one dimension, the domain that starts at `start` with `size` points and the one that starts
at `start'` with `size'` are the same if the second is at offset zero from the first, and otherwise
one ends where the other starts. -/
structure Meets (offset start size start' size' : Int) : Prop where
  same : offset = 0 → start' = start ∧ size' = size
  before : offset < 0 → start = start' + size'
  behind : 0 < offset → start' = start + size

/-- What is sent toward an offset has the width of what is received from the opposite one, and
lies at the same place of the whole domain. -/
theorem slab_mirror {offset start size start' size' left right : Int} {sent received : Int × Int}
    (hmeets : Meets offset start size start' size')
    (hsent : slab .send offset size left right = .ok sent)
    (hreceived : slab .recv (-offset) size' left right = .ok received) :
    received.2 = sent.2 ∧ received.1 + start' = sent.1 + start := by
  unfold slab at hsent hreceived
  -- The case of the offset is the case of the slab on both sides, mirrored.
  rcases Int.lt_trichotomy offset 0 with hneg | hzero | hpos
  · rw [if_neg (by omega), if_pos hneg] at hsent
    rw [if_neg (by omega), if_neg (by omega)] at hreceived
    simp only [pure_eq_ok] at hsent hreceived
    subst hsent hreceived
    have := hmeets.before hneg
    exact ⟨rfl, by dsimp only; omega⟩
  · subst hzero
    simp only [Int.neg_zero, if_true, pure_eq_ok] at hsent hreceived
    subst hsent hreceived
    obtain ⟨rfl, rfl⟩ := hmeets.same rfl
    exact ⟨rfl, rfl⟩
  · rw [if_neg (by omega), if_neg (by omega)] at hsent
    rw [if_neg (by omega), if_pos (by omega)] at hreceived
    simp only [bind_eq_ok, Idx.sub_eq_ok_iff, Idx.neg_eq_ok_iff, pure_eq_ok] at hsent hreceived
    obtain ⟨_, ⟨-, rfl⟩, rfl⟩ := hsent
    obtain ⟨_, ⟨-, rfl⟩, rfl⟩ := hreceived
    have := hmeets.behind hpos
    exact ⟨rfl, by dsimp only; omega⟩

/-- Where a slab starts and where it ends is in range, if there is room behind the domain for what
is received there. -/
theorem slab_inRange {d : Direction} {offset size left right : Int} {s : Int × Int}
    (h : slab d offset size left right = .ok s) (hsize : 0 ≤ size ∧ size ≤ Idx.max)
    (hroom : d = .recv → 0 < offset → size + s.2 ≤ Idx.max) (hwidth : s.2 ≤ Idx.max) :
    Idx.min ≤ s.1 ∧ s.1 + s.2 ≤ Idx.max := by
  have hmin : Idx.min ≤ 0 := by decide
  unfold slab at h
  split at h
  · simp only [pure_eq_ok] at h
    subst h
    exact ⟨hmin, by simpa using hsize.2⟩
  · split at h
    · cases d with
      | send =>
        simp only [pure_eq_ok] at h
        subst h
        exact ⟨hmin, by simpa using hwidth⟩
      | recv =>
        simp only [bind_eq_ok, Idx.neg_eq_ok_iff, pure_eq_ok] at h
        obtain ⟨_, ⟨hrange, rfl⟩, rfl⟩ := h
        refine ⟨hrange.1, ?_⟩
        have : (0 : Int) ≤ Idx.max := by decide
        dsimp only
        omega
    · cases d with
      | send =>
        simp only [bind_eq_ok, Idx.sub_eq_ok_iff, pure_eq_ok] at h
        obtain ⟨_, ⟨hrange, rfl⟩, rfl⟩ := h
        exact ⟨hrange.1, by dsimp only; omega⟩
      | recv =>
        simp only [pure_eq_ok] at h
        subst h
        exact ⟨by dsimp only; omega, hroom rfl (by omega)⟩

/-! ### The box of a buffer -/

/-- A box is made of the slabs of its dimensions. -/
theorem bufferBox_eq_ok {c : Catalog} {offset sizes left right first extent : DimVec}
    {d : Direction} (h : bufferBox c offset sizes left right d = .ok (first, extent)) :
    first.names = c.domain.names ∧ extent.names = c.domain.names ∧
      ∀ (j : Nat) (dim : String), c.domain.names[j]? = some dim →
        ∃ s, slab d (offset.getD dim 0) (sizes.getD dim 0) (left.getD dim 0) (right.getD dim 0) =
            .ok s ∧ first.values[j]? = some s.1 ∧ extent.values[j]? = some s.2 := by
  simp only [bufferBox, bind_eq_ok, mapM_eq_ok, pure_eq_ok, Prod.mk.injEq] at h
  obtain ⟨slabs, hslabs, rfl, rfl⟩ := h
  have hlen : slabs.length = c.domain.length := by
    rw [← hslabs.length_eq, DimVec.length_names]
  refine ⟨by simp, by simp, fun j dim hj => ?_⟩
  obtain ⟨hjlt, rfl⟩ := List.getElem?_eq_some_iff.mp hj
  have hjs : j < slabs.length := hslabs.length_eq ▸ hjlt
  refine ⟨slabs[j], hslabs.get hjlt hjs, ?_, ?_⟩
  · rw [DimVec.values_withValues (by simpa using hlen), List.getElem?_map,
      List.getElem?_eq_getElem hjs, Option.map_some]
  · rw [DimVec.values_withValues (by simpa using hlen), List.getElem?_map,
      List.getElem?_eq_getElem hjs, Option.map_some]

/-- The local domains of two ranks meet in every dimension. -/
def Meet (c : Catalog) (offset start size start' size' : DimVec) : Prop :=
  ∀ (j : Nat) (dim : String), c.domain.names[j]? = some dim →
    Meets (offset.getD dim 0) (start.getD dim 0) (size.getD dim 0) (start'.getD dim 0)
      (size'.getD dim 0)

/-- Two offsets that lead there and back. -/
def Opposite (c : Catalog) (offset offset' : DimVec) : Prop :=
  ∀ (j : Nat) (dim : String), c.domain.names[j]? = some dim →
    offset'.getD dim 0 = - offset.getD dim 0

/-- Seen from the other side, the domains meet at the opposite offset. -/
theorem Meet.symm {c : Catalog} {offset offset' start size start' size' : DimVec}
    (h : Meet c offset start size start' size') (hopp : Opposite c offset offset') :
    Meet c offset' start' size' start size := by
  intro j dim hj
  have hmeets := h j dim hj
  rw [hopp j dim hj]
  refine ⟨fun hzero => ?_, fun hneg => ?_, fun hpos => ?_⟩
  · obtain ⟨hstart, hsize⟩ := hmeets.same (by omega)
    exact ⟨hstart.symm, hsize.symm⟩
  · exact hmeets.behind (by omega)
  · exact hmeets.before (by omega)

theorem Opposite.symm {c : Catalog} {offset offset' : DimVec} (h : Opposite c offset offset') :
    Opposite c offset' offset := fun j dim hj => by
  rw [h j dim hj, Int.neg_neg]

section Mirror

variable {c : Catalog} {offset offset' start size start' size' left right : DimVec}
  {first extent first' extent' : DimVec}

/-- The box sent and the box received fit. -/
theorem bufferBox_mirror (hmeet : Meet c offset start size start' size')
    (hopp : Opposite c offset offset')
    (hsent : bufferBox c offset size left right .send = .ok (first, extent))
    (hreceived : bufferBox c offset' size' left right .recv = .ok (first', extent')) :
    extent' = extent ∧ ∀ (j : Nat) (dim : String), c.domain.names[j]? = some dim →
      ∃ x x', first.values[j]? = some x ∧ first'.values[j]? = some x' ∧
        x' + start'.getD dim 0 = x + start.getD dim 0 := by
  obtain ⟨hfn, hen, hs⟩ := bufferBox_eq_ok hsent
  obtain ⟨hfn', hen', hs'⟩ := bufferBox_eq_ok hreceived
  -- Dimension by dimension the two boxes are slabs that mirror each other.
  have hboth : ∀ (j : Nat) (dim : String), c.domain.names[j]? = some dim →
      ∃ s s' : Int × Int, first.values[j]? = some s.1 ∧ extent.values[j]? = some s.2 ∧
        first'.values[j]? = some s'.1 ∧ extent'.values[j]? = some s'.2 ∧
        s'.2 = s.2 ∧ s'.1 + start'.getD dim 0 = s.1 + start.getD dim 0 := by
    intro j dim hj
    obtain ⟨s, hslab, hf, he⟩ := hs j dim hj
    obtain ⟨s', hslab', hf', he'⟩ := hs' j dim hj
    rw [hopp j dim hj] at hslab'
    obtain ⟨hwidth, hplace⟩ := slab_mirror (hmeet j dim hj) hslab hslab'
    exact ⟨s, s', hf, he, hf', he', hwidth, hplace⟩
  refine ⟨DimVec.eq_of_names_of_values (hen'.trans hen.symm) (List.ext_getElem? fun j => ?_),
    fun j dim hj => ?_⟩
  · cases hj : c.domain.names[j]? with
    | some dim =>
      obtain ⟨s, s', -, he, -, he', hwidth, -⟩ := hboth j dim hj
      rw [he, he', hwidth]
    | none =>
      have hlen : c.domain.names.length ≤ j := List.getElem?_eq_none_iff.mp hj
      rw [List.getElem?_eq_none, List.getElem?_eq_none]
      · rwa [DimVec.length_values, ← DimVec.length_names, hen]
      · rwa [DimVec.length_values, ← DimVec.length_names, hen']
  · obtain ⟨s, s', hf, -, hf', -, -, hplace⟩ := hboth j dim hj
    exact ⟨s.1, s'.1, hf, hf', hplace⟩

end Mirror

/-! ### The points of a buffer -/

namespace HaloBuffer

/-- Where all extents are positive so is their product, and none of them is above it. -/
theorem product_pos {ns : List Int} {k : Int} (hpos : ∀ n ∈ ns, 0 < n)
    (h : Idx.product ns = .ok k) : 0 < k ∧ k ≤ Idx.max ∧ ∀ n ∈ ns, n ≤ k := by
  obtain ⟨rfl, hrange⟩ := Idx.product_eq_ok h
  have hprod : 0 < ns.prod := List.prod_pos hpos
  exact ⟨hprod, hrange.2, fun n hn => le_prod_of_mem hpos hn⟩

/-- Where all extents are positive their product is the number of points. -/
theorem product_of_size {b : HaloBuffer} {k : Nat} (hpos : ∀ n ∈ b.extent.values, 0 < n)
    (h : b.size = .ok k) : b.extent.product = .ok (k : Int) := by
  rw [size, if_neg (by simpa using hpos)] at h
  simp only [bind_eq_ok, pure_eq_ok] at h
  obtain ⟨p, hp, rfl⟩ := h
  obtain ⟨hppos, hpmax, -⟩ := product_pos hpos hp
  rw [hp, Word.ofIdx_of_nonneg (Int.le_of_lt hppos) hpmax, Int.toNat_of_nonneg (Int.le_of_lt hppos)]

/-- The number of points is zero if some extent is not positive; otherwise it is their product. -/
theorem size_eq_ok {b : HaloBuffer} {k : Nat} (h : b.size = .ok k) :
    (k = 0 ∧ ∃ n ∈ b.extent.values, n ≤ 0) ∨
      (0 < k ∧ (k : Int) ≤ Idx.max ∧ ∀ n ∈ b.extent.values, 0 < n ∧ n ≤ k) := by
  by_cases hpos : ∀ n ∈ b.extent.values, 0 < n
  · obtain ⟨hkpos, hkmax, hall⟩ := product_pos hpos (product_of_size hpos h)
    exact .inr ⟨by omega, hkmax, fun n hn => ⟨hpos n hn, hall n hn⟩⟩
  · obtain ⟨n, hn, hle⟩ : ∃ n ∈ b.extent.values, n ≤ 0 := by simpa using hpos
    rw [size, if_pos (List.any_eq_true.mpr ⟨n, hn, decide_eq_true hle⟩)] at h
    exact .inl ⟨(Except.ok.inj h).symm, n, hn, hle⟩

/-- Only the extent counts. -/
theorem size_congr {b b' : HaloBuffer} (h : b'.extent = b.extent) : b'.size = b.size := by
  unfold size
  rw [h]

/-- Every point of the box, shifted to where the box starts. -/
def boxFrom (first extent : DimVec) : List DimVec :=
  (DimVec.boxPoints extent.values).map fun p =>
    first.withValues (List.zipWith (· + ·) first.values p)

theorem shift_eq_ok {first offsets : DimVec} (hlen : offsets.length = first.length)
    (hrange : ∀ (j : Nat) (x v : Int), first.values[j]? = some x → offsets.values[j]? = some v →
      Idx.InRange (x + v)) :
    shift first offsets = .ok
      (first.withValues (List.zipWith (· + ·) first.values offsets.values)) := by
  simp only [shift, bind_eq_ok, mapM_eq_ok, pure_eq_ok]
  refine ⟨_, ?_, rfl⟩
  have hl : offsets.values.zipIdx.length =
      (List.zipWith (· + ·) first.values offsets.values).length := by
    simp [hlen]
  refine List.forall₂_iff_get.mpr ⟨hl, fun j h₁ h₂ => ?_⟩
  have hj : j < offsets.values.length := by simpa using h₁
  have hjf : j < first.values.length := by simpa [hlen] using hj
  simp only [List.get_eq_getElem, List.getElem_zipIdx, Nat.zero_add, List.getElem_zipWith,
    DimVec.nth_eq_ok_iff, Idx.add_eq_ok_iff]
  exact ⟨_, List.getElem?_eq_getElem hjf,
    hrange j _ _ (List.getElem?_eq_getElem hjf) (List.getElem?_eq_getElem hj), rfl⟩

/-- A point that could be shifted is shifted. -/
theorem of_shift {first offsets p : DimVec} (hlen : offsets.length = first.length)
    (h : shift first offsets = .ok p) :
    p = first.withValues (List.zipWith (· + ·) first.values offsets.values) := by
  simp only [shift, bind_eq_ok, mapM_eq_ok, pure_eq_ok] at h
  obtain ⟨vs, hvs, rfl⟩ := h
  congr 1
  refine List.ext_getElem ?_ fun j hj hj' => ?_
  · rw [← hvs.length_eq]
    simp [hlen]
  · have hjo : j < offsets.values.zipIdx.length := hvs.length_eq ▸ hj
    have hadd := hvs.get hjo hj
    simp only [List.get_eq_getElem, List.getElem_zipIdx, Nat.zero_add, DimVec.nth_eq_ok_iff,
      Idx.add_eq_ok_iff] at hadd
    obtain ⟨x, hx, -, heq⟩ := hadd
    rw [heq, List.getElem_zipWith, (List.getElem?_eq_some_iff.mp hx).2]

/-- The points of a buffer are collected in a sweep over its extent. -/
theorem points_eq_sweep {b : HaloBuffer} {k : Nat} (hk : b.size = .ok k) :
    b.points = if k = 0 then .ok [] else
      ((b.extent.sweep (DimVec.collector fun offsets _ => shift b.first offsets)
        (.ok [])).2).map List.reverse := by
  unfold points
  rw [hk]
  show (if k = 0 then _ else _) = _
  split
  · rfl
  · congr 3
    funext offsets i found
    dsimp only [DimVec.collector]
    cases found <;> cases shift b.first offsets <;> rfl

/-- The points of a buffer, in order, where none of their coordinates leaves its range. -/
theorem points_eq_ok {b : HaloBuffer} {k : Nat} (hsize : b.size = .ok k)
    (hlen : b.extent.length = b.first.length)
    (hrange : 0 < k → ∀ (j : Nat) (x n : Int), b.first.values[j]? = some x →
      b.extent.values[j]? = some n → Idx.min ≤ x ∧ x + n ≤ Idx.max) :
    b.points = .ok (if k = 0 then [] else boxFrom b.first b.extent) := by
  rw [points_eq_sweep hsize]
  rcases size_eq_ok hsize with ⟨rfl, -⟩ | ⟨hk, -, hpos⟩
  · rw [if_pos rfl, if_pos rfl]
  · rw [if_neg (by omega), if_neg (by omega)]
    -- No shift fails, so that the sweep collects all of them.
    have hshift : ∀ p ∈ DimVec.boxPoints b.extent.values, ∀ i,
        (fun offsets (_ : Nat) => shift b.first offsets) (b.extent.withValues p) i = .ok
          (b.first.withValues (List.zipWith (· + ·) b.first.values p)) := by
      intro p hp _
      have hplen : p.length = b.extent.length := by
        rw [DimVec.length_of_mem_boxPoints hp, DimVec.length_values]
      have hvalues := DimVec.values_withValues hplen
      have hinside := DimVec.mem_boxPoints.mp hp
      dsimp only
      rw [shift_eq_ok (by rw [DimVec.length_withValues, hlen]), hvalues]
      intro j x v hx hv
      rw [hvalues] at hv
      obtain ⟨hj, rfl⟩ := List.getElem?_eq_some_iff.mp hv
      have hje : j < b.extent.values.length := hinside.length_eq ▸ hj
      have hv' := hinside.get hje hj
      simp only [List.get_eq_getElem] at hv'
      have := hrange hk j x _ hx (List.getElem?_eq_getElem hje)
      exact ⟨by omega, by omega⟩
    exact DimVec.sweep_collector_ok
      (f := fun offsets _ => shift b.first offsets) (fun n hn => (hpos n hn).1) hshift

/-- There are as many points as the size says. -/
theorem length_points {b : HaloBuffer} {k : Nat} {ps : List DimVec} (hk : b.size = .ok k)
    (h : b.points = .ok ps) : ps.length = k := by
  rw [points_eq_sweep hk] at h
  split at h
  · next hzero =>
    obtain rfl := Except.ok.inj h
    exact hzero.symm
  · next hne =>
    rcases size_eq_ok hk with ⟨hzero, -⟩ | ⟨-, -, hpos⟩
    · exact absurd hzero hne
    · have hall : ∀ n ∈ b.extent.values, 0 < n := fun n hn => (hpos n hn).1
      have hprod := (Idx.product_eq_ok (product_of_size hall hk)).1
      rw [← natCast_prod_toNat fun n hn => Int.le_of_lt (hall n hn)] at hprod
      rw [(DimVec.sweep_collector hall h).1, DimVec.length_boxPoints]
      exact (Int.natCast_inj.mp hprod).symm

/-- Every point that is visited is a point of the box. -/
theorem points_subset {b : HaloBuffer} {ps : List DimVec} (h : b.points = .ok ps)
    (hlen : b.extent.length = b.first.length) : ps ⊆ boxFrom b.first b.extent := by
  obtain ⟨k, hk⟩ : ∃ k, b.size = .ok k := by
    simp only [points, bind_eq_ok] at h
    exact ⟨_, h.choose_spec.1⟩
  rw [points_eq_sweep hk] at h
  split at h
  · obtain rfl := Except.ok.inj h
    exact List.nil_subset _
  · next hne =>
    rcases size_eq_ok hk with ⟨hzero, -⟩ | ⟨-, -, hpos⟩
    · exact absurd hzero hne
    · -- What was collected at position `i` is the shift of the point at position `i`.
      obtain ⟨hcount, hget⟩ := DimVec.sweep_collector (fun n hn => (hpos n hn).1) h
      intro p hp
      obtain ⟨i, hi, rfl⟩ := List.getElem_of_mem hp
      obtain ⟨p, hp, hshift⟩ := hget i _ (List.getElem?_eq_getElem (hcount ▸ hi))
      rw [List.getElem?_eq_getElem hi, Option.some.injEq] at hp
      rw [hp]
      have hmem : (DimVec.boxPoints b.extent.values)[i] ∈ DimVec.boxPoints b.extent.values :=
        List.getElem_mem _
      generalize (DimVec.boxPoints b.extent.values)[i] = q at hshift hmem
      have hqlen : q.length = b.extent.length := by
        rw [DimVec.length_of_mem_boxPoints hmem, DimVec.length_values]
      rw [of_shift (by rw [DimVec.length_withValues, hlen]) hshift, DimVec.values_withValues hqlen]
      exact List.mem_map_of_mem hmem

end HaloBuffer

/-- A point counted from the first point of a rank, counted from the first point of all. -/
def globalPoint (start p : DimVec) : DimVec := p.map fun dim v => v + start.getD dim 0

/-- Buffers that fit have the same points, in the same order. -/
theorem map_globalPoint_boxFrom {c : Catalog} {start start' first first' extent : DimVec}
    (hfn : first.names = c.domain.names) (hfn' : first'.names = c.domain.names)
    (hen : extent.names = c.domain.names)
    (hplace : ∀ (j : Nat) (dim : String), c.domain.names[j]? = some dim →
      ∃ x x', first.values[j]? = some x ∧ first'.values[j]? = some x' ∧
        x' + start'.getD dim 0 = x + start.getD dim 0) :
    (HaloBuffer.boxFrom first' extent).map (globalPoint start') =
      (HaloBuffer.boxFrom first extent).map (globalPoint start) := by
  rw [HaloBuffer.boxFrom, HaloBuffer.boxFrom, List.map_map, List.map_map]
  refine List.map_congr_left fun p hp => ?_
  have hplen : p.length = c.domain.names.length := by
    rw [DimVec.length_of_mem_boxPoints hp, DimVec.length_values, ← DimVec.length_names, hen]
  have hvalues : ∀ {f : DimVec}, f.names = c.domain.names →
      (f.withValues (List.zipWith (· + ·) f.values p)).values =
        List.zipWith (· + ·) f.values p := by
    intro f hf
    refine DimVec.values_withValues ?_
    rw [List.length_zipWith, DimVec.length_values, ← DimVec.length_names, hf, hplen, Nat.min_self]
  refine DimVec.eq_of_names_of_values (by simp [globalPoint, hfn, hfn']) ?_
  rw [Function.comp_apply, Function.comp_apply, globalPoint, globalPoint]
  refine List.ext_getElem? fun j => ?_
  rw [DimVec.getElem?_values_map, DimVec.getElem?_values_map, DimVec.names_withValues,
    DimVec.names_withValues, hvalues hfn, hvalues hfn', hfn, hfn']
  cases hj : c.domain.names[j]? with
  | none => rfl
  | some dim =>
    obtain ⟨x, x', hx, hx', heq⟩ := hplace j dim hj
    -- both points are the same step away from the first one, and the starts make up the difference
    have hjp : j < p.length := hplen ▸ (List.getElem?_eq_some_iff.mp hj).1
    simp only [List.getElem?_zipWith, hx, hx', List.getElem?_eq_getElem hjp, Option.map_some,
      Option.bind_some, Option.some.injEq]
    omega

end StencilPlan
