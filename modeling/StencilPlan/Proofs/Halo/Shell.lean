import Mathlib.Data.List.GetD
import Mathlib.Data.List.Perm.Basic
import StencilPlan.Proofs.Dim.Box
import StencilPlan.Proofs.Halo.Pairing
import StencilPlan.Proofs.Stencil.Built

/-!
# The shell around a local domain

The halo of a rank is a shell around its local domain. A point of the shell lies, in each
dimension, before the domain, among its points or behind it, and so faces the neighbor at one
offset. The receive buffer of that neighbor has the point and no other one has it: receive buffers
are the parts into which the offsets cut the shell. Send buffers mirror this inside the domain, but
only as far as the domain is wide enough for them.
-/

namespace StencilPlan

/-! ### One dimension -/

/-- On which side of `size` points a coordinate is: minus one before the first point, plus one
behind the last one and zero among them. -/
def sideOf (size x : Int) : Int := if x < 0 then -1 else if x < size then 0 else 1

/-- What is received from an offset are the coordinates on its side that the halo reaches. -/
theorem slab_recv_iff {offset size left right x : Int} {s : Int × Int}
    (h : slab .recv offset size left right = .ok s) (hsize : 0 < size) (hleft : 0 ≤ left)
    (hright : 0 ≤ right) (hge : -1 ≤ offset) (hle : offset ≤ 1) :
    (s.1 ≤ x ∧ x < s.1 + s.2) ↔ offset = sideOf size x ∧ -left ≤ x ∧ x < size + right := by
  -- The slab has a formula of its own for each sign of the offset, and so has the side of a point.
  unfold slab at h
  unfold sideOf
  split at h
  · simp only [pure_eq_ok] at h
    subst h
    dsimp only
    split <;> [skip; split] <;> omega
  · split at h
    · simp only [bind_eq_ok, Idx.neg_eq_ok_iff, pure_eq_ok] at h
      obtain ⟨_, ⟨-, rfl⟩, rfl⟩ := h
      dsimp only
      split <;> [skip; split] <;> omega
    · simp only [pure_eq_ok] at h
      subst h
      dsimp only
      split <;> [skip; split] <;> omega

/-- What is sent toward an offset lies in the domain if the domain is as wide as the halo on the
other side, and if it is less wide something outside is sent. -/
theorem slab_send_inside {offset size left right : Int} {s : Int × Int}
    (h : slab .send offset size left right = .ok s) :
    (0 ≤ s.1 ∧ s.1 + s.2 ≤ size) ↔
      (offset < 0 → right ≤ size) ∧ (0 < offset → left ≤ size) := by
  unfold slab at h
  split at h
  · simp only [pure_eq_ok] at h
    subst h
    dsimp only
    omega
  · split at h
    · simp only [pure_eq_ok] at h
      subst h
      dsimp only
      omega
    · simp only [bind_eq_ok, Idx.sub_eq_ok_iff, pure_eq_ok] at h
      obtain ⟨_, ⟨-, rfl⟩, rfl⟩ := h
      dsimp only
      omega

/-! ### Boxes -/

namespace Covers

variable {c : Catalog} {offset sizes left right : DimVec} {d : Direction} {b : HaloBuffer}

/-- The slab of a buffer in one dimension, looked up by name. -/
theorem slab_of_name (h : Covers c offset sizes left right d b) (hc : c.WellFormed) {dim : String}
    (hdim : dim ∈ c.domain.names) :
    slab d (offset.getD dim 0) (sizes.getD dim 0) (left.getD dim 0) (right.getD dim 0) =
      .ok (b.first.getD dim 0, b.extent.getD dim 0) := by
  obtain ⟨hfirst, hextent, hslab⟩ := bufferBox_eq_ok h.box
  obtain ⟨j, hj⟩ := List.mem_iff_getElem?.mp hdim
  obtain ⟨s, hs, hstart, hwidth⟩ := hslab j dim hj
  rwa [hc.getD_eq hfirst hj hstart, hc.getD_eq hextent hj hwidth]

/-- A buffer with room for a value has points in every dimension. -/
theorem extent_pos (h : Covers c offset sizes left right d b) {k : Nat} (hk : b.size = .ok k)
    (hpos : k ≠ 0) {dim : String} (hdim : dim ∈ c.domain.names) : 0 < b.extent.getD dim 0 := by
  obtain ⟨-, hextent, -⟩ := bufferBox_eq_ok h.box
  rcases HaloBuffer.size_eq_ok hk with ⟨hzero, -⟩ | ⟨-, -, hall⟩
  · exact absurd hzero hpos
  · exact (hall _ (DimVec.getD_mem_values (hextent ▸ hdim))).1

/-- A buffer without room for a value has no points. -/
theorem not_inBox_of_empty (h : Covers c offset sizes left right d b) (hc : c.WellFormed)
    (hk : b.size = .ok 0) (x : String → Int) : ¬ InBox c.domain.names b.first b.extent x := by
  obtain ⟨-, hextent, -⟩ := bufferBox_eq_ok h.box
  rcases HaloBuffer.size_eq_ok hk with ⟨-, n, hn, hle⟩ | ⟨hpos, -⟩
  · intro hx
    rw [← DimVec.map_getD_names (hextent ▸ hc.nodup) 0, List.mem_map] at hn
    obtain ⟨dim, hdim, rfl⟩ := hn
    have := hx dim (hextent ▸ hdim)
    omega
  · exact absurd hpos (Nat.lt_irrefl 0)

end Covers

/-- The point `x` lies in the local domain of `size` points or in the halo around it. -/
def InHalo (dims : List String) (size left right : DimVec) (x : String → Int) : Prop :=
  ∀ dim ∈ dims, -left.getD dim 0 ≤ x dim ∧ x dim < size.getD dim 0 + right.getD dim 0

instance (dims : List String) (size left right : DimVec) (x : String → Int) :
    Decidable (InHalo dims size left right x) :=
  inferInstanceAs (Decidable (∀ dim ∈ dims, _))

/-- The offset is the one toward which the point `x` lies, seen from a local domain of `size`
points. -/
def Faces (dims : List String) (size offset : DimVec) (x : String → Int) : Prop :=
  ∀ dim ∈ dims, offset.getD dim 0 = sideOf (size.getD dim 0) (x dim)

/-- What is received from an offset are the points of the halo that lie toward it. -/
theorem Covers.inBox_recv_iff {c : Catalog} {offset sizes left right : DimVec} {b : HaloBuffer}
    (h : Covers c offset sizes left right .recv b) (hc : c.WellFormed)
    (hsize : ∀ dim ∈ c.domain.names, 0 < sizes.getD dim 0)
    (hleft : ∀ dim, 0 ≤ left.getD dim 0) (hright : ∀ dim, 0 ≤ right.getD dim 0)
    (hoffset : ∀ dim ∈ c.domain.names, -1 ≤ offset.getD dim 0 ∧ offset.getD dim 0 ≤ 1)
    {x : String → Int} :
    InBox c.domain.names b.first b.extent x ↔
      Faces c.domain.names sizes offset x ∧ InHalo c.domain.names sizes left right x := by
  -- One dimension says it all: boxes, sides and halos are each a condition for every dimension.
  have hdim : ∀ dim ∈ c.domain.names, (b.first.getD dim 0 ≤ x dim ∧
      x dim < b.first.getD dim 0 + b.extent.getD dim 0) ↔
      offset.getD dim 0 = sideOf (sizes.getD dim 0) (x dim) ∧
        -left.getD dim 0 ≤ x dim ∧ x dim < sizes.getD dim 0 + right.getD dim 0 := fun dim hdim =>
    slab_recv_iff (h.slab_of_name hc hdim) (hsize dim hdim) (hleft dim) (hright dim)
      (hoffset dim hdim).1 (hoffset dim hdim).2
  constructor
  · intro hx
    exact ⟨fun dim h => ((hdim dim h).mp (hx dim h)).1, fun dim h => ((hdim dim h).mp (hx dim h)).2⟩
  · rintro ⟨hfaces, hhalo⟩ dim h
    exact (hdim dim h).mpr ⟨hfaces dim h, hhalo dim h⟩

/-- What is sent toward an offset lies in the local domain if no halo toward it is wider than the
domain, and else it does not. -/
theorem Covers.send_inside_iff {c : Catalog} {offset sizes left right : DimVec} {b : HaloBuffer}
    (h : Covers c offset sizes left right .send b) (hc : c.WellFormed) {k : Nat}
    (hk : b.size = .ok k) (hpos : k ≠ 0) :
    (∀ x, InBox c.domain.names b.first b.extent x →
        InBox c.domain.names (c.domainVec 0) sizes x) ↔
      ∀ dim ∈ c.domain.names,
        (offset.getD dim 0 < 0 → right.getD dim 0 ≤ sizes.getD dim 0) ∧
        (0 < offset.getD dim 0 → left.getD dim 0 ≤ sizes.getD dim 0) := by
  rw [inBox_subset_iff fun dim hdim => h.extent_pos hk hpos hdim]
  refine forall₂_congr fun dim hdim => ?_
  rw [Catalog.getD_domainVec hdim, Int.zero_add]
  exact slab_send_inside (h.slab_of_name hc hdim)

/-! ### The buffers of a rank -/

/-- The table that the two steps of the allocation give a rank with some topology and sizes. Other
ranks may change the world before, between and after the steps. -/
inductive Allocated (stencil : Stencil) (sizes : Settings) (topology : Topology) : HaloTable → Prop
  | intro {v₁ v₂ : Verbosity} {a : Allocator} {site site₁ site₂ : Site Universe} {words : PoolWords}
      {world : World Universe}
      (hoffer : (Site.offer stencil sizes topology a).Yields v₁ site words site₁)
      (hsettle : (Site.settle sizes topology.rank words).Yields v₂ ⟨site₁.table, world⟩ () site₂) :
      Allocated stencil sizes topology site₂.table

/-- The topology of a rank of some grid over the dimensions of a catalog. -/
def Topology.BuiltOver (c : Catalog) (t : Topology) : Prop :=
  ∃ (v : Verbosity) (grid indices : DimVec), grid.names = c.domain.names ∧
    (∀ n ∈ grid.values, n ≤ Idx.max) ∧ (Topology.build grid indices).Yields v () t ()

/-- The topology is sound in some grid over the dimensions of a catalog. -/
def Topology.SoundOver (c : Catalog) (t : Topology) : Prop :=
  ∃ grid : DimVec, grid.names = c.domain.names ∧ t.Sound grid

theorem Topology.BuiltOver.sound {c : Catalog} {t : Topology} (h : t.BuiltOver c) :
    t.SoundOver c := by
  obtain ⟨v, grid, indices, hnames, hmax, hbuild⟩ := h
  exact ⟨grid, hnames, (sound_of_build hmax hbuild).2⟩

section Shell

variable {stencil : Stencil} {sizes : Settings} {topology : Topology} {t : HaloTable} {var : String}
  {n m : Neighbor}

/-- What an allocated table has for a variable toward an existing neighbor. -/
theorem Allocated.makes (h : Allocated stencil sizes topology t)
    (ht : topology.SoundOver stencil.catalog) (hvar : var ∈ stencil.vars)
    (hn : n ∈ topology.existing) : ∃ sharesNode,
    Makes stencil.catalog sizes (stencil.haloWidths var none true)
      (stencil.haloWidths var none false) sharesNode n
      ((t.get? var n.index).map NeighborBuffers.bare) := by
  obtain ⟨grid, -, hsound⟩ := ht
  cases h with
  | intro hoffer hsettle =>
    obtain ⟨vs, hlaid, houtline⟩ := (offered_of_offer hsound hoffer).outline
    have hout := (Site.attached_of_settle hsettle).outline.trans houtline
    exact ⟨_, (@LaidOut.get? _ _ _ _ _ _ _ hlaid hout var _ hn).2.1 hvar⟩

/-- The two boxes of an entry are those toward the offset of the neighbor. -/
theorem Allocated.covers (h : Allocated stencil sizes topology t)
    (ht : topology.SoundOver stencil.catalog) (hvar : var ∈ stencil.vars)
    (hn : n ∈ topology.existing) {b : NeighborBuffers} (hb : t.get? var n.index = some b) :
    Covers stencil.catalog n.offset sizes.localDomain (stencil.haloWidths var none true)
        (stencil.haloWidths var none false) .send b.send.bare ∧
      Covers stencil.catalog n.offset sizes.localDomain (stencil.haloWidths var none true)
        (stencil.haloWidths var none false) .recv b.recv.bare ∧
      b.send.size = .ok b.send.count := by
  obtain ⟨sharesNode, hmakes⟩ := h.makes ht hvar hn
  rw [hb, Option.map_some] at hmakes
  obtain ⟨hsend, hrecv, -, -, hsize⟩ := hmakes.of_some
  exact ⟨hsend, hrecv, hsize⟩

/-- The offset toward a neighbor is over the domain dimensions, and a step in each of them. -/
theorem Topology.SoundOver.offset_bounds {c : Catalog} (ht : topology.SoundOver c)
    (hn : n ∈ topology.existing) : n.offset.names = c.domain.names ∧
      ∀ dim ∈ c.domain.names, -1 ≤ n.offset.getD dim 0 ∧ n.offset.getD dim 0 ≤ 1 := by
  obtain ⟨grid, hnames, hsound⟩ := ht
  have hget := (hsound.mem_existing.mp hn).1
  obtain ⟨-, -, -, -, hoffset, -, -⟩ := hsound.entry hget
  rw [hnames] at hoffset
  exact ⟨hoffset, fun dim hdim =>
    hsound.offset_bounds hget (DimVec.getD_mem_values (hoffset ▸ hdim))⟩

/-- A point lies toward one neighbor only. -/
theorem eq_of_faces {c : Catalog} (hc : c.WellFormed) (ht : topology.SoundOver c)
    (hn : n ∈ topology.existing) (hm : m ∈ topology.existing) {size : DimVec} {x : String → Int}
    (hx : Faces c.domain.names size n.offset x) (hx' : Faces c.domain.names size m.offset x) :
    n = m := by
  have hnames := (ht.offset_bounds hn).1
  have hnames' := (ht.offset_bounds hm).1
  obtain ⟨grid, -, hsound⟩ := ht
  -- The point says which step there is in each dimension.
  apply hsound.offset_inj (hsound.mem_existing.mp hn).1 (hsound.mem_existing.mp hm).1
  rw [← DimVec.map_getD_names (hnames ▸ hc.nodup) 0, ← DimVec.map_getD_names (hnames' ▸ hc.nodup) 0,
    hnames, hnames']
  exact List.map_congr_left fun dim hdim => (hx dim hdim).trans (hx' dim hdim).symm

/-- A point of the local domain lies toward no neighbor: the step is zero in every dimension, and
the place in the middle is the rank itself. -/
theorem not_faces_of_local {c : Catalog} (hc : c.WellFormed)
    (ht : topology.SoundOver c) (hn : n ∈ topology.existing) {size : DimVec} {x : String → Int}
    (hx : InBox c.domain.names (c.domainVec 0) size x) :
    ¬ Faces c.domain.names size n.offset x := by
  have hnames := (ht.offset_bounds hn).1
  obtain ⟨grid, -, hsound⟩ := ht
  obtain ⟨hget, hcenter, -⟩ := hsound.mem_existing.mp hn
  intro hfaces
  apply hcenter
  apply hsound.index_of_zero hget
  intro s hs
  rw [← DimVec.map_getD_names (hnames ▸ hc.nodup) 0, hnames, List.mem_map] at hs
  obtain ⟨dim, hdim, rfl⟩ := hs
  have hin := hx dim hdim
  rw [Catalog.getD_domainVec hdim] at hin
  rw [hfaces dim hdim, sideOf, if_neg (by omega), if_pos (by omega)]

/-! ### The parts of the shell -/

/-- The point `x` is one that the table receives from a neighbor for a variable. -/
def HaloTable.Receives (t : HaloTable) (dims : List String) (var : String) (n : Neighbor)
    (x : String → Int) : Prop :=
  ∃ b, t.get? var n.index = some b ∧ InBox dims b.recv.first b.recv.extent x

variable (h : Allocated stencil sizes topology t) (hc : stencil.catalog.WellFormed)
  (ht : topology.SoundOver stencil.catalog)
  (hsize : ∀ dim ∈ stencil.catalog.domain.names, 0 < sizes.localDomain.getD dim 0)
  (hvar : var ∈ stencil.vars)

include h hc ht hsize hvar

/-- What is received from a neighbor are the points of the halo that lie toward it. -/
theorem Allocated.inBox_recv_iff (hn : n ∈ topology.existing) {b : NeighborBuffers}
    (hb : t.get? var n.index = some b) {x : String → Int} :
    InBox stencil.catalog.domain.names b.recv.first b.recv.extent x ↔
      Faces stencil.catalog.domain.names sizes.localDomain n.offset x ∧
        InHalo stencil.catalog.domain.names sizes.localDomain (stencil.haloWidths var none true)
          (stencil.haloWidths var none false) x :=
  (h.covers ht hvar hn hb).2.1.inBox_recv_iff hc hsize (stencil.haloWidths_nonneg var none true)
    (stencil.haloWidths_nonneg var none false) (ht.offset_bounds hn).2

/-- Toward a neighbor without an entry lies no point of the halo. -/
theorem Allocated.isSome_of_faces (hn : n ∈ topology.existing) {x : String → Int}
    (hfaces : Faces stencil.catalog.domain.names sizes.localDomain n.offset x)
    (hhalo : InHalo stencil.catalog.domain.names sizes.localDomain
      (stencil.haloWidths var none true) (stencil.haloWidths var none false) x) :
    ∃ b, t.get? var n.index = some b := by
  obtain ⟨sharesNode, hmakes⟩ := h.makes ht hvar hn
  cases hget : t.get? var n.index with
  | some b => exact ⟨b, rfl⟩
  | none =>
    rw [hget, Option.map_none] at hmakes
    -- No entry is made where there are no points to send or receive.
    cases hmakes with
    | nothing _ hrecv _ hempty =>
      have hin := (hrecv.inBox_recv_iff hc hsize (stencil.haloWidths_nonneg var none true)
        (stencil.haloWidths_nonneg var none false) (ht.offset_bounds hn).2).mpr ⟨hfaces, hhalo⟩
      exact absurd hin (hrecv.not_inBox_of_empty hc hempty x)

/-- No point is received from two neighbors. -/
theorem Allocated.receives_disjoint (hn : n ∈ topology.existing) (hm : m ∈ topology.existing)
    {x : String → Int} (hx : t.Receives stencil.catalog.domain.names var n x)
    (hx' : t.Receives stencil.catalog.domain.names var m x) : n = m := by
  obtain ⟨b, hb, hin⟩ := hx
  obtain ⟨b', hb', hin'⟩ := hx'
  exact eq_of_faces hc ht hn hm ((h.inBox_recv_iff hc ht hsize hvar hn hb).mp hin).1
    ((h.inBox_recv_iff hc ht hsize hvar hm hb').mp hin').1

/-- No point of the local domain is received. -/
theorem Allocated.receives_outside (hn : n ∈ topology.existing) {x : String → Int}
    (hx : t.Receives stencil.catalog.domain.names var n x) :
    ¬ InBox stencil.catalog.domain.names (stencil.catalog.domainVec 0) sizes.localDomain x := by
  obtain ⟨b, hb, hin⟩ := hx
  intro hlocal
  exact not_faces_of_local hc ht hn hlocal ((h.inBox_recv_iff hc ht hsize hvar hn hb).mp hin).1

/-- The points received are those of the halo that lie toward an existing neighbor. -/
theorem Allocated.exists_receives_iff {x : String → Int} :
    (∃ n ∈ topology.existing, t.Receives stencil.catalog.domain.names var n x) ↔
      InHalo stencil.catalog.domain.names sizes.localDomain (stencil.haloWidths var none true)
          (stencil.haloWidths var none false) x ∧
        ∃ n ∈ topology.existing,
          Faces stencil.catalog.domain.names sizes.localDomain n.offset x := by
  constructor
  · rintro ⟨n, hn, b, hb, hin⟩
    obtain ⟨hfaces, hhalo⟩ := (h.inBox_recv_iff hc ht hsize hvar hn hb).mp hin
    exact ⟨hhalo, n, hn, hfaces⟩
  · rintro ⟨hhalo, n, hn, hfaces⟩
    obtain ⟨b, hb⟩ := h.isSome_of_faces hc ht hsize hvar hn hfaces hhalo
    exact ⟨n, hn, b, hb, (h.inBox_recv_iff hc ht hsize hvar hn hb).mpr ⟨hfaces, hhalo⟩⟩

end Shell

/-! ### The order of unpacking -/

/-- What the variables hold at the points of the halo. -/
abbrev Halos := String × DimVec → Binary64

/-- What came from a neighbor for a variable: a value for each point of the receive buffer. -/
structure Parcel where
  var : String
  neighbor : Neighbor
  values : List Binary64

/-- Writes values, each to its place. -/
def Halos.write (f : Halos) (es : List ((String × DimVec) × Binary64)) : Halos :=
  es.foldl (fun f e => Function.update f e.1 e.2) f

/-- Unpacks what came from a neighbor to the points of the receive buffer, in their order. -/
def HaloTable.unpack (t : HaloTable) (f : Halos) (p : Parcel) : Halos :=
  match t.get? p.var p.neighbor.index with
  | none => f
  | some b =>
    match b.recv.points with
    | .ok points => f.write ((points.map (p.var, ·)).zip p.values)
    | .error _ => f

namespace Halos

variable {f : Halos} {es fs : List ((String × DimVec) × Binary64)}

theorem write_update {k : String × DimVec} {v : Binary64} (h : ∀ e ∈ es, e.1 ≠ k) :
    Halos.write (Function.update f k v) es = Function.update (f.write es) k v := by
  induction es generalizing f with
  | nil => rfl
  | cons e es ih =>
    obtain ⟨hne, hrest⟩ := List.forall_mem_cons.mp h
    show Halos.write (Function.update (Function.update f k v) e.1 e.2) es = _
    rw [Function.update_comm hne.symm, ih hrest]
    rfl

/-- Writing to different places can be done in either order. -/
theorem write_comm (h : ∀ a ∈ es, ∀ b ∈ fs, b.1 ≠ a.1) :
    (f.write es).write fs = (f.write fs).write es := by
  induction es generalizing f with
  | nil => rfl
  | cons e es ih =>
    obtain ⟨hfirst, hrest⟩ := List.forall_mem_cons.mp h
    show Halos.write (Halos.write (Function.update f e.1 e.2) es) fs =
      Halos.write (Function.update (f.write fs) e.1 e.2) es
    rw [ih hrest, write_update hfirst]

end Halos

/-- The points of a buffer lie in its box. -/
theorem Covers.inBox_of_points {c : Catalog} {offset sizes left right : DimVec} {d : Direction}
    {b : HaloBuffer} (h : Covers c offset sizes left right d b) (hc : c.WellFormed)
    {ps : List DimVec} (hps : b.points = .ok ps) {p : DimVec} (hp : p ∈ ps) :
    InBox c.domain.names b.first b.extent fun dim => p.getD dim 0 := by
  obtain ⟨hfirst, hextent, -⟩ := bufferBox_eq_ok h.box
  have hlen : b.extent.length = b.first.length := by
    rw [← DimVec.length_names, hextent, ← hfirst, DimVec.length_names]
  obtain ⟨q, hq, rfl⟩ := List.mem_map.mp (HaloBuffer.points_subset hps hlen hp)
  have hinside := DimVec.mem_boxPoints.mp hq
  have hzip : (List.zipWith (· + ·) b.first.values q).length = b.first.length := by
    rw [List.length_zipWith, ← hinside.length_eq, DimVec.length_values, DimVec.length_values, hlen,
      Nat.min_self]
  -- In each dimension the coordinate is a step into the box, counted from where the box starts.
  intro dim hdim
  obtain ⟨j, hj⟩ := List.mem_iff_getElem?.mp hdim
  obtain ⟨start, hstart⟩ := DimVec.exists_value hfirst hj
  obtain ⟨width, hwidth⟩ := DimVec.exists_value hextent hj
  obtain ⟨hje, rfl⟩ := List.getElem?_eq_some_iff.mp hwidth
  have hjq : j < q.length := hinside.length_eq ▸ hje
  have hin := hinside.get hje hjq
  have hpoint : (b.first.withValues (List.zipWith (· + ·) b.first.values q)).getD dim 0 =
      start + q[j] :=
    hc.getD_eq ((DimVec.names_withValues _ _).trans hfirst) hj (by
      rw [DimVec.values_withValues hzip, List.getElem?_zipWith, hstart,
        List.getElem?_eq_getElem hjq])
  simp only [List.get_eq_getElem] at hin
  dsimp only
  rw [hpoint, hc.getD_eq hfirst hj hstart, hc.getD_eq hextent hj hwidth]
  omega

section Tiling

variable {stencil : Stencil} {sizes : Settings} {topology : Topology} {t : HaloTable}

/-- Different parcels go to different points. -/
theorem Allocated.unpack_comm (h : Allocated stencil sizes topology t)
    (hc : stencil.catalog.WellFormed) (ht : topology.SoundOver stencil.catalog)
    (hsize : ∀ dim ∈ stencil.catalog.domain.names, 0 < sizes.localDomain.getD dim 0)
    {p q : Parcel} (hp : p.var ∈ stencil.vars ∧ p.neighbor ∈ topology.existing)
    (hq : q.var ∈ stencil.vars ∧ q.neighbor ∈ topology.existing)
    (hne : (p.var, p.neighbor) ≠ (q.var, q.neighbor)) (f : Halos) :
    t.unpack (t.unpack f p) q = t.unpack (t.unpack f q) p := by
  have hpoint : ∀ {r : Parcel} {b : NeighborBuffers} {ps : List DimVec},
      r.var ∈ stencil.vars ∧ r.neighbor ∈ topology.existing →
      t.get? r.var r.neighbor.index = some b → b.recv.points = .ok ps →
      ∀ e ∈ (ps.map (r.var, ·)).zip r.values, e.1.1 = r.var ∧
        t.Receives stencil.catalog.domain.names r.var r.neighbor fun dim => e.1.2.getD dim 0 := by
    intro r b ps hr hb hps e he
    obtain ⟨point, hpoint, heq⟩ := List.mem_map.mp (List.of_mem_zip he).1
    rw [← heq]
    exact ⟨rfl, b, hb, (h.covers ht hr.1 hr.2 hb).2.1.inBox_of_points hc hps hpoint⟩
  unfold HaloTable.unpack
  cases hb : t.get? p.var p.neighbor.index with
  | none => rfl
  | some b =>
    cases hb' : t.get? q.var q.neighbor.index with
    | none => rfl
    | some b' =>
      dsimp only
      cases hps : b.recv.points with
      | error e => rfl
      | ok ps =>
        cases hps' : b'.recv.points with
        | error e => rfl
        | ok ps' =>
          -- Two parcels for one point would be for one variable, and from one neighbor.
          apply Halos.write_comm
          intro e he e' he' heq
          obtain ⟨hvar, hreceives⟩ := hpoint hp hb hps e he
          obtain ⟨hvar', hreceives'⟩ := hpoint hq hb' hps' e' he'
          rw [heq] at hvar' hreceives'
          have hsame : p.var = q.var := hvar.symm.trans hvar'
          rw [← hsame] at hreceives'
          exact hne (Prod.ext hsame
            (h.receives_disjoint hc ht hsize hp.1 hp.2 hq.2 hreceives hreceives'))

/-- The receive buffers of a rank tile its halo. No point is received from two neighbors, none lies
in the local domain, and those received are all the points around the local domain, as far as the
halo reaches, that lie toward an existing neighbor. So what the halo holds after everything is
unpacked does not depend on the order. -/
theorem recvBoxes_tile_halo (h : Allocated stencil sizes topology t)
    (hc : stencil.catalog.Built) (ht : topology.BuiltOver stencil.catalog)
    (hsize : ∀ dim ∈ stencil.catalog.domain.names, 0 < sizes.localDomain.getD dim 0) :
    (∀ var ∈ stencil.vars, ∀ x : String → Int,
      (∀ n ∈ topology.existing, ∀ m ∈ topology.existing,
        t.Receives stencil.catalog.domain.names var n x →
        t.Receives stencil.catalog.domain.names var m x → n = m) ∧
      ((∃ n ∈ topology.existing, t.Receives stencil.catalog.domain.names var n x) ↔
        ¬ InBox stencil.catalog.domain.names (stencil.catalog.domainVec 0) sizes.localDomain x ∧
        InHalo stencil.catalog.domain.names sizes.localDomain (stencil.haloWidths var none true)
          (stencil.haloWidths var none false) x ∧
        ∃ n ∈ topology.existing,
          Faces stencil.catalog.domain.names sizes.localDomain n.offset x)) ∧
    ∀ ps qs : List Parcel,
      (∀ p ∈ ps, p.var ∈ stencil.vars ∧ p.neighbor ∈ topology.existing) →
      (ps.map fun p => (p.var, p.neighbor)).Nodup → ps.Perm qs →
      ∀ f, ps.foldl t.unpack f = qs.foldl t.unpack f := by
  have hc := hc.wellFormed
  have ht := ht.sound
  refine ⟨fun var hvar x => ⟨fun n hn m hm => ?_, ?_⟩, fun ps qs hps hnodup hperm => ?_⟩
  · exact h.receives_disjoint hc ht hsize hvar hn hm
  · rw [← h.exists_receives_iff hc ht hsize hvar, iff_and_self]
    rintro ⟨n, hn, hx⟩
    exact h.receives_outside hc ht hsize hvar hn hx
  · -- Two parcels commute as they unpack to different points; a list of them has no parcel twice.
    apply hperm.foldl_eq'
    intro p hp q hq f
    by_cases hsame : (p.var, p.neighbor) = (q.var, q.neighbor)
    · rw [List.inj_on_of_nodup_map hnodup hp hq hsame]
    · exact h.unpack_comm hc ht hsize (hps p hp) (hps q hq) hsame f

end Tiling

/-- The first of two ranks in a line, with four points each. -/
def Line.allocated : Outcome (Topology × HaloTable) := do
  let topology ← ((Topology.build ⟨[("x", 2)]⟩ ⟨[("x", 0)]⟩).run none ()).result
  let first := (Site.offer Line.stencil Line.settings topology .unlimited).run none
    ⟨.empty, .empty, Universe.oneNode 2⟩
  let words ← first.result
  let second := (Site.settle Line.settings topology.rank words).run none first.state
  second.result
  return (topology, second.state.table)

/-- The second point behind the local domain is received from the second rank, and from no other
one. -/
theorem recvBoxes_tile_halo_line : ∃ (topology : Topology) (t : HaloTable),
    topology.BuiltOver Line.stencil.catalog ∧ Allocated Line.stencil Line.settings topology t ∧
      ∃! n, n ∈ topology.existing ∧
        t.Receives Line.stencil.catalog.domain.names "u" n fun _ => 5 := by
  obtain ⟨⟨topology, t⟩, hrun, hcheck⟩ := exists_eq_ok_of_any
    (x := Line.allocated)
    (p := fun (topology, _) => topology.existing.any fun n => n.offset.getD "x" 0 = 1)
    (by decide +kernel)
  simp only [Line.allocated, bind_eq_ok, pure_eq_ok, Prod.mk.injEq] at hrun
  obtain ⟨_, hbuild, words, hwords, _, hsecond, rfl, rfl⟩ := hrun
  have hbuilt : Topology.BuiltOver Line.stencil.catalog _ :=
    ⟨none, _, _, by decide +kernel, by decide, Task.yields_of_result hbuild⟩
  have hallocated : Allocated Line.stencil Line.settings _ _ :=
    .intro (Task.yields_of_result hwords) (Task.yields_of_result hsecond)
  obtain ⟨htile, -⟩ := recvBoxes_tile_halo hallocated Line.built hbuilt (by decide +kernel)
  obtain ⟨hone, hall⟩ := htile "u" (by decide +kernel) fun _ => 5
  simp only [List.any_eq_true, decide_eq_true_eq] at hcheck
  obtain ⟨n, hn, hstep⟩ := hcheck
  have hdims : Line.stencil.catalog.domain.names = ["x"] := by decide +kernel
  have hfaces : Faces Line.stencil.catalog.domain.names Line.settings.localDomain n.offset
      fun _ => 5 := by
    rw [hdims]
    intro dim hdim
    rw [List.mem_singleton.mp hdim, hstep]
    decide +kernel
  -- The coordinate five is the second one behind a domain of four points.
  obtain ⟨m, hm, hx⟩ := hall.mpr ⟨by decide +kernel, by decide +kernel, n, hn, hfaces⟩
  exact ⟨_, _, hbuilt, hallocated, m, ⟨hm, hx⟩, fun k hk => hone k hk.1 m hm hk.2 hx⟩

end StencilPlan
