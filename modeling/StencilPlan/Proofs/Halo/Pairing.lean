import StencilPlan.Proofs.Halo.Segments
import StencilPlan.Proofs.Rank.Partition

/-!
# Neighbors have buffers that fit

Each rank places itself and lays out its buffers alone. Still the send buffer of a rank toward a
neighbor and the receive buffer of that neighbor at the opposite offset are made for each other:
both exist or neither does, they have the same extent, and their points are, one by one, the same
points of the whole domain. It follows from the placement, where the next rank starts where one
ends, from the symmetry of the neighborhood and from the slabs.
-/

namespace StencilPlan

section Pairing

variable {stencil : Stencil} {c : Catalog} {s : Settings}

/-! ### Ranks next to each other -/

namespace Placed

variable {a b ranks : Nat} {p q : Placement} {s₁ s₂ : Settings}

/-- In each dimension the shares of a rank and its neighbor are those of indices that differ by the
offset. -/
theorem shares_of_neighbor (h : Placed c a ranks s p s₁) (h' : Placed c b ranks s q s₂)
    (hc : c.WellFormed) (hs : s.Shaped c) {n : Neighbor} {i : Nat}
    (hn : p.topology.neighbor? i = some n) (hr : n.rank = some q.topology.rank) {j : Nat}
    {dim : String} (hj : c.domain.names[j]? = some dim) :
    ∃ (count index step global asked : Int), n.offset.getD dim 0 = step ∧ -1 ≤ step ∧
      step ≤ 1 ∧ index < count ∧ 0 ≤ index + step ∧ index + step < count ∧ global ≤ Idx.max ∧
      Share count index global asked (s₁.localDomain.getD dim 0) (p.offsets.getD dim 0)
        (s₁.global.getD dim 0) ∧
      Share count (index + step) global asked (s₂.localDomain.getD dim 0)
        (q.offsets.getD dim 0) (s₂.global.getD dim 0) := by
  have hgrid := h.numRanks_eq h' rfl
  have hq : q.topology.Sound s₁.numRanks := hgrid ▸ h'.topology
  obtain ⟨m, -, -, -, hindices⟩ := h.topology.neighbor_mirror hq hn hr
  obtain ⟨point, hpoint, hlen, -, hnames, hvalues, -⟩ := h.topology.entry hn
  rw [h.names_numRanks hs] at hnames
  obtain ⟨count, index, global, asked, hcount, hindex, hglobal, hasked, hgmax, -, hge, hlt,
    hshare⟩ := h.share_of_name hc hs hj
  obtain ⟨count', index', global', asked', hcount', hindex', hglobal', hasked', -, -, hge',
    hlt', hshare'⟩ := h'.share_of_name hc hs hj
  rw [← hgrid, hcount] at hcount'
  rw [hglobal] at hglobal'
  rw [hasked] at hasked'
  obtain rfl := Option.some.inj hcount'
  obtain rfl := Option.some.inj hglobal'
  obtain rfl := Option.some.inj hasked'
  -- The step in this dimension, and the index it leads to.
  obtain ⟨x, hx, hstep⟩ : ∃ x, point[j]? = some x ∧ n.offset.values[j]? = some (x - 1) := by
    have hjp : j < point.length := by
      rw [hlen, ← DimVec.length_names, h.names_numRanks hs]
      exact (List.getElem?_eq_some_iff.mp hj).1
    refine ⟨point[j], List.getElem?_eq_getElem hjp, ?_⟩
    rw [hvalues, Topology.stepsTo, List.getElem?_map, List.getElem?_eq_getElem hjp]
    rfl
  have hoffset : n.offset.getD dim 0 = x - 1 := hc.getD_eq hnames hj hstep
  obtain rfl : index' = index + (x - 1) := by
    rw [hindices, List.getElem?_zipWith, hindex, hstep] at hindex'
    exact (Option.some.inj hindex').symm
  have hbox : 0 ≤ x ∧ x < 3 := by
    have hmem := DimVec.mem_boxPoints.mp (List.mem_of_getElem? hpoint)
    obtain ⟨hjp, rfl⟩ := List.getElem?_eq_some_iff.mp hx
    have hjr : j < (List.replicate s₁.numRanks.length (3 : Int)).length := hmem.length_eq ▸ hjp
    simpa using hmem.get hjr hjp
  exact ⟨count, index, x - 1, global, asked, hoffset, by omega, by omega, hlt, hge', hlt',
    hgmax, hshare, hshare'⟩

/-- The local domains of a rank and its neighbor meet. -/
theorem meet (h : Placed c a ranks s p s₁) (h' : Placed c b ranks s q s₂) (hc : c.WellFormed)
    (hs : s.Shaped c) {n : Neighbor} {i : Nat} (hn : p.topology.neighbor? i = some n)
    (hr : n.rank = some q.topology.rank) :
    Meet c n.offset p.offsets s₁.localDomain q.offsets s₂.localDomain := by
  intro j dim hj
  obtain ⟨count, index, step, global, asked, hstep, hge, hle, hlt, -, hlt', -, hshare,
    hshare'⟩ := h.shares_of_neighbor h' hc hs hn hr hj
  rw [hstep]
  refine ⟨fun hzero => ?_, fun hneg => ?_, fun hpos => ?_⟩
  · rw [hzero, Int.add_zero] at hshare'
    obtain ⟨hsize, hstart, -⟩ := hshare.unique hshare'
    exact ⟨hstart.symm, hsize.symm⟩
  · obtain rfl : step = -1 := by omega
    rw [show index = index + -1 + 1 by omega] at hshare
    exact hshare'.next hshare (by omega)
  · obtain rfl : step = 1 := by omega
    exact hshare.next hshare' hlt'

/-- A rank with a neighbor behind it has room for as many points again. -/
theorem two_mul_size_le (h : Placed c a ranks s p s₁) (h' : Placed c b ranks s q s₂)
    (hc : c.WellFormed) (hs : s.Shaped c) {n : Neighbor} {i : Nat}
    (hn : p.topology.neighbor? i = some n) (hr : n.rank = some q.topology.rank) {j : Nat}
    {dim : String} (hj : c.domain.names[j]? = some dim) (hneg : n.offset.getD dim 0 < 0) :
    2 * s₂.localDomain.getD dim 0 ≤ Idx.max := by
  obtain ⟨count, index, step, global, asked, hstep, hge, -, hlt, hge', -, hgmax, -,
    hshare'⟩ := h.shares_of_neighbor h' hc hs hn hr hj
  exact hshare'.two_mul_size_le (by omega) (by omega) hgmax

/-- Seen from the neighbor, the offset is the opposite one. -/
theorem opposite (h : Placed c a ranks s p s₁) (h' : Placed c b ranks s q s₂) (hc : c.WellFormed)
    (hs : s.Shaped c) {n m : Neighbor} {i j : Nat} (hn : p.topology.neighbor? i = some n)
    (hm : q.topology.neighbor? j = some m)
    (hvalues : m.offset.values = n.offset.values.map (- ·)) : Opposite c n.offset m.offset := by
  obtain ⟨-, -, -, -, hnames, -, -⟩ := h.topology.entry hn
  obtain ⟨-, -, -, -, hnames', -, -⟩ := h'.topology.entry hm
  rw [h.names_numRanks hs] at hnames
  rw [h'.names_numRanks hs] at hnames'
  intro k dim hk
  rw [DimVec.getD_of_nodup (hnames' ▸ hc.nodup) (i := k) (by rw [hnames', hk]),
    DimVec.getD_of_nodup (hnames ▸ hc.nodup) (i := k) (by rw [hnames, hk]), hvalues,
    List.getD_eq_getElem?_getD, List.getD_eq_getElem?_getD, List.getElem?_map]
  cases n.offset.values[k]? <;> rfl

/-- An existing neighbor has the rank as its own neighbor, at the opposite offset, and their local
domains meet. -/
theorem exists_facing (h : Placed c a ranks s p s₁) (h' : Placed c b ranks s q s₂)
    (hc : c.WellFormed) (hs : s.Shaped c) {n : Neighbor} (hn : n ∈ p.topology.existing)
    (hr : n.rank = some b) :
    ∃ m ∈ q.topology.existing, p.topology.oppositeIndex? n.index = some m.index ∧
      m.rank = some a ∧ Meet c n.offset p.offsets s₁.localDomain q.offsets s₂.localDomain ∧
      Opposite c n.offset m.offset := by
  -- Both ranks were placed in the same grid, so the topologies can be compared.
  have hq : q.topology.Sound s₁.numRanks := h.numRanks_eq h' rfl ▸ h'.topology
  rw [← h'.rank] at hr
  obtain ⟨m, hm, hopposite, hrank, hvalues⟩ := h.topology.existing_mirror hq hn hr
  have hget := (h.topology.mem_existing.mp hn).1
  have hmget := (hq.mem_existing.mp hm).1
  rw [h.rank] at hrank
  exact ⟨m, hm, hopposite, hrank, h.meet h' hc hs hget hr, h.opposite h' hc hs hget hmget hvalues⟩

/-- The size of a local domain. -/
theorem size_bounds (h : Placed c a ranks s p s₁) (hc : c.WellFormed) (hs : s.Shaped c) {j : Nat}
    {dim : String} (hj : c.domain.names[j]? = some dim) :
    0 ≤ s₁.localDomain.getD dim 0 ∧ s₁.localDomain.getD dim 0 ≤ Idx.max := by
  obtain ⟨count, index, global, asked, -, -, -, -, hgmax, hamax, hge, hlt, hshare⟩ :=
    h.share_of_name hc hs hj
  have hpos := hshare.size_pos (by omega)
  exact ⟨by omega, hshare.size_le (by omega) hgmax hamax⟩

end Placed

/-! ### Setting up -/

/-- What rank `me` comes to when it is set up from the settings `s` in a universe like `u`: where
it stands, and its table. The buffers are allocated with settings `sizes` that agree with the
placed ones in the local domain and in the use of shared memory, as the resolved ones do. Nothing
is said about the world in which a rank begins, and other ranks may change it between the two steps
of the allocation. -/
inductive SetUp (stencil : Stencil) (s : Settings) (u : Universe) (me : Nat) :
    Placement → HaloTable → Prop
  | intro {v v₁ v₂ : Verbosity} {p : Placement} {placed sizes : Settings} {a : Allocator}
      {site site₁ site₂ : Site Universe} {words : PoolWords} {world : World Universe}
      (hme : me < u.size) (hplace : (placeRank stencil.catalog me u.size).Yields v s p placed)
      (hlocal : sizes.localDomain = placed.localDomain) (hshared : sizes.useShared = s.useShared)
      (hsize : site.world.net.size = u.size) (hnode : site.world.net.nodeSize = u.nodeSize)
      (hoffer : (Site.offer stencil sizes p.topology a).Yields v₁ site words site₁)
      (hsettle : (Site.settle sizes p.topology.rank words).Yields v₂ ⟨site₁.table, world⟩ ()
        site₂) :
      SetUp stencil s u me p site₂.table

/-- Sets up a rank from nothing, without waiting for the others. -/
def setUpAlone (stencil : Stencil) (s : Settings) (u : Universe) (me : Nat) :
    Outcome (Placement × HaloTable) := do
  let place := (placeRank stencil.catalog me u.size).run none s
  let p ← place.result
  let first := (Site.offer stencil place.state p.topology .unlimited).run none ⟨.empty, .empty, u⟩
  let words ← first.result
  let second := (Site.settle place.state p.topology.rank words).run none first.state
  second.result
  return (p, second.state.table)

theorem setUp_of_setUpAlone {u : Universe} {me : Nat} {p : Placement} {t : HaloTable}
    (hs : s.Shaped stencil.catalog) (hme : me < u.size)
    (h : setUpAlone stencil s u me = .ok (p, t)) : SetUp stencil s u me p t := by
  simp only [setUpAlone, bind_eq_ok, pure_eq_ok, Prod.mk.injEq] at h
  obtain ⟨p, hp, words, hwords, u, hu, rfl, rfl⟩ := h
  have hplace := Task.yields_of_result hp
  have hplaced := placed_of_yields (hs.inRange .numRanks) hplace
  refine .intro hme hplace rfl ?_ rfl rfl (Task.yields_of_result hwords) (Task.yields_of_result hu)
  rw [hplaced.settings]
  rfl

theorem sameNodeAs_congr {u u' : Universe} (hsize : u'.size = u.size)
    (hnode : u'.nodeSize = u.nodeSize) : u'.sameNodeAs = u.sameNodeAs := by
  funext me peer
  simp only [Universe.sameNodeAs, hsize, hnode]

/-- A rank that is set up is placed and has its table laid out. -/
theorem SetUp.laidOut {u : Universe} {me : Nat} {p : Placement} {t : HaloTable}
    (h : SetUp stencil s u me p t) (hs : s.Shaped stencil.catalog) :
    ∃ placed sizes words vs, me < u.size ∧ Placed stencil.catalog me u.size s p placed ∧
      sizes.localDomain = placed.localDomain ∧ sizes.useShared = s.useShared ∧
      LaidOut stencil sizes p.topology (u.sameNodeAs me) words stencil.vars vs ∧
      t.outline = ⟨vs, p.topology.size, none, none⟩ ∧
      words.owned * wordSize < Word.bound ∧ words.shared * wordSize < Word.bound := by
  cases h with
  | @intro v v₁ v₂ _ placed sizes _ site site₁ site₂ words _ hme hplace hlocal hshared hsize
      hnode hoffer hsettle =>
    have hplaced := placed_of_yields (hs.inRange .numRanks) hplace
    have hoffered := offered_of_offer hplaced.topology hoffer
    obtain ⟨vs, hlaid, houtline⟩ := hoffered.outline
    rw [sameNodeAs_congr hsize hnode, hplaced.rank] at hlaid
    exact ⟨placed, sizes, words, vs, hme, hplaced, hlocal, hshared, hlaid,
      (Site.attached_of_settle hsettle).outline.trans houtline, hoffered.pools.owned_bytes,
      hoffered.pools.shared_bytes⟩

/-- The entry of a variable toward an existing neighbor, and how large it is. -/
theorem LaidOut.get? {sizes : Settings} {topology : Topology} {sharesNode : Nat → Bool}
    {words : PoolWords} {vs : List VarBuffers} {t : HaloTable}
    (h : LaidOut stencil sizes topology sharesNode words stencil.vars vs)
    (ht : t.outline = ⟨vs, topology.size, none, none⟩) {var : String} {n : Neighbor}
    (hn : n ∈ topology.existing) :
    (var ∉ stencil.vars → t.get? var n.index = none) ∧
      (var ∈ stencil.vars → Makes stencil.catalog sizes (stencil.haloWidths var none true)
        (stencil.haloWidths var none false) sharesNode n
        ((t.get? var n.index).map NeighborBuffers.bare)) ∧
      ∀ m, t.get? var n.index = some m →
        m.ownedValues ≤ words.owned ∧ m.sharedValues ≤ words.shared := by
  -- Where an entry is found does not depend on storage, so the outline tells.
  have hbare : (t.get? var n.index).map NeighborBuffers.bare =
      (vs.find? (·.var = var)).bind fun v => (v.toward[n.index]?).join := by
    rw [← HaloTable.get?_outline, ht]
    rfl
  cases hfind : vs.find? (·.var = var) with
  | none =>
    have hnone : t.get? var n.index = none := by
      rw [hfind] at hbare
      exact Option.map_eq_none_iff.mp hbare
    refine ⟨fun _ => hnone, fun hvar => ?_, fun m hm => ?_⟩
    · rw [← h.names] at hvar
      obtain ⟨v, hv, rfl⟩ := List.mem_map.mp hvar
      exact absurd rfl (of_decide_eq_false (Bool.not_eq_true _ ▸ List.find?_eq_none.mp hfind v hv))
    · rw [hnone] at hm
      cases hm
  | some v =>
    have hmem := List.mem_of_find?_eq_some hfind
    obtain rfl : v.var = var := by simpa using List.find?_some hfind
    obtain ⟨hmakes, hwords⟩ := h.entry hmem hn
    rw [hfind, Option.bind_some] at hbare
    refine ⟨fun hvar => absurd (h.names ▸ List.mem_map_of_mem hmem) hvar, fun _ => ?_,
      fun m hm => ?_⟩
    · rw [hbare]
      exact hmakes
    · rw [hm] at hbare
      exact hwords m.bare hbare.symm

/-! ### Buffers that fit -/

/-- Buffers toward neighbors at opposite offsets have the same sizes, crosswise. -/
theorem size_mirror {left right start start' : DimVec} {sizes sizes' : Settings} {n m : Neighbor}
    {send recv : HaloBuffer} (hmeet : Meet c n.offset start sizes.localDomain start'
      sizes'.localDomain) (hopp : Opposite c n.offset m.offset)
    (hsend : Covers c n.offset sizes.localDomain left right .send send)
    (hrecv : Covers c m.offset sizes'.localDomain left right .recv recv) :
    recv.extent = send.extent ∧ recv.size = send.size := by
  have hextent := (bufferBox_mirror hmeet hopp hsend.box hrecv.box).1
  exact ⟨hextent, HaloBuffer.size_congr hextent⟩

/-- Toward each other two ranks have both an entry or neither. -/
theorem Makes.isSome_mirror {left right start start' : DimVec} {sizes sizes' : Settings}
    {sharesNode sharesNode' : Nat → Bool} {n m : Neighbor} {x y : Option NeighborBuffers}
    (hmeet : Meet c n.offset start sizes.localDomain start' sizes'.localDomain)
    (hopp : Opposite c n.offset m.offset) (hx : Makes c sizes left right sharesNode n x)
    (hy : Makes c sizes' left right sharesNode' m y) : x.isSome ↔ y.isSome := by
  have hmeet' := hmeet.symm hopp
  have hopp' := hopp.symm
  -- With an entry on one side only, a buffer would have values and its mirror none.
  cases hx with
  | nothing hsend hrecv hempty hempty' =>
    cases hy with
    | nothing => simp
    | entry hsend' hrecv' _ hsize hsome =>
      rw [← (size_mirror hmeet' hopp' hsend' hrecv).2, hempty'] at hsize
      obtain ⟨l, hl, hne⟩ := hsome (Except.ok.inj hsize).symm
      rw [(size_mirror hmeet hopp hsend hrecv').2, hempty] at hl
      exact absurd (Except.ok.inj hl).symm hne
  | entry hsend hrecv _ hsize hsome =>
    cases hy with
    | entry => simp
    | nothing hsend' hrecv' hempty hempty' =>
      rw [← (size_mirror hmeet hopp hsend hrecv').2, hempty'] at hsize
      obtain ⟨l, hl, hne⟩ := hsome (Except.ok.inj hsize).symm
      rw [(size_mirror hmeet' hopp' hsend' hrecv).2, hempty] at hl
      exact absurd (Except.ok.inj hl).symm hne

/-- The points of a buffer, if there is room behind the domain for what is received there. -/
theorem Covers.points_eq_ok {offset sizes left right : DimVec} {d : Direction} {b : HaloBuffer}
    {k : Nat} (h : Covers c offset sizes left right d b) (hk : b.size = .ok k)
    (hsizes : ∀ (j : Nat) (dim : String), c.domain.names[j]? = some dim →
      0 ≤ sizes.getD dim 0 ∧ sizes.getD dim 0 ≤ Idx.max)
    (hroom : d = .recv → ∀ (j : Nat) (dim : String), c.domain.names[j]? = some dim →
      0 < offset.getD dim 0 → sizes.getD dim 0 + k ≤ Idx.max) :
    b.points = .ok (if k = 0 then [] else HaloBuffer.boxFrom b.first b.extent) := by
  obtain ⟨hfirst, hextent, hslab⟩ := bufferBox_eq_ok h.box
  have hlen : b.extent.length = b.first.length := by
    rw [← DimVec.length_names, hextent, ← hfirst, DimVec.length_names]
  refine HaloBuffer.points_eq_ok hk hlen fun hpos j x n hx hn => ?_
  obtain ⟨dim, hj⟩ : ∃ dim, c.domain.names[j]? = some dim := by
    refine ⟨_, List.getElem?_eq_getElem ?_⟩
    rw [← hfirst, DimVec.length_names, ← DimVec.length_values]
    exact (List.getElem?_eq_some_iff.mp hx).1
  obtain ⟨slab, hs, hxs, hns⟩ := hslab j dim hj
  obtain rfl := Option.some.inj (hx.symm.trans hxs)
  obtain rfl := Option.some.inj (hn.symm.trans hns)
  -- The number of points is a product of positive widths, so no width is above it.
  have hwidth : slab.2 ≤ k := by
    rcases HaloBuffer.size_eq_ok hk with ⟨rfl, -⟩ | ⟨-, -, hall⟩
    · omega
    · exact (hall _ (List.mem_of_getElem? hn)).2
  have hmax : (k : Int) ≤ Idx.max := by
    rcases HaloBuffer.size_eq_ok hk with ⟨rfl, -⟩ | ⟨-, hmax, -⟩
    · omega
    · exact hmax
  refine slab_inRange hs (hsizes j dim hj) (fun hd hback => ?_) (by omega)
  have := hroom hd j dim hj hback
  omega

/-- The buffers of neighbors fit. If the rank `b` is a neighbor of `a`, then `a` is the neighbor of
`b` at the opposite offset; toward each other both have buffers of a variable or neither has, and
those are shared on both sides or on neither. What `a` sends has the extent of what `b` receives,
and its points, which are as many as the buffer holds, are the same ones in the same order when they
are counted from the first point of all. -/
theorem send_fits_recv {u : Universe} {a b : Nat} {p q : Placement} {t t' : HaloTable}
    (hc : stencil.catalog.Built) (hs : s.Reachable stencil.catalog)
    (ha : SetUp stencil s u a p t) (hb : SetUp stencil s u b q t') {n : Neighbor}
    (hn : n ∈ p.topology.existing) (hr : n.rank = some b) (var : String) :
    ∃ j, p.topology.oppositeIndex? n.index = some j ∧
      (∃ m ∈ q.topology.existing, m.index = j ∧ m.rank = some a) ∧
      ((t.get? var n.index).isSome ↔ (t'.get? var j).isSome) ∧
      ∀ x y, t.get? var n.index = some x → t'.get? var j = some y →
        x.rank = b ∧ y.rank = a ∧ x.shared = y.shared ∧ x.send.extent = y.recv.extent ∧
        ∃ sent received, x.send.points = .ok sent ∧ y.recv.points = .ok received ∧
          sent.length = x.send.count ∧
          sent.map (globalPoint p.offsets) = received.map (globalPoint q.offsets) := by
  have hc := hc.wellFormed
  have hs := hs.shaped
  obtain ⟨placed, sizes, words, vs, hlt, hplaced, hlocal, hshared, hlaid, ht, hwords, hwords'⟩ :=
    ha.laidOut hs
  obtain ⟨placed', sizes', words', vs', hlt', hplaced', hlocal', hshared', hlaid', ht', -, -⟩ :=
    hb.laidOut hs
  have hq : q.topology.Sound placed.numRanks := hplaced.numRanks_eq hplaced' rfl ▸ hplaced'.topology
  have hr' : n.rank = some q.topology.rank := hr.trans (congrArg some hplaced'.rank.symm)
  obtain ⟨m, hm, hopposite, hmrank, hvalues⟩ := hplaced.topology.existing_mirror hq hn hr'
  have hget := (hplaced.topology.mem_existing.mp hn).1
  have hmget := (hq.mem_existing.mp hm).1
  have hmeet := hplaced.meet hplaced' hc hs hget hr'
  have hopp := hplaced.opposite hplaced' hc hs hget hmget hvalues
  rw [← hlocal, ← hlocal'] at hmeet
  obtain ⟨hunknown, hmakes, hroom⟩ := @LaidOut.get? _ _ _ _ _ _ _ hlaid ht var _ hn
  obtain ⟨hunknown', hmakes', -⟩ := @LaidOut.get? _ _ _ _ _ _ _ hlaid' ht' var _ hm
  refine ⟨m.index, hopposite, ⟨m, hm, rfl, hmrank.trans (congrArg some hplaced.rank)⟩, ?_, ?_⟩
  · by_cases hvar : var ∈ stencil.vars
    · simpa using Makes.isSome_mirror hmeet hopp (hmakes hvar) (hmakes' hvar)
    · rw [hunknown hvar, hunknown' hvar]
  · intro x y hx hy
    have hvar : var ∈ stencil.vars := by
      by_contra hvar
      rw [hunknown hvar] at hx
      cases hx
    have hx' := hmakes hvar
    have hy' := hmakes' hvar
    rw [hx, Option.map_some] at hx'
    rw [hy, Option.map_some] at hy'
    obtain ⟨hsend, -, hxrank, hxshared, hsize⟩ := hx'.of_some
    obtain ⟨-, hrecv, hyrank, hyshared, -⟩ := hy'.of_some
    have hxb : x.rank = b := Option.some.inj (hxrank.symm.trans hr)
    have hya : y.rank = a := Option.some.inj (hyrank.symm.trans
      (hmrank.trans (congrArg some hplaced.rank)))
    obtain ⟨hextent, hplace⟩ := bufferBox_mirror hmeet hopp hsend.box hrecv.box
    have hsize' := (HaloBuffer.size_congr hextent).trans hsize
    -- The sender found room for its points, so there are far fewer of them than integers.
    have hcount : (x.send.count : Int) ≤ 2305843009213693951 := by
      obtain ⟨howned, hsharedWords⟩ := hroom x hx
      simp only [NeighborBuffers.ownedValues, NeighborBuffers.sharedValues, wordSize,
        Word.bound] at howned hsharedWords hwords hwords'
      split at howned <;> simp_all <;> omega
    have hpoints := hsend.points_eq_ok hsize
      (fun j dim hj => hlocal ▸ hplaced.size_bounds hc hs hj) (by simp)
    refine ⟨hxb, hya, ?_, hextent.symm, _, _, hpoints,
      hrecv.points_eq_ok hsize' (fun j dim hj => hlocal' ▸ hplaced'.size_bounds hc hs hj)
        fun _ j dim hj hback => ?_, HaloBuffer.length_points hsize hpoints, ?_⟩
    · have hnode : u.sameNodeAs a b = u.sameNodeAs b a := u.sameNodeAs_comm hlt hlt'
      change x.shared = _ at hxshared
      change y.shared = _ at hyshared
      rw [hxshared, hyshared, hshared, hshared']
      change (_ && u.sameNodeAs a x.rank) = (_ && u.sameNodeAs b y.rank)
      rw [hxb, hya, hnode]
    · have hneg : n.offset.getD dim 0 < 0 := by
        have := hopp j dim hj
        omega
      have htwo := hplaced.two_mul_size_le hplaced' hc hs hget hr' hj hneg
      have hbare : x.bare.send.count = x.send.count := rfl
      rw [hlocal', hbare]
      simp only [Idx.max] at htwo ⊢
      omega
    · obtain ⟨hfirst, hext, -⟩ := bufferBox_eq_ok hsend.box
      obtain ⟨hfirst', -, -⟩ := bufferBox_eq_ok hrecv.box
      split
      · rfl
      · rw [hextent]
        exact (map_globalPoint_boxFrom hfirst hfirst' hext hplace).symm

end Pairing

namespace Line

/-- Points in a line, with a time step. -/
def catalog : Catalog := (Catalog.declare "t" ["x"] []).toOption.getD default

/-- One variable with a halo of one point on the left and two on the right. -/
def stencil : Stencil :=
  let s := Stencil.new "line" catalog
  (do (← s.withHalo "u" "next" true 0 [1]).withHalo "u" "next" false 0 [2]).toOption.getD s

/-- Four points for each rank. -/
def settings : Settings :=
  ((Settings.initial catalog 1).resize catalog .localDomain "x" 4).toOption.getD default

theorem built : catalog.Built :=
  .declare (show Catalog.declare "t" ["x"] [] = .ok catalog by decide +kernel)

theorem reachable : settings.Reachable catalog :=
  .resize (.initial 1) (show Idx.InRange 4 by decide)
    (show Settings.resize _ catalog .localDomain "x" 4 = _ by decide +kernel)

end Line

/-- Of two ranks in a line the first one sends one point to the second. -/
theorem send_fits_recv_line : ∃ (p q : Placement) (t t' : HaloTable) (n : Neighbor) (j : Nat),
    n ∈ p.topology.existing ∧ n.rank = some 1 ∧ p.topology.oppositeIndex? n.index = some j ∧
      ∃ x y, t.get? "u" n.index = some x ∧ t'.get? "u" j = some y ∧
        x.send.extent.values = [1] ∧ x.send.extent = y.recv.extent ∧
        ∃ sent received, x.send.points = .ok sent ∧ y.recv.points = .ok received ∧
          sent.length = x.send.count ∧
          sent.map (globalPoint p.offsets) = received.map (globalPoint q.offsets) := by
  obtain ⟨⟨⟨p, t⟩, q, t'⟩, hrun, hcheck⟩ := exists_eq_ok_of_any
    (x := do
      return (← setUpAlone Line.stencil Line.settings (.oneNode 2) 0,
        ← setUpAlone Line.stencil Line.settings (.oneNode 2) 1))
    (p := fun ((p, t), _) => p.topology.existing.any fun n =>
      n.rank = some 1 ∧ (t.get? "u" n.index).any (·.send.extent.values = [1]))
    (by decide +kernel)
  simp only [bind_eq_ok, pure_eq_ok, Prod.mk.injEq] at hrun
  obtain ⟨_, ha, _, hb, rfl, rfl⟩ := hrun
  simp only [List.any_eq_true, decide_eq_true_eq] at hcheck
  obtain ⟨n, hn, hr, hx⟩ := hcheck
  obtain ⟨x, hx, hvalues⟩ : ∃ x, t.get? "u" n.index = some x ∧ x.send.extent.values = [1] := by
    simpa [Option.any_eq_true] using hx
  have hshaped := Line.reachable.shaped
  -- From here on it is the theorem that speaks of the second rank.
  obtain ⟨j, hj, -, hsome, hfit⟩ := @send_fits_recv Line.stencil _ _ _ _ _ _ _ _ Line.built
    Line.reachable (setUp_of_setUpAlone hshaped (by decide) ha)
    (setUp_of_setUpAlone hshaped (by decide) hb) n hn hr "u"
  obtain ⟨y, hy⟩ := Option.isSome_iff_exists.mp (hsome.mp (by rw [hx]; rfl))
  obtain ⟨-, -, -, hextent, hpoints⟩ := hfit x y hx hy
  exact ⟨p, q, t, t', n, j, hn, hr, hj, x, y, hx, hy, hvalues, hextent, hpoints⟩

end StencilPlan
