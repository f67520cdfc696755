import Mathlib.Algebra.Ring.Divisibility.Basic
import StencilPlan.Proofs.Arith.Rounding
import StencilPlan.Proofs.Halo.Shell

/-!
# Both ends agree on whole folds

Each rank decides alone whether a buffer consists of whole folds, from where the buffer starts in
its own local domain and how far it extends. What is sent and what is received have the same extent
but not the same start: one may lie at the end of a local domain and the other one before the
beginning, at negative coordinates. The two starts differ by the size of a local domain, and that
is a number of whole clusters and so of whole folds (`Placed.areFolds`).
-/

namespace StencilPlan

/-! ### Making a buffer -/

/-- A slab of a domain that is no longer than the greatest integer starts and extends in range, if
the halo is not wider than that. -/
theorem exists_slab {size left right : Int} (d : Direction) (offset : Int)
    (hsize : 0 ≤ size ∧ size ≤ Idx.max) (hleft : 0 ≤ left ∧ left ≤ Idx.max)
    (hright : 0 ≤ right ∧ right ≤ Idx.max) :
    ∃ s, slab d offset size left right = .ok s ∧ Idx.InRange s.1 ∧ Idx.InRange s.2 := by
  have hmin : Idx.min = -Idx.max - 1 := by decide
  have hmax : 0 ≤ Idx.max := by decide
  have hrange : ∀ {n : Int}, -Idx.max ≤ n → n ≤ Idx.max → Idx.InRange n :=
    fun hge hle => ⟨by omega, hle⟩
  unfold slab
  -- Only the starts before the domain and ahead of its end are worked out; no other can fault.
  split
  · exact ⟨_, rfl, hrange (by omega) hmax, hrange (by omega) hsize.2⟩
  · split
    · cases d with
      | send => exact ⟨_, rfl, hrange (by omega) hmax, hrange (by omega) hright.2⟩
      | recv =>
        have hneg : Idx.InRange (-left) := hrange (by omega) (by omega)
        refine ⟨(-left, left), ?_, hneg, hrange (by omega) hleft.2⟩
        simp only [bind_eq_ok, Idx.neg_eq_ok_iff, pure_eq_ok]
        exact ⟨_, ⟨hneg, rfl⟩, rfl⟩
    · cases d with
      | send =>
        have hsub : Idx.InRange (size - left) := hrange (by omega) (by omega)
        refine ⟨(size - left, left), ?_, hsub, hrange (by omega) hleft.2⟩
        simp only [bind_eq_ok, Idx.sub_eq_ok_iff, pure_eq_ok]
        exact ⟨_, ⟨hsub, rfl⟩, rfl⟩
      | recv => exact ⟨_, rfl, hrange (by omega) hsize.2, hrange (by omega) hright.2⟩

namespace HaloBuffer

variable {fold first : DimVec} {es : List (String × Int)}

/-- What the answer means: in each dimension the fold divides the extent and the start. -/
theorem alignedTo_eq_ok {w : Bool} (h : alignedTo fold first es = .ok w) :
    w = true ↔ ∀ e ∈ es, max (fold.getD e.1 1) 1 ∣ e.2 ∧
      max (fold.getD e.1 1) 1 ∣ first.getD e.1 0 := by
  induction es with
  | nil =>
    rw [alignedTo, pure_eq_ok] at h
    simp [h]
  | cons e es ih =>
    simp only [alignedTo, bind_eq_ok] at h
    obtain ⟨r, hr, h⟩ := h
    obtain rfl := rem_eq_ok hr
    -- Remainders take the sign of the number, but whether one is zero does not depend on it.
    rw [List.forall_mem_cons, Int.dvd_iff_tmod_eq_zero, Int.dvd_iff_tmod_eq_zero]
    split at h
    · next hne =>
      rw [pure_eq_ok] at h
      simp [h, hne]
    · next hextent =>
      simp only [bind_eq_ok] at h
      obtain ⟨r, hr, h⟩ := h
      obtain rfl := rem_eq_ok hr
      split at h
      · next hne =>
        rw [pure_eq_ok] at h
        simp [h, hne]
      · next hstart =>
        rw [not_not] at hextent hstart
        rw [ih h]
        simp [hextent, hstart]

/-- Numbers in range are checked without a fault. -/
theorem exists_alignedTo (hes : ∀ e ∈ es, Idx.InRange e.2 ∧ Idx.InRange (first.getD e.1 0)) :
    ∃ w, alignedTo fold first es = .ok w := by
  induction es with
  | nil => exact ⟨true, rfl⟩
  | cons e es ih =>
    obtain ⟨⟨hextent, hstart⟩, hes⟩ := List.forall_mem_cons.mp hes
    have hfold : 0 < max (fold.getD e.1 1) 1 := by omega
    obtain ⟨w, hw⟩ := ih hes
    rw [alignedTo, Idx.rem_of_pos hextent hfold, Idx.rem_of_pos hstart hfold]
    simp only [bind, Except.bind]
    split
    · exact ⟨false, rfl⟩
    · split
      · exact ⟨false, rfl⟩
      · exact ⟨w, hw⟩

end HaloBuffer

section Makes

variable {c : Catalog} {sizes left right : DimVec}

/-- Lengths over the domain dimensions. -/
def AreLengths (c : Catalog) (t : DimVec) : Prop :=
  ∀ dim ∈ c.domain.names, 0 ≤ t.getD dim 0 ∧ t.getD dim 0 ≤ Idx.max

theorem areLengths_haloWidths {stencil : Stencil} {var : String} {left : Bool}
    (h : ∀ dim ∈ stencil.catalog.domain.names,
      (stencil.haloWidths var none left).getD dim 0 ≤ Idx.max) :
    AreLengths stencil.catalog (stencil.haloWidths var none left) := fun dim hdim =>
  ⟨stencil.haloWidths_nonneg var none left dim, h dim hdim⟩

theorem Placed.areLengths {me ranks : Nat} {s s' : Settings} {p : Placement}
    (h : Placed c me ranks s p s') (hc : c.WellFormed) (hs : s.Shaped c) :
    AreLengths c s'.localDomain := by
  intro dim hdim
  obtain ⟨j, hj⟩ := List.mem_iff_getElem?.mp hdim
  exact h.size_bounds hc hs hj

/-- No buffer toward a neighbor faults when it is made. -/
theorem exists_makeBuffer (hc : c.WellFormed) (hsizes : AreLengths c sizes)
    (hleft : AreLengths c left) (hright : AreLengths c right) (var : String) (n : Neighbor)
    (d : Direction) : ∃ b, makeBuffer c var n sizes left right d = .ok b := by
  obtain ⟨slabs, hslabs⟩ : ∃ slabs, c.domain.names.mapM (fun dim => slab d (n.offset.getD dim 0)
      (sizes.getD dim 0) (left.getD dim 0) (right.getD dim 0)) = .ok slabs := by
    apply exists_mapM_eq_ok
    intro dim hdim
    obtain ⟨s, hs, -⟩ := exists_slab d (n.offset.getD dim 0) (hsizes dim hdim) (hleft dim hdim)
      (hright dim hdim)
    exact ⟨s, hs⟩
  obtain ⟨⟨first, extent⟩, hbox⟩ :
      ∃ box, bufferBox c n.offset sizes left right d = .ok box := by
    simp only [bufferBox, hslabs, bind_eq_ok, pure_eq_ok]
    exact ⟨_, _, rfl, rfl⟩
  obtain ⟨hfirst, hextent, hat⟩ := bufferBox_eq_ok hbox
  -- Every entry of the box is that of a slab.
  obtain ⟨w, hw⟩ : ∃ w, HaloBuffer.alignedTo c.fold first extent.entries = .ok w := by
    apply HaloBuffer.exists_alignedTo
    intro e he
    have hdim : e.1 ∈ c.domain.names := hextent ▸ List.mem_map_of_mem he
    obtain ⟨j, hj⟩ := List.mem_iff_getElem?.mp hdim
    obtain ⟨s, hs, hx, hn⟩ := hat j e.1 hj
    obtain ⟨s', hs', hrange⟩ := exists_slab d (n.offset.getD e.1 0) (hsizes e.1 hdim)
      (hleft e.1 hdim) (hright e.1 hdim)
    obtain rfl := Except.ok.inj (hs'.symm.trans hs)
    rw [hc.getD_eq hfirst hj hx,
      ← DimVec.getD_of_mem_entries (w := 0) (hextent ▸ hc.nodup) he, hc.getD_eq hextent hj hn]
    exact hrange.symm
  simp only [makeBuffer, HaloBuffer.foldedBy, HaloBuffer.new, bind_eq_ok, pure_eq_ok]
  exact ⟨_, _, hbox, w, hw, rfl⟩

end Makes

/-! ### Two ends -/

/-- Domains that meet start a multiple of `f` apart, if `f` divides the sizes of both. -/
theorem Meets.dvd_sub {offset start size start' size' f : Int}
    (h : Meets offset start size start' size') (hsize : f ∣ size) (hsize' : f ∣ size') :
    f ∣ start' - start := by
  rcases Int.lt_trichotomy offset 0 with hneg | hzero | hpos
  · have hdiff : start' - start = -size' := by
      have := h.before hneg
      omega
    rw [hdiff]
    exact Int.dvd_neg.mpr hsize'
  · rw [(h.same hzero).1, Int.sub_self]
    exact Int.dvd_zero f
  · have hdiff : start' - start = size := by
      have := h.behind hpos
      omega
    rwa [hdiff]

/-- The sizes are so many folds in each dimension. -/
def AreFolds (c : Catalog) (sizes : DimVec) : Prop :=
  ∀ dim ∈ c.domain.names, c.fold.getD dim 1 ∣ sizes.getD dim 0

/-- A local domain is made of clusters, and they are made of folds. -/
theorem Placed.areFolds {c : Catalog} {me ranks : Nat} {s s' : Settings} {p : Placement}
    (h : Placed c me ranks s p s') (hc : c.WellFormed) (hs : s.Shaped c) :
    AreFolds c s'.localDomain := by
  intro dim hdim
  obtain ⟨j, hj⟩ := List.mem_iff_getElem?.mp hdim
  obtain ⟨_, _, size, _, _, -, -, -, hrem, -, -, hsize⟩ :=
    h.share ⟨j + 1, j, dim⟩ (Catalog.mem_dimPlaces.mpr ⟨hj, rfl⟩)
  have hlocal : s'.localDomain.names = c.domain.names :=
    h.names_localDomain.trans (hs.names (.level .localDomain))
  have hcluster : c.cluster.getD dim 1 ∣ size := Int.dvd_of_tmod_eq_zero hrem
  rw [hc.getD_eq hlocal hj hsize]
  exact Int.dvd_trans (hc.fold_dvd_cluster hdim 1).2 hcluster

/-- What is sent consists of whole folds exactly if what is received does. -/
theorem Covers.wholeFolds_mirror {c : Catalog} {offset offset' start start' sizes sizes' : DimVec}
    {left right : DimVec} {send recv : HaloBuffer} (hc : c.WellFormed)
    (hmeet : Meet c offset start sizes start' sizes') (hopp : Opposite c offset offset')
    (hsizes : AreFolds c sizes) (hsizes' : AreFolds c sizes')
    (hsend : Covers c offset sizes left right .send send)
    (hrecv : Covers c offset' sizes' left right .recv recv) :
    send.wholeFolds = recv.wholeFolds := by
  obtain ⟨hextent, hplace⟩ := bufferBox_mirror hmeet hopp hsend.box hrecv.box
  obtain ⟨hfirst, hnames, -⟩ := bufferBox_eq_ok hsend.box
  obtain ⟨hfirst', -, -⟩ := bufferBox_eq_ok hrecv.box
  -- The extents are the same, so only the starts are left to be compared.
  rw [Bool.eq_iff_iff, HaloBuffer.alignedTo_eq_ok hsend.folded,
    HaloBuffer.alignedTo_eq_ok hrecv.folded, hextent]
  refine forall₂_congr fun e he => and_congr_right fun _ => ?_
  have hdim : e.1 ∈ c.domain.names := hnames ▸ List.mem_map_of_mem he
  obtain ⟨j, hj⟩ := List.mem_iff_getElem?.mp hdim
  obtain ⟨x, x', hx, hx', hsame⟩ := hplace j e.1 hj
  rw [hc.getD_eq hfirst hj hx, hc.getD_eq hfirst' hj hx']
  have hpos := (hc.fold_dvd_cluster hdim 1).1
  rw [max_eq_left (by omega)]
  apply dvd_iff_dvd_of_dvd_sub
  have hdiff : x - x' = start'.getD e.1 0 - start.getD e.1 0 := by omega
  rw [hdiff]
  exact (hmeet j e.1 hj).dvd_sub (hsizes e.1 hdim) (hsizes' e.1 hdim)

section Ranks

variable {stencil : Stencil} {s : Settings} {a b ranks : Nat} {v w : Verbosity} {p q : Placement}
  {placed placed' : Settings} {n : Neighbor}

/-- Two ranks that were set up from the same settings agree on whole folds. If the rank `b` is a
neighbor of `a`, then `a` is the neighbor of `b` at the opposite index; the buffer in which `a`
sends a variable toward `b` and the one in which `b` receives it can be made, and either both
consist of whole folds or neither does. It is no different in the tables that the two ranks
allocate: where one has an entry so has the other, and the buffers in them agree. -/
theorem wholeFolds_send_eq_recv (var : String) (hc : stencil.catalog.Built)
    (hs : s.Reachable stencil.catalog)
    (hwidths : ∀ left, ∀ dim ∈ stencil.catalog.domain.names,
      (stencil.haloWidths var none left).getD dim 0 ≤ Idx.max) (hvar : var ∈ stencil.vars)
    (ha : (placeRank stencil.catalog a ranks).Yields v s p placed)
    (hb : (placeRank stencil.catalog b ranks).Yields w s q placed')
    (hn : n ∈ p.topology.existing) (hr : n.rank = some b) :
    ∃ m ∈ q.topology.existing, p.topology.oppositeIndex? n.index = some m.index ∧
      m.rank = some a ∧
      (∃ send recv,
        makeBuffer stencil.catalog var n placed.localDomain (stencil.haloWidths var none true)
          (stencil.haloWidths var none false) .send = .ok send ∧
        makeBuffer stencil.catalog var m placed'.localDomain (stencil.haloWidths var none true)
          (stencil.haloWidths var none false) .recv = .ok recv ∧
        send.wholeFolds = recv.wholeFolds) ∧
      ∀ (sizes sizes' : Settings) (t t' : HaloTable), sizes.localDomain = placed.localDomain →
        sizes'.localDomain = placed'.localDomain → Allocated stencil sizes p.topology t →
        Allocated stencil sizes' q.topology t' → ∀ x, t.get? var n.index = some x →
          ∃ y, t'.get? var m.index = some y ∧ x.send.wholeFolds = y.recv.wholeFolds := by
  have hc := hc.wellFormed
  have hs := hs.shaped
  have hplaced := Placed.of_yields ha
  have hplaced' := Placed.of_yields hb
  obtain ⟨m, hm, hopposite, hmrank, hmeet, hopp⟩ := hplaced.exists_facing hplaced' hc hs hn hr
  have hfolds := hplaced.areFolds hc hs
  have hfolds' := hplaced'.areFolds hc hs
  refine ⟨m, hm, hopposite, hmrank, ?_, ?_⟩
  -- The buffers as they are made, before it is known whether they hold anything.
  · have hlengths := fun left => areLengths_haloWidths (hwidths left)
    obtain ⟨send, hsend⟩ := exists_makeBuffer hc (hplaced.areLengths hc hs) (hlengths true)
      (hlengths false) var n .send
    obtain ⟨recv, hrecv⟩ := exists_makeBuffer hc (hplaced'.areLengths hc hs) (hlengths true)
      (hlengths false) var m .recv
    exact ⟨send, recv, hsend, hrecv, (covers_of_makeBuffer hsend).wholeFolds_mirror hc hmeet hopp
      hfolds hfolds' (covers_of_makeBuffer hrecv)⟩
  -- The buffers of the tables were made like these, and storage changes nothing in their boxes.
  · intro sizes sizes' t t' hlocal hlocal' ht ht' x hx
    have hover : p.topology.SoundOver stencil.catalog :=
      ⟨_, hplaced.names_numRanks hs, hplaced.topology⟩
    have hover' : q.topology.SoundOver stencil.catalog :=
      ⟨_, hplaced'.names_numRanks hs, hplaced'.topology⟩
    rw [← hlocal, ← hlocal'] at hmeet
    rw [← hlocal] at hfolds
    rw [← hlocal'] at hfolds'
    obtain ⟨_, hmakes⟩ := ht.makes hover hvar hn
    obtain ⟨_, hmakes'⟩ := ht'.makes hover' hvar hm
    obtain ⟨y, hy⟩ : ∃ y, t'.get? var m.index = some y := by
      have hsome := Makes.isSome_mirror hmeet hopp hmakes hmakes'
      rw [hx, Option.isSome_map, Option.isSome_map] at hsome
      exact Option.isSome_iff_exists.mp (hsome.mp rfl)
    have hsend := (ht.covers hover hvar hn hx).1
    have hrecv := (ht'.covers hover' hvar hm hy).2.1
    have hsame : x.send.bare.wholeFolds = y.recv.bare.wholeFolds :=
      hsend.wholeFolds_mirror hc hmeet hopp hfolds hfolds' hrecv
    exact ⟨y, hy, hsame⟩

end Ranks

namespace FoldedLine

/-- Points in a line, in folds of two. -/
def catalog : Catalog := (Line.catalog.foldedBy [2]).toOption.getD default

/-- One variable with a halo of two points on the left and one on the right. -/
def stencil : Stencil :=
  let s := Stencil.new "folded line" catalog
  (do (← s.withHalo "u" "next" true 0 [2]).withHalo "u" "next" false 0 [1]).toOption.getD s

/-- Four points for each rank. -/
def settings : Settings :=
  ((Settings.initial catalog 1).resize catalog .localDomain "x" 4).toOption.getD default

theorem built : catalog.Built :=
  .fold Line.built (show Line.catalog.foldedBy [2] = .ok catalog by decide +kernel)

theorem reachable : settings.Reachable catalog :=
  .resize (.initial 1) (show Idx.InRange 4 by decide)
    (show Settings.resize _ catalog .localDomain "x" 4 = _ by decide +kernel)

end FoldedLine

/-- A rank that was set up alone is placed and has its table allocated. -/
theorem allocated_of_setUpAlone {stencil : Stencil} {s : Settings} {u : Universe} {me : Nat}
    {p : Placement} {t : HaloTable} (h : setUpAlone stencil s u me = .ok (p, t)) :
    ∃ placed, (placeRank stencil.catalog me u.size).Yields none s p placed ∧
      Allocated stencil placed p.topology t := by
  simp only [setUpAlone, bind_eq_ok, pure_eq_ok, Prod.mk.injEq] at h
  obtain ⟨p, hp, words, hwords, _, hsettle, rfl, rfl⟩ := h
  exact ⟨_, Task.yields_of_result hp,
    .intro (Task.yields_of_result hwords) (Task.yields_of_result hsettle)⟩

/-- The last two points of the first rank are a fold. The second one receives them before its first
point, and takes them for a fold too. On the way back there is a single point, which is no fold for
either of them. -/
theorem wholeFolds_send_eq_recv_folded : ∃ (p q : Placement) (t t' : HaloTable) (n m n' : Neighbor)
    (x y z : NeighborBuffers), n ∈ p.topology.existing ∧ n.rank = some 1 ∧
      m ∈ q.topology.existing ∧ p.topology.oppositeIndex? n.index = some m.index ∧
      t.get? "u" n.index = some x ∧ t'.get? "u" m.index = some y ∧
      x.send.first.values = [2] ∧ y.recv.first.values = [-2] ∧ x.send.wholeFolds = true ∧
      y.recv.wholeFolds = true ∧
      n' ∈ p.topology.existing ∧ q.topology.oppositeIndex? m.index = some n'.index ∧
      t.get? "u" n'.index = some z ∧ y.send.extent.values = [1] ∧ y.send.wholeFolds = false ∧
      z.recv.wholeFolds = false := by
  obtain ⟨⟨⟨p, t⟩, q, t'⟩, hrun, hcheck⟩ := exists_eq_ok_of_any
    (x := do
      return (← setUpAlone FoldedLine.stencil FoldedLine.settings (.oneNode 2) 0,
        ← setUpAlone FoldedLine.stencil FoldedLine.settings (.oneNode 2) 1))
    (p := fun ((p, t), _, t') => p.topology.existing.any fun n => n.rank = some 1 ∧
      (t.get? "u" n.index).any (fun x => x.send.first.values = [2] ∧ x.send.wholeFolds) ∧
        ((p.topology.oppositeIndex? n.index).bind (t'.get? "u")).any fun y =>
          y.recv.first.values = [-2] ∧ y.send.extent.values = [1] ∧ y.send.wholeFolds = false)
    -- Both ranks are set up by running the program, and the check looks at the buffers.
    (by decide +kernel)
  simp only [bind_eq_ok, pure_eq_ok, Prod.mk.injEq] at hrun
  obtain ⟨_, ha, _, hb, rfl, rfl⟩ := hrun
  obtain ⟨placed, hplace, ht⟩ := allocated_of_setUpAlone ha
  obtain ⟨placed', hplace', ht'⟩ := allocated_of_setUpAlone hb
  simp only [List.any_eq_true, Option.any_eq_true, decide_eq_true_eq] at hcheck
  obtain ⟨n, hn, hr, ⟨x, hx, hfirst, hwhole⟩, y, hy, hfirst', hextent, hsingle⟩ := hcheck
  obtain ⟨m, hm, hopposite, hmr, -, htables⟩ := wholeFolds_send_eq_recv "u" FoldedLine.built
    FoldedLine.reachable (by decide +kernel) (by decide +kernel) hplace hplace' hn hr
  rw [hopposite, Option.bind_some] at hy
  -- The theorem finds the receive buffer at the neighbor, and it is the one that was looked up.
  obtain ⟨y', hy', hsame⟩ := htables placed placed' t t' rfl rfl ht ht' x hx
  obtain rfl : y = y' := Option.some.inj (hy.symm.trans hy')
  -- Back from the neighbor it finds the one that belongs to the single point.
  obtain ⟨n', hn', hback, -, -, htables'⟩ := wholeFolds_send_eq_recv "u" FoldedLine.built
    FoldedLine.reachable (by decide +kernel) (by decide +kernel) hplace' hplace hm hmr
  obtain ⟨z, hz, hsame'⟩ := htables' placed' placed t' t rfl rfl ht' ht y hy
  exact ⟨p, q, t, t', n, m, n', x, y, z, hn, hr, hm, hopposite, hx, hy, hfirst, hfirst', hwhole,
    hsame ▸ hwhole, hn', hback, hz, hextent, hsingle, hsame' ▸ hsingle⟩

end StencilPlan
