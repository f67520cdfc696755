import StencilPlan.Proofs.Halo.Attaching

/-!
# Segments of shared memory

In a network inside one process a rank publishes its shared windows under keys of its own before
the ranks meet (`Offered`). After that it attaches each shared receive buffer to the segment under
its key (`Attached`). Each key has one segment, which is claimed once.
-/

namespace StencilPlan

open Heap

/-- No two places of a table are for the same variable and the same neighbor. -/
def HaloTable.Separate (t : HaloTable) : Prop :=
  ∀ a b n m, t.at? a = some n → t.at? b = some m → n.rank = m.rank →
    t.varName a = t.varName b → a = b

theorem HaloTable.Separate.of_outline {t t' : HaloTable} (h : t.Separate)
    (ho : t'.outline = t.outline) : t'.Separate := by
  -- Ranks and names can be read off the outline.
  intro a b n m ha hb hrank hvar
  obtain ⟨n', hn', hnr⟩ := at?_of_outline ho ha
  obtain ⟨m', hm', hmr⟩ := at?_of_outline ho hb
  have hranks : n'.rank = m'.rank :=
    (NeighborBuffers.of_bare_eq hnr).1.trans (hrank.trans (NeighborBuffers.of_bare_eq hmr).1.symm)
  exact h a b n' m' hn' hm' hranks (by rwa [← varName_of_outline ho, ← varName_of_outline ho])

/-- The storage at a place before the ranks meet: all windows lie in the pools of the rank. -/
structure Stored (t : HaloTable) (h : Heap) (n : NeighborBuffers) : Prop where
  shared : n.shared = true → ∃ w, t.shared = some w.pool ∧ w.shared = true ∧ n.send.Placed h w
  owned : n.shared = false → ∃ w w', t.owned = some w.pool ∧ t.owned = some w'.pool ∧
    w.shared = false ∧ w'.shared = false ∧ n.send.Placed h w ∧ n.recv.Placed h w'

namespace HaloTable.Berthed

variable {t : HaloTable} {h : Heap} {slot : Slot} {n : NeighborBuffers}

theorem placed (hb : t.Berthed h) (hn : t.at? slot = some n) {d : Direction} (hd : d ∈ n.housed) :
    ∃ w, t.pool? n.shared = some w.pool ∧ w.shared = n.shared ∧ (n.buffer d).Placed h w := by
  obtain ⟨pool, k, hpool, hw, hroomy, -, hend⟩ := hb.window hn hd
  refine ⟨⟨pool, k, .owned, n.shared⟩, hpool, rfl, hw, hroomy.size, ?_⟩
  exact Nat.le_trans (Nat.min_le_left _ _)
    (Nat.le_trans (Nat.add_le_add_left hroomy.fits _) hend)

theorem storedAt (hb : t.Berthed h) (hn : t.at? slot = some n) : Stored t h n := by
  refine ⟨fun hyes => ?_, fun hno => ?_⟩
  · obtain ⟨w, hpool, hshared, hplaced⟩ :=
      hb.placed hn (d := .send) (by simp [NeighborBuffers.housed, hyes])
    rw [hyes] at hpool hshared
    exact ⟨w, hpool, hshared, hplaced⟩
  · obtain ⟨w, hpool, hshared, hplaced⟩ :=
      hb.placed hn (d := .send) (by simp [NeighborBuffers.housed, hno])
    obtain ⟨w', hpool', hshared', hplaced'⟩ :=
      hb.placed hn (d := .recv) (by simp [NeighborBuffers.housed, hno])
    rw [hno] at hpool hshared hpool' hshared'
    exact ⟨w, w', hpool, hpool', hshared, hshared', hplaced, hplaced'⟩

end HaloTable.Berthed

/-- What a rank has published once the windows at some places are carved. -/
structure PublishedAll (me : Nat) (slots : List Slot) (t : HaloTable)
    (segs segs' : List (SegmentKey × Segment)) : Prop where
  distinct : Universe.Distinct segs'
  kept : ∀ e ∈ segs, (∀ slot ∈ slots, ∀ n, t.at? slot = some n → n.shared = true →
    e.1 ≠ Site.keyAt me t slot n) → e ∈ segs'
  published : ∀ slot ∈ slots, ∀ n w, t.at? slot = some n → n.shared = true →
    n.send.window = some w →
    (Site.keyAt me t slot n, ⟨w.pool, w.offset, n.send.room true⟩) ∈ segs'

namespace PublishedAll

variable {me : Nat} {slot : Slot} {slots : List Slot} {n : NeighborBuffers} {t : HaloTable}
  {segs segs' : List (SegmentKey × Segment)}

/-- A place that shares nothing has nothing to publish. -/
theorem cons_of_not_shared (h : PublishedAll me slots t segs segs') (hn : t.at? slot = some n)
    (hno : n.shared = false) : PublishedAll me (slot :: slots) t segs segs' := by
  refine ⟨h.distinct, fun e he hkeys => ?_, fun s hs m w hm hshared hw => ?_⟩
  · exact h.kept e he fun s hs => hkeys s (List.mem_cons_of_mem _ hs)
  · rcases List.mem_cons.mp hs with rfl | hs
    · obtain rfl := Option.some.inj (hn.symm.trans hm)
      rw [hno] at hshared
      cases hshared
    · exact h.published s hs m w hm hshared hw

/-- What is published for one place stays there while the other places are carved. -/
theorem cons_of_shared {w : Window} (h : PublishedAll me slots t
      (Universe.published (Site.keyAt me t slot n) ⟨w.pool, w.offset, n.send.room true⟩ segs) segs')
    (hdistinct : Universe.Distinct segs) (hsep : t.Separate) (hslot : slot ∉ slots)
    (hn : t.at? slot = some n) (hyes : n.shared = true) (hw : n.send.window = some w) :
    PublishedAll me (slot :: slots) t segs segs' := by
  have hmem := @Universe.mem_published _ (Site.keyAt me t slot n)
    ⟨w.pool, w.offset, n.send.room true⟩ hdistinct
  refine ⟨h.distinct, fun e he hkeys => ?_, fun s hs m w' hm hshared hw' => ?_⟩
  · refine h.kept e ((hmem e).mpr (.inr ⟨he, ?_⟩)) fun s hs => hkeys s (List.mem_cons_of_mem _ hs)
    exact hkeys slot List.mem_cons_self n hn hyes
  · rcases List.mem_cons.mp hs with rfl | hs
    · obtain rfl := Option.some.inj (hn.symm.trans hm)
      obtain rfl := Option.some.inj (hw.symm.trans hw')
      refine h.kept _ ((hmem _).mpr (.inl rfl)) fun s' hs' m' hm' _ heq => ?_
      -- A later place with the same key would be this place, as the table is separate.
      obtain ⟨-, hrank, hvar⟩ := SegmentKey.mk.inj heq
      exact hslot (hsep s s' n m' hn hm' hrank hvar ▸ hs')
    · exact h.published s hs m w' hm hshared hw'

end PublishedAll

namespace Site.CarvesAll

variable {me : Nat} {used : PoolWords} {es : List (Slot × NeighborBuffers)}
  {site site' : Site Universe}

/-- Carving windows changes nothing in the network but the segments. -/
theorem net (h : CarvesAll me used es site site') :
    site'.world.net = { site.world.net with segments := site'.world.net.segments } := by
  induction h with
  | nil => rfl
  | @cons used slot n n' es site site' world hn hcarved hrest ih =>
    cases hcarved with
    | @shared pool heap =>
      obtain ⟨hnet, -⟩ := Universe.publish_eq (keyAt me site.table slot n)
        ⟨pool, used.shared, n.send.room true⟩ ⟨heap, site.world.net⟩
      rw [ih]
      dsimp only [Transport.publish]
      rw [hnet]
    | owned => exact ih

/-- Once all windows are carved, everything that is shared is published. -/
theorem publishedAll (h : CarvesAll me used es site site') (hnodup : (es.map (·.1)).Nodup)
    (hsep : site.table.Separate) (hdistinct : Universe.Distinct site.world.net.segments) :
    PublishedAll me (es.map (·.1)) site'.table site.world.net.segments
      site'.world.net.segments := by
  induction h with
  | nil => exact ⟨hdistinct, fun e he _ => he, by simp⟩
  | @cons used slot n n' es site site' world hn hcarved hrest ih =>
    rw [List.map_cons, List.nodup_cons] at hnodup
    have houtline := HaloTable.outline_put hn hcarved.bare
    have hself : site'.table.at? slot = some n' :=
      (hrest.other hnodup.1).trans (HaloTable.at?_put_self hn n')
    have hall : site'.table.outline = site.table.outline := hrest.outline.trans houtline
    -- A key is made of a rank and a name, and carving changes neither.
    have hkey : keyAt me site'.table slot n' = keyAt me site.table slot n := by
      rw [keyAt, keyAt, (NeighborBuffers.of_bare_eq hcarved.bare).1,
        HaloTable.varName_of_outline hall]
    have ih := ih hnodup.2 (hsep.of_outline houtline)
    rw [List.map_cons]
    cases hcarved with
    | owned hno => exact (ih hdistinct).cons_of_not_shared hself hno
    | @shared pool heap hyes =>
      obtain ⟨hnet, -⟩ := Universe.publish_eq (keyAt me site.table slot n)
        ⟨pool, used.shared, n.send.room true⟩ ⟨heap, site.world.net⟩
      dsimp only [Transport.publish] at ih
      rw [hnet, ← hkey] at ih
      exact (ih (Universe.distinct_published hdistinct)).cons_of_shared hdistinct
        (hsep.of_outline hall) hnodup.1 hself hyes rfl

end Site.CarvesAll

/-! ### Before the ranks meet -/

/-- What a rank comes to before the ranks meet. -/
structure Offered (stencil : Stencil) (s : Settings) (topology : Topology) (site : Site Universe)
    (words : PoolWords) (site' : Site Universe) : Prop where
  outline : ∃ vs, LaidOut stencil s topology (site.world.net.sameNodeAs topology.rank) words
    stencil.vars vs ∧ site'.table.outline = ⟨vs, topology.size, none, none⟩
  pools : Site.Pools site.heap words site'.table site'.heap
  berthed : site'.table.Berthed site'.heap
  net : site'.world.net = { site.world.net with segments := site'.world.net.segments }
  segments : site'.table.Separate → Universe.Distinct site.world.net.segments →
    PublishedAll topology.rank site'.table.slots site'.table site.world.net.segments
      site'.world.net.segments

theorem offered_of_offer {stencil : Stencil} {s : Settings} {topology : Topology} {grid : DimVec}
    {a : Allocator} {site site' : Site Universe} {words : PoolWords} {v : Verbosity}
    (ht : topology.Sound grid)
    (hy : (Site.offer stencil s topology a).Yields v site words site') :
    Offered stencil s topology site words site' := by
  -- What is known before the carving is taken along to its end: the carving keeps the outline.
  obtain ⟨site₁, hprovided, hall⟩ := carves_of_offer ht hy
  obtain ⟨howned, hshared⟩ := hall.pools
  refine ⟨⟨site₁.table.vars, hprovided.laid, ?_⟩, ?_, hprovided.berthed hall, ?_,
    fun hsep hdistinct => ?_⟩
  · rw [hall.outline, HaloTable.outline, hprovided.laid.bare, hprovided.neighborhood]
  · exact hprovided.pools.of_sameWords (.refl _) hall.sameWords howned hshared
  · rw [hall.net, hprovided.net]
  · have hslots : site'.table.slots = site₁.table.entries.map (·.1) := by
      rw [HaloTable.map_fst_entries, ← HaloTable.slots_outline, hall.outline,
        HaloTable.slots_outline]
    rw [hslots, ← hprovided.net]
    exact hall.publishedAll (HaloTable.nodup_entries _) (hsep.of_outline hall.outline.symm)
      (hprovided.net ▸ hdistinct)

/-! ### After the ranks have met -/

/-- How far a rank has come once the receive buffers at some places are attached. -/
structure Attached (me : Nat) (slots : List Slot) (site site' : Site Universe) : Prop where
  outline : site'.table.outline = site.table.outline
  owned : site'.table.owned = site.table.owned
  shared : site'.table.shared = site.table.shared
  heap : SameWords site.heap site'.heap
  net : site'.world.net = { site.world.net with segments := site'.world.net.segments }
  entry : ∀ slot n, site'.table.at? slot = some n → ∃ m, site.table.at? slot = some m ∧
    n.bare = m.bare ∧ n.send = m.send ∧ (slot ∉ slots → n = m)
  recv : Universe.Distinct site.world.net.segments → ∀ slot ∈ slots, ∀ n,
    site'.table.at? slot = some n → ∃ seg,
      ((⟨n.rank, me, site.table.varName slot⟩, seg) : SegmentKey × Segment) ∈
          site.world.net.segments ∧
        n.recv.Placed site.heap ⟨seg.pool, seg.offset, .attached, true⟩ ∧
        seg.length = n.recv.room true
  distinct : Universe.Distinct site.world.net.segments →
    Universe.Distinct site'.world.net.segments ∧
      (∀ e ∈ site'.world.net.segments, e ∈ site.world.net.segments) ∧
      ∀ e ∈ site.world.net.segments, e.1.dest ≠ me → e ∈ site'.world.net.segments

namespace Site

variable {me : Nat} {site site' : Site Universe} {slots : List Slot} {v : Verbosity}

namespace AttachesAll

/-- Attaching writes no word of a pool. -/
theorem sameWords (h : AttachesAll v me slots site site') : SameWords site.heap site'.heap := by
  induction h with
  | nil => exact .refl _
  | cons _ hclaim _ hsame _ _ ih =>
    obtain ⟨rest, -, rfl⟩ := Universe.yields_claim hclaim
    exact hsame.trans ih

/-- Attaching changes nothing in the network but the segments. -/
theorem net (h : AttachesAll v me slots site site') :
    site'.world.net = { site.world.net with segments := site'.world.net.segments } := by
  induction h with
  | nil => rfl
  | cons _ hclaim _ _ _ _ ih =>
    obtain ⟨rest, -, rfl⟩ := Universe.yields_claim hclaim
    exact ih

/-- A segment that is claimed goes, and it was one for this rank. -/
theorem segments (h : AttachesAll v me slots site site')
    (hdistinct : Universe.Distinct site.world.net.segments) :
    Universe.Distinct site'.world.net.segments ∧
      (∀ e ∈ site'.world.net.segments, e ∈ site.world.net.segments) ∧
      ∀ e ∈ site.world.net.segments, e.1.dest ≠ me → e ∈ site'.world.net.segments := by
  induction h with
  | nil => exact ⟨hdistinct, fun _ he => he, fun _ he _ => he⟩
  | cons _ hclaim _ _ _ _ ih =>
    obtain ⟨rest, htake, rfl⟩ := Universe.yields_claim hclaim
    obtain ⟨-, hdistinct₁, hsub⟩ := Universe.of_takeFirst?_segments hdistinct htake
    obtain ⟨hdistinct', hback, hkept⟩ := ih hdistinct₁
    refine ⟨hdistinct', fun e he => ((hsub e).mp (hback e he)).1, fun e he hdest => ?_⟩
    exact hkept e ((hsub e).mpr ⟨he, fun heq => hdest (by rw [heq])⟩) hdest

/-- What a place is attached to in the end was among the segments in the beginning. -/
theorem recv (h : AttachesAll v me slots site site')
    (hdistinct : Universe.Distinct site.world.net.segments) {slot : Slot} (hslot : slot ∈ slots)
    {n : NeighborBuffers} (hn : site'.table.at? slot = some n) :
    ∃ seg, ((⟨n.rank, me, site.table.varName slot⟩, seg) : SegmentKey × Segment) ∈
        site.world.net.segments ∧
      n.recv.Placed site.heap ⟨seg.pool, seg.offset, .attached, true⟩ ∧
      seg.length = n.recv.room true := by
  induction h with
  | nil => cases hslot
  | @cons slot' slots n' seg world heap site site' hn' hclaim hlength hsame hplaced hrest ih =>
    obtain ⟨rest, htake, rfl⟩ := Universe.yields_claim hclaim
    obtain ⟨hmem, hdistinct₁, hsub⟩ := Universe.of_takeFirst?_segments hdistinct htake
    by_cases hlater : slot ∈ slots
    · -- Claiming a segment takes it away, so what later places find is among the old segments.
      obtain ⟨seg', hmem', hplaced', hlength'⟩ := ih hdistinct₁ hlater hn
      have hname : (site.table.put slot' (n'.attachedTo seg)).varName slot =
          site.table.varName slot :=
        HaloTable.varName_of_outline (HaloTable.outline_put hn' (n'.bare_attachedTo seg)) slot
      rw [hname] at hmem'
      exact ⟨seg', ((hsub _).mp hmem').1, hplaced'.of_sameWords hsame.symm, hlength'⟩
    · -- The place is not attached again, so it keeps the segment that it has claimed here.
      obtain rfl := (List.mem_cons.mp hslot).resolve_right hlater
      obtain ⟨m, hm, -, -, hother, -⟩ := hrest.entry hn
      obtain rfl := hother hlater
      dsimp only at hm
      rw [HaloTable.at?_put_self hn', Option.some.injEq] at hm
      subst hm
      refine ⟨seg, hmem, hplaced, ?_⟩
      rw [← HaloBuffer.room_eq hlength]
      exact (HaloBuffer.room_of_bare rfl true).symm

theorem attached (h : AttachesAll v me slots site site') : Attached me slots site site' where
  outline := h.outline
  owned := h.pools.1
  shared := h.pools.2
  heap := h.sameWords
  net := h.net
  entry slot n hn := by
    obtain ⟨m, hm, hbare, hsend, hother, -⟩ := h.entry hn
    exact ⟨m, hm, hbare, hsend, hother⟩
  recv hdistinct slot hslot n hn := h.recv hdistinct hslot hn
  distinct := h.segments

end AttachesAll

theorem attached_of_settle {s : Settings} {words : PoolWords} {a : Unit}
    (hy : (settle s me words).Yields v site a site') :
    Attached me (if s.useShared then site.table.sharedSlots else []) site site' := by
  have h := attachesAll_of_settle hy
  -- In this network meeting the others leaves the site as it is.
  split at h
  · next hshared =>
    obtain ⟨_, hall, rfl⟩ := h
    rw [if_pos hshared]
    exact hall.attached
  · next hshared =>
    subst h
    rw [if_neg hshared]
    exact (AttachesAll.nil (v := v)).attached

end Site

end StencilPlan
