import StencilPlan.Proofs.Halo.Attaching
import StencilPlan.Proofs.Halo.Pairing
import StencilPlan.Proofs.Halo.Window

/-!
# Halo buffers do not alias

The windows that a rank owns tile its pools (`HaloTable.Tiled`). So whatever is done with one of
them leaves the others alone, and a buffer keeps the values that were last written to it, however
the other buffers, its own lock and flag, and the storage of others were used since
(`HaloTable.Run`).
-/

namespace StencilPlan

open Heap

/-- A buffer of the rank with a window of the rank's own. -/
structure HaloTable.Owns (t : HaloTable) (place : Slot × Direction) (b : HaloBuffer) (w : Window) :
    Prop where
  buffer : t.buffer? place.1 place.2 = some b
  window : b.window = some w
  owned : w.ownership = .owned

/-- The windows that a rank owns tile its pools. -/
structure HaloTable.Tiled (t : HaloTable) (h : Heap) : Prop where
  /-- Each entry has a send buffer and, unless it is shared, a receive buffer of the rank's own. -/
  owns : ∀ slot n, t.at? slot = some n → ∀ d, (∃ w, t.Owns (slot, d) (n.buffer d) w ∧
    w.shared = n.shared) ↔ d = .send ∨ n.shared = false
  /-- The windows of shared entries lie in the shared pool, the others in the other one. -/
  pool : ∀ place b w, t.Owns place b w → t.pool? w.shared = some w.pool ∧ w.pool < h.pools.size
  /-- What is reserved for a window are the words for the values and the control words, rounded up
  to whole cache lines. -/
  reserved : ∀ place b w, t.Owns place b w →
    b.reservedWords w.shared = .ok (b.room w.shared) ∧ b.span w ≤ b.room w.shared ∧
      b.room w.shared < b.span w + lineWords ∧ b.room w.shared % lineWords = 0
  /-- The lock and the ready flag of a shared window come behind its values. -/
  control : ∀ place b w, t.Owns place b w → w.shared = true →
    b.lockWord? h = .ok (some (w.pool, w.offset + b.count)) ∧
      b.readyWord? h = .ok (some (w.pool, w.offset + b.count + 1))
  aligned : ∀ place b w, t.Owns place b w → w.offset % lineWords = 0
  inside : ∀ place b w, t.Owns place b w → w.offset + b.room w.shared ≤ h.length w.pool
  apart : ∀ place place' b b' w w', t.Owns place b w → t.Owns place' b' w' → place ≠ place' →
    w.pool = w'.pool → w.offset + b.room w.shared ≤ w'.offset ∨
      w'.offset + b'.room w'.shared ≤ w.offset
  covers : ∀ p, t.HasPool p → ∀ i < h.length p, ∃ place b w, t.Owns place b w ∧ w.pool = p ∧
    w.offset ≤ i ∧ i < w.offset + b.room w.shared

/-- What is received in shared memory is no window of the rank's own. -/
def HaloTable.Borrows (t : HaloTable) : Prop :=
  ∀ slot n w, t.at? slot = some n → n.shared = true → n.recv.window = some w →
    w.ownership = .attached

namespace HaloTable

variable {t : HaloTable} {h h' : Heap} {place : Slot × Direction} {b : HaloBuffer} {w : Window}

theorem Owns.housed (ho : t.Owns place b w) (hborrows : t.Borrows) :
    ∃ n, t.at? place.1 = some n ∧ b = n.buffer place.2 ∧ place.2 ∈ n.housed := by
  have hbuffer := ho.buffer
  rw [buffer?, Option.map_eq_some_iff] at hbuffer
  obtain ⟨n, hn, rfl⟩ := hbuffer
  refine ⟨n, hn, rfl, ?_⟩
  rw [NeighborBuffers.housed]
  split
  · next hshared =>
    cases hd : place.2 with
    | send => exact List.mem_singleton.mpr rfl
    | recv =>
      have hwindow := ho.window
      rw [hd] at hwindow
      have hattached := hborrows _ n w hn hshared hwindow
      rw [ho.owned] at hattached
      -- The window of a shared receive buffer is attached, and what is attached is not owned.
      cases hattached
  · cases place.2 <;> simp

namespace Berthed

theorem owns (hb : t.Berthed h) {slot : Slot} {n : NeighborBuffers} (hn : t.at? slot = some n)
    {d : Direction} (hd : d ∈ n.housed) :
    ∃ w, t.Owns (slot, d) (n.buffer d) w ∧ w.shared = n.shared := by
  obtain ⟨pool, k, -, hw, -⟩ := hb.window hn hd
  exact ⟨_, ⟨by rw [buffer?, hn, Option.map_some], hw, rfl⟩, rfl⟩

/-- What is known of a window of the rank's own. -/
theorem of_owns (hb : t.Berthed h) (hborrows : t.Borrows) (ho : t.Owns place b w) :
    t.pool? w.shared = some w.pool ∧ b.Roomy w.shared ∧ w.offset % lineWords = 0 ∧
      w.offset + b.room w.shared ≤ h.length w.pool := by
  obtain ⟨n, hn, rfl, hd⟩ := ho.housed hborrows
  obtain ⟨pool, k, hpool, hw, hroomy, hline, hend⟩ := hb.window hn hd
  obtain rfl := Option.some.inj (hw.symm.trans ho.window)
  exact ⟨hpool, hroomy, hline, hend⟩

theorem lodged (hb : t.Berthed h) (hborrows : t.Borrows) (ho : t.Owns place b w) :
    b.Lodged h w := by
  obtain ⟨hpool, hroomy, -, hend⟩ := hb.of_owns hborrows ho
  exact ⟨ho.window, hroomy.size, Nat.le_trans (Nat.add_le_add_left hroomy.fits _) hend,
    (hb.room _ _ hpool).2⟩

theorem tiled (hb : t.Berthed h) (hborrows : t.Borrows) : t.Tiled h where
  owns slot n hn d := by
    constructor
    · rintro ⟨w, ho, -⟩
      obtain ⟨m, hm, -, hd⟩ := ho.housed hborrows
      obtain rfl := Option.some.inj (hn.symm.trans hm)
      simp only [NeighborBuffers.housed] at hd
      split at hd <;> simp_all
    · intro hd
      refine hb.owns hn ?_
      rw [NeighborBuffers.housed]
      split <;> cases d <;> simp_all
  pool place b w ho := by
    obtain ⟨hpool, -⟩ := hb.of_owns hborrows ho
    exact ⟨hpool, (hb.room _ _ hpool).1⟩
  reserved place b w ho := by
    obtain ⟨-, hroomy, -⟩ := hb.of_owns hborrows ho
    exact ⟨hroomy.reserved, hroomy.fits, hroomy.tight, hroomy.lines⟩
  control place b w ho hs :=
    have hlodged := hb.lodged hborrows ho
    ⟨hlodged.lockWord?_eq hs, hlodged.readyWord?_eq hs⟩
  aligned place b w ho := (hb.of_owns hborrows ho).2.2.1
  inside place b w ho := (hb.of_owns hborrows ho).2.2.2
  apart place place' b b' w w' ho ho' hne hpool := by
    obtain ⟨n, hn, rfl, hd⟩ := ho.housed hborrows
    obtain ⟨m, hm, rfl, hd'⟩ := ho'.housed hborrows
    obtain ⟨v, hv, hkind⟩ := hb.owns hn hd
    obtain ⟨v', hv', hkind'⟩ := hb.owns hm hd'
    obtain rfl := Option.some.inj (hv.window.symm.trans ho.window)
    obtain rfl := Option.some.inj (hv'.window.symm.trans ho'.window)
    rw [hkind, hkind']
    -- both windows were carved for their table, and no two carved windows of a pool overlap
    exact hb.apart hn hm hd hd' hne ho.window ho'.window hpool
  covers p hp i hi := by
    obtain ⟨shared, hpool⟩ : ∃ shared, t.pool? shared = some p := by
      rcases hp with hp | hp
      · exact ⟨false, hp⟩
      · exact ⟨true, hp⟩
    have hrows := hb.rows shared p hpool
    obtain ⟨place, hplace, b, w, hbuffer, hw, hge, hlt⟩ := hrows.covers (Nat.zero_le i) hi
    obtain ⟨b', k, hbuffer', hw', -⟩ := hrows.window hplace
    obtain rfl := Option.some.inj (hbuffer.symm.trans hbuffer')
    obtain rfl := Option.some.inj (hw.symm.trans hw')
    exact ⟨place, b, _, ⟨hbuffer, hw, rfl⟩, rfl, hge, hlt⟩

end Berthed

/-! ### What happens to the pools -/

/-- Something that can happen to the pools of a rank. -/
inductive Event where
  /-- A use of the window of a place. -/
  | use (place : Slot × Direction) (u : HaloBuffer.Use)
  /-- Something else that has to do with other pools only. -/
  | elsewhere

/-- The pools of the rank stay as they are. -/
def Spares (t : HaloTable) (h h' : Heap) : Prop := ∀ p, t.HasPool p → h'.words? p = h.words? p

/-- An event takes one heap to another one. A window of the rank's own is used through the buffer of
the rank, or through one of a neighbor that is attached to it with as many values. -/
inductive Happens (t : HaloTable) (h : Heap) : Event → Heap → Prop
  | use {place : Slot × Direction} {b c : HaloBuffer} {w : Window} {u : HaloBuffer.Use} {h' : Heap}
      (hown : t.Owns place b w) (hview : c.Views w b.count) (huse : c.Uses h u h') :
      Happens t h (.use place u) h'
  | elsewhere {h' : Heap} (hspares : t.Spares h h') : Happens t h .elsewhere h'

/-- Some events one after the other, the last one first. -/
inductive Run (t : HaloTable) (h : Heap) : List Event → Heap → Prop
  | nil : Run t h [] h
  | cons {e : Event} {es : List Event} {h' h'' : Heap} (hrun : Run t h es h')
      (hlast : t.Happens h' e h'') : Run t h (e :: es) h''

/-- The values that were last written to a place. -/
def lastWritten? (place : Slot × Direction) : List Event → Option (List Binary64)
  | [] => none
  | .use q (.write vs) :: es => if q = place then some vs else lastWritten? place es
  | _ :: es => lastWritten? place es

/-- Attaching what others share and whatever else adds to the heap. -/
theorem Berthed.spares_of_grows (hb : t.Berthed h) (hg : Grows h h') : t.Spares h h' := by
  rintro p (hp | hp)
  · exact hg.old p (hb.room false p hp).1
  · exact hg.old p (hb.room true p hp).1

theorem Berthed.of_spares (hb : t.Berthed h) (hs : t.Spares h h') : t.Berthed h' := by
  refine hb.of_length fun shared p hp => ?_
  have hwords := hs p (hasPool_of_pool? hp)
  refine ⟨?_, by rw [length_eq, hwords, ← length_eq]⟩
  -- A pool that has words is there.
  by_contra hge
  rw [words?, words?, Array.getElem?_eq_none (Nat.le_of_not_lt hge),
    Array.getElem?_eq_getElem (hb.room shared p hp).1] at hwords
  cases hwords

theorem Happens.berthed {e : Event} (hb : t.Berthed h) (hborrows : t.Borrows)
    (he : t.Happens h e h') : t.Berthed h' := by
  cases he with
  | use hown hview huse =>
    obtain ⟨-, o, hlodged⟩ := (hb.lodged hborrows hown).of_views hview
    have halters := hlodged.alters_of_uses huse
    exact hb.of_length fun shared p hp =>
      ⟨by rw [halters.size]; exact (hb.room shared p hp).1, halters.length p⟩
  | elsewhere hspares => exact hb.of_spares hspares

theorem Run.berthed {es : List Event} (hb : t.Berthed h) (hborrows : t.Borrows)
    (hr : t.Run h es h') : t.Berthed h' := by
  induction hr with
  | nil => exact hb
  | cons _ hlast ih => exact hlast.berthed ih hborrows

/-- A use of a window changes no word outside of it. -/
theorem Happens.alters {u : HaloBuffer.Use} (hb : t.Berthed h) (hborrows : t.Borrows)
    (ho : t.Owns place b w) (he : t.Happens h (.use place u) h') :
    h.Alters w (b.span w) h' := by
  cases he with
  | @use _ b' c w' _ _ hown hview huse =>
    obtain rfl := Option.some.inj (hown.buffer.symm.trans ho.buffer)
    obtain rfl := Option.some.inj (hown.window.symm.trans ho.window)
    obtain ⟨hcount, o, hlodged⟩ := (hb.lodged hborrows hown).of_views hview
    have halters := hlodged.alters_of_uses huse
    rw [HaloBuffer.span, hcount] at halters
    exact ⟨halters.size, halters.length, halters.word⟩

/-- A use of one window leaves those at all other places alone. -/
theorem Happens.frame {u : HaloBuffer.Use} {place' : Slot × Direction} (hb : t.Berthed h)
    (hborrows : t.Borrows) (ho : t.Owns place b w) (he : t.Happens h (.use place' u) h')
    (hne : place' ≠ place) {i : Nat} (hge : w.offset ≤ i) (hlt : i < w.offset + b.room w.shared) :
    h'.word? w.pool i = h.word? w.pool i := by
  have hused := he
  cases hused with
  | @use _ b' c w' _ _ hown =>
    refine (he.alters hb hborrows hown).word _ _ ?_
    rintro ⟨hpool, hge', hlt'⟩
    obtain ⟨-, hroomy, -⟩ := hb.of_owns hborrows hown
    have hspan : b'.span w' ≤ b'.room w'.shared := hroomy.fits
    rcases (hb.tiled hborrows).apart _ _ _ _ _ _ ho hown hne.symm hpool with h | h <;> omega

/-- What happens leaves the values of a window alone, unless they are written. -/
theorem Happens.values {e : Event} (hb : t.Berthed h) (hborrows : t.Borrows)
    (ho : t.Owns place b w) (he : t.Happens h e h') (hnot : ∀ vs, e ≠ .use place (.write vs))
    {i : Nat} (hi : i < b.count) :
    h'.word? w.pool (w.offset + i) = h.word? w.pool (w.offset + i) := by
  obtain ⟨hpool, hroomy, -⟩ := hb.of_owns hborrows ho
  cases e with
  | elsewhere =>
    cases he with
    | elsewhere hspares => rw [word?_eq, word?_eq, hspares _ (hasPool_of_pool? hpool)]
  | use place' u =>
    by_cases heq : place' = place
    · -- The window itself was used, but for its lock or its flag.
      subst heq
      cases he with
      | @use _ b' c w' _ _ hown hview huse =>
        obtain rfl := Option.some.inj (hown.buffer.symm.trans ho.buffer)
        obtain rfl := Option.some.inj (hown.window.symm.trans ho.window)
        obtain ⟨hcount, o, hlodged⟩ := (hb.lodged hborrows hown).of_views hview
        exact hlodged.values_of_uses huse (fun vs hu => hnot vs (hu ▸ rfl)) (hcount ▸ hi)
    · -- Another window was used, and the values of this one lie outside of it.
      have hfits := hroomy.fits
      exact he.frame hb hborrows ho heq (Nat.le_add_right _ _) (by omega)

/-- After any run a buffer holds the values that were last written to it. -/
theorem Run.read_eq {es : List Event} (hb : t.Berthed h) (hborrows : t.Borrows)
    (hr : t.Run h es h') (ho : t.Owns place b w) :
    b.read h' b.count = ((lastWritten? place es).map .ok).getD (b.read h b.count) := by
  induction hr with
  | nil => rfl
  | @cons e es h' h'' hrun hlast ih =>
    have hb' := hrun.berthed hb hborrows
    have hb'' := hlast.berthed hb' hborrows
    obtain ⟨hpool, -⟩ := hb'.of_owns hborrows ho
    -- the last event either writes the buffer, and then only it counts, or leaves its values alone
    by_cases hwrite : ∃ vs, e = .use place (.write vs)
    · obtain ⟨vs, rfl⟩ := hwrite
      rw [lastWritten?, if_pos rfl, Option.map_some, Option.getD_some]
      cases hlast with
      | @use _ b' c w' _ _ hown hview huse =>
        obtain rfl := Option.some.inj (hown.buffer.symm.trans ho.buffer)
        obtain rfl := Option.some.inj (hown.window.symm.trans ho.window)
        obtain ⟨hcount, o, hlodged⟩ := (hb'.lodged hborrows hown).of_views hview
        obtain ⟨hlen, -, hwords⟩ := hlodged.of_write huse
        obtain ⟨us, hus⟩ := (hb''.lodged hborrows hown).exists_read_of_lt (hb''.room _ _ hpool).1
        rw [hus, (hb''.lodged hborrows hown).of_read (hlen.trans hcount) hwords hus]
    · have hlast? : lastWritten? place (e :: es) = lastWritten? place es := by
        cases e with
        | elsewhere => rfl
        | use q u =>
          cases u with
          | write vs => exact if_neg fun hq => hwrite ⟨vs, by rw [hq]⟩
          | _ => rfl
      rw [hlast?, ← ih]
      refine (hb'.lodged hborrows ho).read_congr (hb''.lodged hborrows ho) (hb'.room _ _ hpool).1
        (hb''.room _ _ hpool).1 fun i hi => ?_
      exact hlast.values hb' hborrows ho (fun vs he => hwrite ⟨vs, he⟩) hi

end HaloTable

/-! ### The buffers of a rank -/

section Allocated

variable {ν : Type} [Transport ν] [LawfulTransport ν] {stencil : Stencil} {s : Settings}
  {grid indices : DimVec} {topology : Topology} {a : Allocator} {v w : Verbosity}
  {site site' : Site ν} {words : PoolWords}

theorem berthed_of_offer (ht : topology.Sound grid)
    (hy : (Site.offer stencil s topology a).Yields v site words site') :
    Grows site.heap site'.heap ∧ site'.table.Berthed site'.heap ∧
      ∀ slot n, site'.table.at? slot = some n → n.shared = true →
        s.useShared = true ∧ n.recv.window = none := by
  obtain ⟨site₁, hprovided, hall⟩ := carves_of_offer ht hy
  exact ⟨hprovided.pools.grows.trans hall.sameWords.grows, hprovided.berthed hall,
    fun slot n hn hshared => hprovided.unattached hall hn hshared⟩

/-- A rank that has settled still has its windows, and what it receives in shared memory is
attached. -/
theorem berthed_of_settle {me : Nat} {u : Unit} (hb : site.table.Berthed site.heap)
    (hbare : ∀ slot n, site.table.at? slot = some n → n.shared = true →
      s.useShared = true ∧ n.recv.window = none)
    (hy : (Site.settle s me words).Yields v site u site') :
    site'.table.Berthed site'.heap ∧ site'.table.Borrows := by
  have hsettled := Site.attachesAll_of_settle hy
  split at hsettled
  · next huse =>
    obtain ⟨site₁, hall, rfl⟩ := hsettled
    obtain ⟨howned, hshared⟩ := hall.pools
    refine ⟨(hb.mono hall.grows).attach hall.outline howned hshared fun slot n hn => ?_,
      fun slot n w hn hkind hw => ?_⟩
    · obtain ⟨m, hm, hsame, hsend, hother, -⟩ := hall.entry hn
      refine ⟨m, hm, hsend, fun hno => ?_⟩
      rw [hother fun hslot => ?_]
      -- Only shared entries were attached.
      obtain ⟨m', hm', hkind⟩ := HaloTable.mem_sharedSlots.mp hslot
      obtain rfl := Option.some.inj (hm.symm.trans hm')
      rw [(NeighborBuffers.of_bare_eq hsame).2.1, hkind] at hno
      cases hno
    · obtain ⟨m, hm, hsame, -, -, hattached⟩ := hall.entry hn
      obtain ⟨w', hw', howner⟩ := hattached (HaloTable.mem_sharedSlots.mpr
        ⟨m, hm, (NeighborBuffers.of_bare_eq hsame).2.1 ▸ hkind⟩)
      obtain rfl := Option.some.inj (hw'.symm.trans hw)
      exact howner
  · next hnot =>
    subst hsettled
    exact ⟨hb, fun slot n w hn hkind _ => absurd (hbare slot n hn hkind).1 hnot⟩

/-- Once the buffers of a rank are laid out and its pools allocated no window is refused. When the
rank has settled, its windows tile its pools, and they keep doing so whatever happens to the pools.
A use of one window changes no word outside of it, so none of another window; a buffer can be
written whenever the values are as many as it holds, and it is read as it was last written. -/
theorem halo_buffers_unaliased (hmax : ∀ n ∈ grid.values, n ≤ Idx.max)
    (hbuild : (Topology.build grid indices).Yields w () topology ()) :
    (∀ (site site₁ site₂ site₃ : Site ν) (words : PoolWords),
      Site.release.Yields v site () site₁ →
      (Site.layOut stencil s topology ⟨0, 0⟩ stencil.vars).Yields v (site₁.surrounded topology)
        words site₂ →
      (Site.allocatePools s a words).Yields v site₂ () site₃ →
      ∃ site', (Site.offer stencil s topology a).Yields v site words site') ∧
    ∀ (site first second third : Site ν) (words : PoolWords),
      (Site.offer stencil s topology a).Yields v site words first →
      second.table = first.table → first.table.Spares first.heap second.heap →
      (Site.settle s topology.rank words).Yields v second () third →
      third.table.Tiled third.heap ∧
      ∀ es h, third.table.Run third.heap es h → third.table.Tiled h ∧
        ∀ place b w, third.table.Owns place b w →
          (∀ u h', third.table.Happens h (.use place u) h' → h.Alters w (b.span w) h' ∧
            ∀ place' b' w', third.table.Owns place' b' w' → place' ≠ place → ∀ i, w'.offset ≤ i →
              i < w'.offset + b'.room w'.shared → h'.word? w'.pool i = h.word? w'.pool i) ∧
          (∀ vs, vs.length = b.count → ∃ h', b.write h vs = .ok h') ∧
          ∃ vs, b.read third.heap b.count = .ok vs ∧
            b.read h b.count = .ok ((HaloTable.lastWritten? place es).getD vs) := by
  obtain ⟨-, ht⟩ := Topology.sound_of_build hmax hbuild
  constructor
  · intro site site₁ site₂ site₃ words hrelease hlayOut hpools
    -- The other parts of an offer are given to go through; carving is the one that could refuse.
    obtain ⟨site', hcarve, -⟩ := (provisioned_of_yields ht hrelease hlayOut hpools).carves _ v
    refine ⟨site', ?_⟩
    simp only [Site.offer, Task.yields_bind (x := Site.release), Task.yields_bind_modify,
      Task.yields_bind (x := Site.layOut _ _ _ _ _),
      Task.yields_bind (x := Site.allocatePools _ _ _),
      Task.yields_bind (x := Site.carveAll _ _ _ _), Task.yields_bind_get, Task.yields_pure]
    exact ⟨_, _, hrelease, _, _, hlayOut, _, _, hpools, _, _, hcarve, rfl, rfl⟩
  · intro site first second third words hoffer htable hspares hsettle
    -- Between the offer and the settling other ranks act on the heap, but not on these windows.
    obtain ⟨-, hb, hbare⟩ := berthed_of_offer ht hoffer
    obtain ⟨hb, hborrows⟩ := berthed_of_settle (htable ▸ hb.of_spares hspares) (htable ▸ hbare)
      hsettle
    refine ⟨hb.tiled hborrows, fun es h hrun => ?_⟩
    have hb' := hrun.berthed hb hborrows
    refine ⟨hb'.tiled hborrows, fun place b w ho =>
      ⟨fun u h' hu => ⟨?_, ?_⟩, fun vs hlen => ?_, ?_⟩⟩
    · exact hu.alters hb' hborrows ho
    · intro place' b' w' ho' hne i hge hlt
      exact hu.frame hb' hborrows ho' hne.symm hge hlt
    · obtain ⟨hpool, -⟩ := hb'.of_owns hborrows ho
      exact (hb'.lodged hborrows ho).exists_write_of_lt hlen (hb'.room _ _ hpool).1
    · obtain ⟨hpool, -⟩ := hb.of_owns hborrows ho
      -- The values before the first write are those that the settled rank finds.
      obtain ⟨vs, hvs⟩ := (hb.lodged hborrows ho).exists_read_of_lt (hb.room _ _ hpool).1
      refine ⟨vs, hvs, ?_⟩
      rw [hrun.read_eq hb hborrows ho, hvs]
      cases HaloTable.lastWritten? place es <;> rfl

end Allocated

/-- The settings of the line, with shared memory. -/
def Line.together : Settings :=
  ((Settings.setOption Line.catalog "use_shm" "true").run none Line.settings).state

/-- The table and the heap of the second of three ranks in a line, the first two of which are on one
node: the two offer their buffers, and then the second one settles. -/
def Line.middle : Outcome (HaloTable × Heap) := do
  let topology ← ((Topology.build ⟨[("x", 3)]⟩ ⟨[("x", 1)]⟩).run none ()).result
  let peer ← ((Topology.build ⟨[("x", 3)]⟩ ⟨[("x", 0)]⟩).run none ()).result
  let first := (Site.offer Line.stencil Line.together topology .unlimited).run none
    ⟨.empty, .empty, Universe.withNodes 3 2⟩
  let words ← first.result
  let other := (Site.offer Line.stencil Line.together peer .unlimited).run none
    ⟨.empty, first.state.world⟩
  let _ ← other.result
  let third := (Site.settle Line.together topology.rank words).run none
    ⟨first.state.table, other.state.world⟩
  third.result
  return (third.state.table, third.state.heap)

/-- What the second rank does in a line. -/
theorem Line.of_middle {t : HaloTable} {h : Heap} (hrun : Line.middle = .ok (t, h)) :
    ∃ (topology peer : Topology) (words words' : PoolWords)
      (first other third : Site Universe),
      (Topology.build ⟨[("x", 3)]⟩ ⟨[("x", 1)]⟩).Yields none () topology () ∧
      (Topology.build ⟨[("x", 3)]⟩ ⟨[("x", 0)]⟩).Yields none () peer () ∧
      (Site.offer Line.stencil Line.together topology .unlimited).Yields none
        ⟨.empty, .empty, Universe.withNodes 3 2⟩ words first ∧
      (Site.offer Line.stencil Line.together peer .unlimited).Yields none ⟨.empty, first.world⟩
        words' other ∧
      (Site.settle Line.together topology.rank words).Yields none ⟨first.table, other.world⟩ ()
        third ∧
      third.table = t ∧ third.heap = h := by
  simp only [Line.middle, bind_eq_ok, pure_eq_ok, Prod.mk.injEq] at hrun
  obtain ⟨_, hbuild, _, hpeer, _, hfirst, _, hother, _, hthird, ht, hh⟩ := hrun
  exact ⟨_, _, _, _, _, _, _, Task.yields_of_result hbuild, Task.yields_of_result hpeer,
    Task.yields_of_result hfirst, Task.yields_of_result hother, Task.yields_of_result hthird,
    ht.symm, hh.symm⟩

/-- Of the windows of the second rank in a line one is shared and another one is not. What is
written to the first one is not lost when the second one is written too. -/
theorem halo_buffers_unaliased_middle : ∃ (t : HaloTable) (h h₁ h₂ : Heap)
    (p q : Slot × Direction) (b c : HaloBuffer) (x y : Window),
    Line.middle = .ok (t, h) ∧ t.Tiled h ∧
      t.Owns p b x ∧ x.shared = true ∧ t.Owns q c y ∧ y.shared = false ∧
      b.write h [⟨1⟩, ⟨2⟩] = .ok h₁ ∧ c.write h₁ [⟨3⟩] = .ok h₂ ∧
      b.read h₂ b.count = .ok [⟨1⟩, ⟨2⟩] := by
  obtain ⟨⟨t, h⟩, hmiddle, hcheck⟩ := exists_eq_ok_of_any
    (x := Line.middle)
    (p := fun ((t, _) : HaloTable × Heap) =>
      (t.at? ⟨0, 0⟩).any (fun n => n.shared = true ∧ n.send.count = 2) &&
        (t.at? ⟨0, 2⟩).any (fun n => n.shared = false ∧ n.send.count = 1))
    (by decide +kernel)
  obtain ⟨topology, peer, words, words', first, other, third, hbuild, hpeer, hfirst, hother, hthird,
    rfl, rfl⟩ := Line.of_middle hmiddle
  have hmax : ∀ n ∈ (⟨[("x", 3)]⟩ : DimVec).values, n ≤ Idx.max := by decide
  -- The other rank has only added to the heap in the meantime.
  obtain ⟨-, hberthed, -⟩ := berthed_of_offer (Topology.sound_of_build hmax hbuild).2 hfirst
  obtain ⟨hgrows, -⟩ := berthed_of_offer (Topology.sound_of_build hmax hpeer).2 hother
  obtain ⟨-, htiled⟩ := @halo_buffers_unaliased Universe _ _ Line.stencil Line.together _ _ _
    .unlimited none none hmax hbuild
  obtain ⟨htiled, hruns⟩ := htiled _ first ⟨first.table, other.world⟩ third _ hfirst rfl
    (hberthed.spares_of_grows hgrows) hthird
  rw [Bool.and_eq_true, Option.any_eq_true, Option.any_eq_true] at hcheck
  obtain ⟨⟨n, hn, hshared⟩, m, hm, hown⟩ := hcheck
  simp only [decide_eq_true_eq] at hshared hown
  obtain ⟨x, hx, hxs⟩ := (htiled.owns _ n hn .send).mpr (.inl rfl)
  obtain ⟨y, hy, hys⟩ := (htiled.owns _ m hm .send).mpr (.inl rfl)
  have hviews : ∀ place b w, third.table.Owns place b w → b.Views w b.count :=
    fun place b w ho => ⟨⟨_, ho.window⟩,
      (HaloBuffer.roomy_of_reservedWords (htiled.reserved place b w ho).1).size⟩
  -- Each write is one event of the run.
  obtain ⟨-, hstart⟩ := hruns [] _ .nil
  obtain ⟨h₁, hwrite⟩ := (hstart _ _ _ hx).2.1 [⟨1⟩, ⟨2⟩] hshared.2.symm
  have hrun₁ := HaloTable.Run.nil.cons (.use (u := .write _) hx (hviews _ _ _ hx) hwrite)
  obtain ⟨-, hafter⟩ := hruns _ _ hrun₁
  obtain ⟨h₂, hwrite'⟩ := (hafter _ _ _ hy).2.1 [⟨3⟩] hown.2.symm
  obtain ⟨-, hend⟩ := hruns _ _ (hrun₁.cons (.use (u := .write _) hy (hviews _ _ _ hy) hwrite'))
  obtain ⟨-, -, _, -, hread⟩ := hend _ _ _ hx
  exact ⟨_, _, h₁, h₂, _, _, _, _, x, y, hmiddle, htiled, hx, hxs.trans hshared.1, hy,
    hys.trans hown.1, hwrite, hwrite', hread⟩

end StencilPlan
