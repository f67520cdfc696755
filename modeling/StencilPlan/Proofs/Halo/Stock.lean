import StencilPlan.Proofs.Halo.Matching

/-!
# The storage of all ranks

Every rank carves its windows out of pools of its own, so windows of different ranks cannot meet. A
shared send buffer waits under its key until the neighbor that the key names has settled, and then
that neighbor has the window for its own. `Stocked` says how far some ranks have come with this; it
survives what a rank does before the ranks meet and after, in whatever order the ranks do it.
-/

namespace StencilPlan

open Heap

/-! ### One rank -/

/-- The windows of a table fill pools of its own, and in the shared pool there are zeros all
over. -/
structure Furnished (t : HaloTable) (h : Heap) : Prop where
  berthed : t.Berthed h
  zeros : ∀ p, t.shared = some p → ∃ k, h.words? p = some (Array.replicate k 0)

section Rank

variable {t : HaloTable} {h h' : Heap} {n : NeighborBuffers}

theorem Furnished.room (hf : Furnished t h) {p : PoolId} (hp : t.HasPool p) :
    p < h.pools.size ∧ h.length p ≤ arrayBytes := by
  rcases hp with hp | hp
  · exact hf.berthed.room false p hp
  · exact hf.berthed.room true p hp

/-- Shared windows lie apart from each other, with all the words they need. -/
theorem Furnished.apart (hf : Furnished t h) {a b : Slot} {n m : NeighborBuffers} {w w' : Window}
    (hne : a ≠ b) (hn : t.at? a = some n) (hm : t.at? b = some m) (hshared : n.shared = true)
    (hshared' : m.shared = true) (hw : n.send.window = some w) (hw' : m.send.window = some w')
    (hpool : w.pool = w'.pool) : w.offset + (n.send.count + HaloBuffer.controlWords) ≤ w'.offset ∨
      w'.offset + (m.send.count + HaloBuffer.controlWords) ≤ w.offset := by
  have hd : Direction.send ∈ n.housed := by simp [NeighborBuffers.housed, hshared]
  have hd' : Direction.send ∈ m.housed := by simp [NeighborBuffers.housed, hshared']
  obtain ⟨-, -, -, -, hroomy, -⟩ := hf.berthed.window hn hd
  obtain ⟨-, -, -, -, hroomy', -⟩ := hf.berthed.window hm hd'
  have happart := hf.berthed.apart hn hm hd hd' (fun heq => hne (Prod.mk.inj heq).1) hw hw' hpool
  have hfits := hroomy.fits
  have hfits' := hroomy'.fits
  rw [hshared] at happart hfits
  rw [hshared'] at happart hfits'
  exact happart.imp (Nat.le_trans (Nat.add_le_add_left hfits _))
    (Nat.le_trans (Nat.add_le_add_left hfits' _))

/-- A send buffer is lodged in a pool of its rank. -/
theorem Furnished.send_lodged (hf : Furnished t h) {slot : Slot} (hn : t.at? slot = some n) :
    ∃ v, n.send.Lodged h v ∧ v.shared = n.shared ∧
      if n.shared then t.shared = some v.pool else t.owned = some v.pool := by
  obtain ⟨hshared, howned⟩ := hf.berthed.storedAt hn
  cases hkind : n.shared with
  | true =>
    obtain ⟨v, hpool, hv, hplaced⟩ := hshared hkind
    exact ⟨v, HaloBuffer.lodged_of_placed hplaced (hf.room (.inr hpool)).2, hv, hpool⟩
  | false =>
    obtain ⟨v, -, hpool, -, hv, -, hplaced, -⟩ := howned hkind
    exact ⟨v, HaloBuffer.lodged_of_placed hplaced (hf.room (.inl hpool)).2, hv, hpool⟩

/-- What others add to the heap does not matter. -/
theorem Furnished.mono (hf : Furnished t h) (hg : Grows h h') : Furnished t h' := by
  refine ⟨hf.berthed.mono hg, fun p hp => ?_⟩
  obtain ⟨k, hk⟩ := hf.zeros p hp
  exact ⟨k, (hg.old p (hf.room (.inr hp)).1).trans hk⟩

/-- Before the ranks meet a rank has furnished its table. -/
theorem Offered.furnished {stencil : Stencil} {s : Settings} {topology : Topology}
    {site site' : Site Universe} {words : PoolWords}
    (ho : Offered stencil s topology site words site') : Furnished site'.table site'.heap :=
  ⟨ho.berthed, fun p hp =>
    ho.pools.grows.fresh p (ho.pools.shared p hp).ge (ho.pools.shared p hp).lt⟩

theorem Attached.varName {me : Nat} {slots : List Slot} {site site' : Site Universe}
    (ha : Attached me slots site site') (slot : Slot) :
    site'.table.varName slot = site.table.varName slot :=
  HaloTable.varName_of_outline ha.outline slot

/-- A rank that has attached its shared receive buffers still has its own windows. -/
theorem Furnished.attach {me : Nat} {slots : List Slot} {site site' : Site Universe}
    (hf : Furnished site.table site.heap) (ha : Attached me slots site site')
    (hslots : ∀ slot ∈ slots, ∀ n, site.table.at? slot = some n → n.shared = true) :
    Furnished site'.table site'.heap := by
  have hf := hf.mono ha.heap.grows
  refine ⟨hf.berthed.attach ha.outline ha.owned ha.shared fun slot n hn => ?_,
    fun p hp => hf.zeros p (ha.shared ▸ hp)⟩
  obtain ⟨m, hm, hbare, hsend, hother⟩ := ha.entry _ _ hn
  refine ⟨m, hm, hsend, fun hno => ?_⟩
  -- Places without shared buffers were not touched.
  rw [hother fun hslot => ?_]
  rw [(NeighborBuffers.of_bare_eq hbare).2.1, hslots slot hslot m hm] at hno
  cases hno

/-- The shared windows hold zeros. -/
theorem Furnished.word?_eq_zero (hf : Furnished t h) {p : PoolId} (hp : t.shared = some p) {i : Nat}
    (hi : i < h.length p) : h.word? p i = some 0 := by
  obtain ⟨k, hk⟩ := hf.zeros p hp
  rw [length_eq, hk, Option.map_some, Option.getD_some, Array.size_replicate] at hi
  rw [word?_eq, hk, Option.bind_some, Array.getElem?_replicate, if_pos hi]

end Rank

/-! ### All ranks -/

/-- The storage of some ranks. `offered k t` says that rank `k` has offered its buffers and has now
the table `t`, and `settled j` that rank `j` has attached its receive buffers. -/
structure Stocked (offered : Nat → HaloTable → Prop) (settled : Nat → Prop) (w : World Universe) :
    Prop where
  furnished : ∀ k t, offered k t → Furnished t w.heap
  foreign : ∀ k j t t' p, offered k t → offered j t' → k ≠ j → t.HasPool p → ¬ t'.HasPool p
  distinct : Universe.Distinct w.net.segments
  published : ∀ k t slot n v, offered k t → t.at? slot = some n → n.shared = true →
    n.send.window = some v → ¬ settled n.rank →
    (Site.keyAt k t slot n, ⟨v.pool, v.offset, n.send.room true⟩) ∈ w.net.segments
  attached : ∀ j t slot n, offered j t → settled j → t.at? slot = some n → n.shared = true →
    ∃ v, n.recv.Placed w.heap v ∧ v.shared = true ∧ ∀ k t' slot' m v', offered k t' →
      t'.at? slot' = some m → m.shared = true → m.send.window = some v' →
      Site.keyAt k t' slot' m = ⟨n.rank, j, t.varName slot⟩ →
        v.pool = v'.pool ∧ v.offset = v'.offset ∧ m.send.room true = n.recv.room true

/-- Of what the other ranks see of a table nothing has changed: its shared send buffers with their
keys. No pool was added. -/
structure SameOffer (k : Nat) (t₀ t : HaloTable) : Prop where
  pool : ∀ p, t.HasPool p → t₀.HasPool p
  entry : ∀ slot n, t.at? slot = some n → ∃ m, t₀.at? slot = some m ∧ n.rank = m.rank ∧
    n.shared = m.shared ∧ n.send = m.send ∧ Site.keyAt k t slot n = Site.keyAt k t₀ slot m

theorem SameOffer.refl (k : Nat) (t : HaloTable) : SameOffer k t t :=
  ⟨fun _ hp => hp, fun _ n hn => ⟨n, hn, rfl, rfl, rfl, rfl⟩⟩

/-- Attaching touches receive buffers only. -/
theorem Attached.sameOffer {me : Nat} {slots : List Slot} {site site' : Site Universe}
    (ha : Attached me slots site site') : SameOffer me site.table site'.table := by
  refine ⟨fun p hp => ?_, fun slot n hn => ?_⟩
  · rwa [HaloTable.HasPool, ha.owned, ha.shared] at hp
  · obtain ⟨m, hm, hbare, hsend, -⟩ := ha.entry _ _ hn
    obtain ⟨hrank, hshared, -⟩ := NeighborBuffers.of_bare_eq hbare
    refine ⟨m, hm, hrank, hshared, hsend, ?_⟩
    rw [Site.keyAt, Site.keyAt, hrank, ha.varName]

namespace Stocked

variable {offered offered' : Nat → HaloTable → Prop} {settled settled' : Nat → Prop} {me : Nat}
  {w w' : World Universe} {site site' : Site Universe}

/-- A step that has to do with no buffers. -/
theorem quiet (h : Stocked offered settled w) (hsame : SameWords w.heap w'.heap)
    (hnet : w'.net = w.net) (ho : ∀ k t, offered' k t → offered k t)
    (hs : ∀ j, settled' j ↔ settled j) : Stocked offered' settled' w' := by
  refine ⟨fun k t hk => (h.furnished k t (ho k t hk)).mono hsame.grows,
    fun k j t t' p hk hj => h.foreign k j t t' p (ho k t hk) (ho j t' hj), ?_, ?_, ?_⟩
  · rw [hnet]
    exact h.distinct
  · intro k t slot n v hk hn hshared hv hset
    rw [hnet]
    exact h.published k t slot n v (ho k t hk) hn hshared hv fun hold => hset ((hs _).mpr hold)
  · intro j t slot n hj hset hn hshared
    obtain ⟨v, hplaced, hv, hsend⟩ := h.attached j t slot n (ho j t hj) ((hs j).mp hset) hn hshared
    exact ⟨v, hplaced.of_sameWords hsame, hv, fun k t' slot' m v' hk =>
      hsend k t' slot' m v' (ho k t' hk)⟩

/-- A rank offers its buffers. Those that have settled by then share nothing. -/
theorem offer {stencil : Stencil} {s : Settings} {topology : Topology} {words : PoolWords}
    (h : Stocked offered settled site.world)
    (hoffered : Offered stencil s topology site words site') (hme : topology.rank = me)
    (hsep : site'.table.Separate)
    (ho : ∀ k t, offered' k t → k = me ∧ t = site'.table ∨ k ≠ me ∧ offered k t)
    (hs : ∀ j, settled' j ↔ settled j)
    (halone : ∀ j t slot n, offered' j t → settled j → t.at? slot = some n → n.shared = false) :
    Stocked offered' settled' site'.world := by
  have hgrows := hoffered.pools.grows
  have hsegments := hoffered.segments hsep h.distinct
  -- The pools of the rank are new ones.
  have hfresh : ∀ p : Nat, site'.table.HasPool p → site.heap.pools.size ≤ p := by
    rintro p (hp | hp)
    · exact (hoffered.pools.owned p hp).ge
    · exact (hoffered.pools.shared p hp).ge
  have hold : ∀ k t (p : Nat), offered k t → t.HasPool p → p < site.heap.pools.size :=
    fun k t p hk hp => ((h.furnished k t hk).room hp).1
  refine ⟨fun k t hk => ?_, fun k j t t' p hk hj hne hp hp' => ?_, hsegments.distinct,
    fun k t slot n v hk hn hshared hv hset => ?_, fun j t slot n hj hset hn hshared => ?_⟩
  · rcases ho k t hk with ⟨rfl, rfl⟩ | ⟨-, hk⟩
    · exact hoffered.furnished
    · exact (h.furnished k t hk).mono hgrows
  · rcases ho k t hk with ⟨rfl, rfl⟩ | ⟨-, hk⟩
    · rcases ho j t' hj with ⟨rfl, -⟩ | ⟨-, hj⟩
      · exact hne rfl
      · exact Nat.not_lt.mpr (hfresh p hp) (hold j t' p hj hp')
    · rcases ho j t' hj with ⟨rfl, rfl⟩ | ⟨-, hj⟩
      · exact Nat.not_lt.mpr (hfresh p hp') (hold k t p hk hp)
      · exact h.foreign k j t t' p hk hj hne hp hp'
  · rcases ho k t hk with ⟨rfl, rfl⟩ | ⟨hne, hk⟩
    · rw [← hme]
      refine hsegments.published slot ?_ n v hn hshared hv
      rw [HaloTable.mem_slots, hn]
      rfl
    · have hmem := h.published k t slot n v hk hn hshared hv fun hold => hset ((hs _).mpr hold)
      refine hsegments.kept _ hmem fun slot' _ n' _ _ heq => hne ?_
      exact (SegmentKey.mk.inj heq).1.trans hme
  · have hno := halone j t slot n hj ((hs j).mp hset) hn
    rw [hno] at hshared
    cases hshared

/-- A rank attaches its shared receive buffers. -/
theorem settle {slots : List Slot} (h : Stocked offered settled site.world)
    (ha : Attached me slots site site') (hmine : offered me site.table) (hnot : ¬ settled me)
    (hslots : ∀ slot n, site.table.at? slot = some n → (slot ∈ slots ↔ n.shared = true))
    (ho : ∀ k t, offered' k t → k = me ∧ t = site'.table ∨ k ≠ me ∧ offered k t)
    (hs : ∀ j, settled' j ↔ j = me ∨ settled j) : Stocked offered' settled' site'.world := by
  obtain ⟨hdistinct, -, hkept⟩ := ha.distinct h.distinct
  -- Every rank offers what it offered before, and for all but this one it is the same table.
  have hbefore : ∀ k t, offered' k t → ∃ t₀, offered k t₀ ∧ SameOffer k t₀ t := by
    intro k t hk
    rcases ho k t hk with ⟨rfl, rfl⟩ | ⟨-, hk⟩
    · exact ⟨site.table, hmine, ha.sameOffer⟩
    · exact ⟨t, hk, .refl k t⟩
  refine ⟨fun k t hk => ?_, fun k j t t' p hk hj hne hp hp' => ?_, hdistinct,
    fun k t slot n v hk hn hshared hv hset => ?_, fun j t slot n hj hset hn hshared => ?_⟩
  · rcases ho k t hk with ⟨rfl, rfl⟩ | ⟨-, hk⟩
    · exact (h.furnished k _ hmine).attach ha fun slot hslot n hn => (hslots slot n hn).mp hslot
    · exact (h.furnished k t hk).mono ha.heap.grows
  · obtain ⟨t₀, hk₀, hoffer⟩ := hbefore k t hk
    obtain ⟨t₁, hj₁, hoffer'⟩ := hbefore j t' hj
    exact h.foreign k j t₀ t₁ p hk₀ hj₁ hne (hoffer.pool p hp) (hoffer'.pool p hp')
  · -- Only segments for this rank were claimed, and it counts as settled now.
    obtain ⟨t₀, hk₀, hoffer⟩ := hbefore k t hk
    obtain ⟨m, hm, hrank, hkind, hsend, hkey⟩ := hoffer.entry slot n hn
    rw [hs, not_or] at hset
    rw [hrank] at hset
    have hmem := h.published k t₀ slot m v hk₀ hm (hkind ▸ hshared) (hsend ▸ hv) hset.2
    rw [hkey, hsend]
    exact hkept _ hmem hset.1
  · rcases ho j t hj with ⟨rfl, rfl⟩ | ⟨hne, hold⟩
    · -- The segment it has found is the one published under the key.
      obtain ⟨m, hm, hbare, -⟩ := ha.entry _ _ hn
      have hslot : slot ∈ slots :=
        (hslots slot m hm).mpr ((NeighborBuffers.of_bare_eq hbare).2.1 ▸ hshared)
      obtain ⟨seg, hseg, hplaced, hlength⟩ := ha.recv h.distinct slot hslot n hn
      refine ⟨_, hplaced.of_sameWords ha.heap, rfl, fun k t' slot' m' v' hk hm' hsh hv' hkey => ?_⟩
      obtain ⟨t₀, hk₀, hoffer⟩ := hbefore k t' hk
      obtain ⟨m₀, hm₀, -, hkind, hsend, hkey₀⟩ := hoffer.entry slot' m' hm'
      rw [hkey₀, ha.varName] at hkey
      have hmem := h.published k t₀ slot' m₀ v' hk₀ hm₀ (hkind ▸ hsh) (hsend ▸ hv')
        ((SegmentKey.mk.inj hkey).2.1 ▸ hnot)
      rw [hkey] at hmem
      obtain rfl := h.distinct.eq_of_mem hseg hmem
      exact ⟨rfl, rfl, hsend ▸ hlength⟩
    · -- A rank that had settled before keeps its windows, and nobody's send buffers have moved.
      have hset : settled j := ((hs j).mp hset).resolve_left hne
      obtain ⟨v, hplaced, hv, hsent⟩ := h.attached j t slot n hold hset hn hshared
      refine ⟨v, hplaced.of_sameWords ha.heap, hv, fun k t' slot' m' v' hk hm' hsh hv' hkey => ?_⟩
      obtain ⟨t₀, hk₀, hoffer⟩ := hbefore k t' hk
      obtain ⟨m₀, hm₀, -, hkind, hsend, hkey₀⟩ := hoffer.entry slot' m' hm'
      have hroom := hsent k t₀ slot' m₀ v' hk₀ hm₀ (hkind ▸ hsh) (hsend ▸ hv') (hkey₀ ▸ hkey)
      rwa [← hsend] at hroom

/-- The buffers of a rank that has settled hold a number of values each. -/
theorem sized (h : Stocked offered settled w) {k : Nat} {t : HaloTable} (ho : offered k t)
    (hs : settled k) : t.Sized := by
  intro slot n hn
  obtain ⟨hshared, howned⟩ := (h.furnished k t ho).berthed.storedAt hn
  cases hkind : n.shared with
  | true =>
    obtain ⟨v, -, -, hsend⟩ := hshared hkind
    obtain ⟨v', hrecv, -⟩ := h.attached k t slot n ho hs hn hkind
    exact ⟨hsend.size, hrecv.size⟩
  | false =>
    obtain ⟨v, v', -, -, -, -, hsend, hrecv⟩ := howned hkind
    exact ⟨hsend.size, hrecv.size⟩

/-! ### When all have settled -/

section Settled

variable {size : Nat} {parties : Nat → Party}

/-- The window of a shared receive buffer is that of the send buffer of the partner. -/
theorem attached_window (hl : Linked size parties)
    (hnames : ∀ k < size, ∀ s n, (parties k).table.at? s = some n →
      (parties n.rank).table.varName ((parties k).mirror s) = (parties k).table.varName s)
    (h : Stocked offered settled w)
    (hall : ∀ k < size, offered k (parties k).table ∧ settled k) {k : Nat} (hk : k < size)
    {s : Slot} {n m : NeighborBuffers} (hn : (parties k).table.at? s = some n)
    (hshared : n.shared = true) (hpartner : Partners parties k s n m) {v : Window}
    (hv : n.send.window = some v) : ∃ v', m.recv.Placed w.heap v' ∧ v'.shared = true ∧
      v'.pool = v.pool ∧ v'.offset = v.offset := by
  have hj := hl.inRange k hk s n hn
  obtain ⟨v', hplaced, hv', hsent⟩ := h.attached n.rank _ _ m (hall _ hj).1 (hall _ hj).2
    hpartner.entry (hpartner.shared.trans hshared)
  obtain ⟨hpool, hoffset, -⟩ := hsent k _ s n v (hall k hk).1 hn hshared hv (by
    rw [Site.keyAt, hpartner.rank, hnames k hk s n hn])
  exact ⟨v', hplaced, hv', hpool, hoffset⟩

/-- A receive buffer is lodged in the pool of its rank or, if it is shared, where it was
attached. -/
theorem recv_lodged (hl : Linked size parties)
    (hnames : ∀ k < size, ∀ s n, (parties k).table.at? s = some n →
      (parties n.rank).table.varName ((parties k).mirror s) = (parties k).table.varName s)
    (h : Stocked offered settled w)
    (hall : ∀ k < size, offered k (parties k).table ∧ settled k) {k : Nat} (hk : k < size)
    {s : Slot} {n : NeighborBuffers} (hn : (parties k).table.at? s = some n) :
    ∃ v, n.recv.Lodged w.heap v ∧ v.shared = n.shared ∧
      (n.shared = false → (parties k).table.owned = some v.pool) := by
  have hfurnished := fun k (hk : k < size) => h.furnished k _ (hall k hk).1
  cases hkind : n.shared with
  | false =>
    obtain ⟨-, v, -, hpool, -, hv, -, hplaced⟩ :=
      ((hfurnished k hk).berthed.storedAt hn).owned hkind
    exact ⟨v, HaloBuffer.lodged_of_placed hplaced ((hfurnished k hk).room (.inl hpool)).2, hv,
      fun _ => hpool⟩
  | true =>
    -- it was attached to the window that the neighbor carved for its send buffer
    obtain ⟨m, hpartner⟩ := hl.partner k hk s n hn
    have hj := hl.inRange k hk s n hn
    have hkind' := hpartner.shared.trans hkind
    obtain ⟨u, hu, -, hpool⟩ := (hfurnished n.rank hj).send_lodged hpartner.entry
    rw [if_pos hkind'] at hpool
    have hback := hpartner.symm hl hk hn
    obtain ⟨v, hplaced, hv, hsame, -⟩ :=
      h.attached_window hl hnames hall hj hpartner.entry hkind' hback hu.window
    refine ⟨v, HaloBuffer.lodged_of_placed hplaced ?_, hv, nofun⟩
    rw [hsame]
    exact ((hfurnished _ hj).room (.inr hpool)).2

/-- Ranks that have all settled can exchange. -/
theorem housed (hl : Linked size parties)
    (hnames : ∀ k < size, ∀ s n, (parties k).table.at? s = some n →
      (parties n.rank).table.varName ((parties k).mirror s) = (parties k).table.varName s)
    (h : Stocked offered settled w)
    (hall : ∀ k < size, offered k (parties k).table ∧ settled k) :
    Housed size parties w.heap := by
  have hfurnished := fun k (hk : k < size) => h.furnished k _ (hall k hk).1
  have hsend := fun k (hk : k < size) s n (hn : (parties k).table.at? s = some n) =>
    (hfurnished k hk).send_lodged hn
  have hrecv := fun k (hk : k < size) s n (hn : (parties k).table.at? s = some n) =>
    h.recv_lodged hl hnames hall hk hn
  refine ⟨fun k hk s n hn => ?_, fun k hk s n m v v' hn hshared hpartner hv hv' => ?_,
    fun k hk j hj s s' n m v v' hn hm hshared hshared' hv hv' hpool => ?_,
    fun k hk j hj s s' n m v v' hn hm hshared hshared' hv hv' hpool => ?_⟩
  · -- Both buffers of a place have a window.
    obtain ⟨v, hlodged, hv, -⟩ := hsend k hk s n hn
    obtain ⟨v', hlodged', hv', -⟩ := hrecv k hk s n hn
    exact ⟨v, v', hlodged, hlodged', hv, hv'⟩
  · -- The window of a shared receive buffer is the one in which its neighbor sends.
    obtain ⟨u, hplaced, -, hsame⟩ := h.attached_window hl hnames hall hk hn hshared hpartner hv
    obtain rfl := Option.some.inj (hplaced.window.symm.trans hv')
    exact hsame
  · obtain ⟨u, hu, -, hmine⟩ := hsend k hk s n hn
    -- Two shared send buffers: a rank keeps its windows apart, and ranks have pools of their own.
    obtain ⟨u', hu', -, hyours⟩ := hsend j hj s' m hm
    obtain rfl := Option.some.inj (hu.window.symm.trans hv)
    obtain rfl := Option.some.inj (hu'.window.symm.trans hv')
    rw [if_pos hshared] at hmine
    rw [if_pos hshared', ← hpool] at hyours
    by_cases hkj : k = j
    · subst hkj
      by_cases hss : s = s'
      · exact .inl ⟨rfl, hss⟩
      · exact .inr ((hfurnished k hk).apart hss hn hm hshared hshared' hv hv' hpool)
    · exact absurd (.inr hyours)
        (h.foreign k j _ _ _ (hall k hk).1 (hall j hj).1 hkj (.inr hmine))
  · obtain ⟨u, hu, -, hmine⟩ := hsend k hk s n hn
    obtain rfl := Option.some.inj (hu.window.symm.trans hv)
    rw [if_pos hshared] at hmine
    -- A window of a buffer that is not shared is in the other pool of its rank.
    have hyours : (parties j).table.owned = some v'.pool := by
      rcases hv' with hv' | hv'
      · obtain ⟨u', hu', -, hpool'⟩ := hsend j hj s' m hm
        obtain rfl := Option.some.inj (hu'.window.symm.trans hv')
        rwa [hshared', if_neg Bool.false_ne_true] at hpool'
      · obtain ⟨u', hu', -, hpool'⟩ := hrecv j hj s' m hm
        obtain rfl := Option.some.inj (hu'.window.symm.trans hv')
        exact hpool' hshared'
    rw [← hpool] at hyours
    by_cases hkj : k = j
    · subst hkj
      exact (hfurnished k hk).berthed.distinct _ hyours hmine
    · exact h.foreign k j _ _ _ (hall k hk).1 (hall j hj).1 hkj (.inr hmine) (.inl hyours)

/-- No flag is up and no lock is taken. -/
theorem idle (h : Stocked offered settled w)
    (hall : ∀ k < size, offered k (parties k).table) : Crew.Idle size parties w.heap := by
  intro k hk s n v hn hshared hv
  have hfurnished := h.furnished k _ (hall k hk)
  obtain ⟨u, hpool, hu, hplaced⟩ := (hfurnished.berthed.storedAt hn).shared hshared
  obtain rfl := Option.some.inj (hplaced.window.symm.trans hv)
  have hfits := (HaloBuffer.lodged_of_placed hplaced (hfurnished.room (.inr hpool)).2).fits
  rw [if_pos hu, HaloBuffer.controlWords] at hfits
  exact ⟨hfurnished.word?_eq_zero hpool (by omega), hfurnished.word?_eq_zero hpool (by omega)⟩

end Settled

end Stocked

end StencilPlan
