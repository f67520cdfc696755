import StencilPlan.Proofs.Halo.Storage

/-!
# Pools that are full of windows

A rank lays out its table, allocates pools of just as many words as it needs (`Provisioned`) and
carves its windows out of them. The sizes are added up in one pass over the table and handed out in
another one. Both count the words of an entry in the same way, so no window is refused
(`Provisioned.carves`), and those that the rank stores itself fill its pools without a gap
(`HaloTable.Berthed`). It stays so whatever is received in the pools of others.
-/

namespace StencilPlan

open Heap

/-! ### The pools -/

namespace Site

variable {ν : Type} {site site' : Site ν} {v : Verbosity} {slot : Slot}

theorem of_releaseSlots {slots : List Slot} {a : Unit}
    (hy : (releaseSlots slots).Yields v site a site') :
    SameWords site.heap site'.heap ∧ site'.world.net = site.world.net := by
  induction slots generalizing site with
  | nil =>
    simp only [releaseSlots, Task.yields_pure] at hy
    obtain ⟨-, rfl⟩ := hy
    exact ⟨.refl _, rfl⟩
  | cons slot slots ih =>
    simp only [releaseSlots, Task.yields_bind_get] at hy
    cases hn : site.table.at? slot with
    | none =>
      simp only [hn] at hy
      exact ih hy
    | some n =>
      simp only [hn, Task.yields_bind] at hy
      obtain ⟨_, _, hsend, _, _, hrecv, hy⟩ := hy
      obtain ⟨b, h, hrelease, rfl⟩ := (yields_onBuffer hn).mp hsend
      obtain ⟨b', h', hrelease', rfl⟩ := (yields_onBuffer (HaloTable.at?_put_self hn _)).mp hrecv
      -- Giving up the two buffers of a place frees no pool and keeps every word.
      obtain ⟨hsame, hnet⟩ := ih hy
      exact ⟨((HaloBuffer.of_release hrelease).2.trans (HaloBuffer.of_release hrelease').2).trans
        hsame, hnet⟩

theorem of_release {a : Unit} (hy : release.Yields v site a site') :
    site'.table.vars = [] ∧ site'.table.owned = none ∧ site'.table.shared = none ∧
      SameWords site.heap site'.heap ∧ site'.world.net = site.world.net := by
  simp only [release, Task.yields_bind_get, Task.yields_bind (x := releaseSlots _),
    Task.yields_modify] at hy
  obtain ⟨_, site₁, hslots, rfl⟩ := hy
  obtain ⟨hsame, hnet⟩ := of_releaseSlots hslots
  have hdrop : ∀ (h : Heap) (p : Option PoolId), SameWords h ((p.map h.letGo).getD h) := by
    intro h p
    cases p with
    | none => exact .refl _
    | some p => exact sameWords_letGo h p
  exact ⟨rfl, rfl, rfl, hsame.trans ((hdrop _ _).trans (hdrop _ _)), hnet⟩

/-- A pool that was added to a heap for some words. -/
structure NewPool (h : Heap) (words : Nat) (p : PoolId) (h' : Heap) : Prop where
  ge : h.pools.size ≤ p
  lt : p < h'.pools.size
  capacity : h'.length p ≤ arrayBytes
  length : h'.length p = (words * wordSize + (lineBytes - 1)) / lineBytes * lineWords

/-- A pool of whole cache lines has no word too many. -/
theorem NewPool.length_eq {h h' : Heap} {words : Nat} {p : PoolId} (hp : NewPool h words p h')
    (hlines : words % lineWords = 0) : h'.length p = words := by
  rw [hp.length]
  simp only [wordSize, lineBytes, lineWords] at hlines ⊢
  omega

theorem NewPool.le_length {h h' : Heap} {words : Nat} {p : PoolId} (hp : NewPool h words p h') :
    words ≤ h'.length p := by
  rw [hp.length]
  simp only [wordSize, lineBytes, lineWords]
  omega

theorem NewPool.mono {h₀ h h' h₂ : Heap} {words : Nat} {p : PoolId} (hp : NewPool h words p h')
    (hle : h₀.pools.size ≤ h.pools.size) (hg : Grows h' h₂) : NewPool h₀ words p h₂ := by
  have hlength : h₂.length p = h'.length p := by
    rw [Heap.length_eq, hg.old p hp.lt, ← Heap.length_eq]
  exact ⟨Nat.le_trans hle hp.ge, Nat.lt_of_lt_of_le hp.lt hg.size, hlength ▸ hp.capacity,
    hlength.trans hp.length⟩

/-- The pools of a rank after they were allocated: new ones, as far as there are words for them. -/
structure Pools (h : Heap) (words : PoolWords) (t : HaloTable) (h' : Heap) : Prop where
  owned_bytes : words.owned * wordSize < Word.bound
  shared_bytes : words.shared * wordSize < Word.bound
  grows : Grows h h'
  owned : ∀ p : Nat, t.owned = some p → NewPool h words.owned p h'
  shared : ∀ p : Nat, t.shared = some p → NewPool h words.shared p h'
  exists_owned : 0 < words.owned → t.owned.isSome
  exists_shared : 0 < words.shared → t.shared.isSome
  distinct : ∀ p, t.owned = some p → t.shared ≠ some p

/-- Pools stay as they are while the words of the heap do. -/
theorem Pools.of_sameWords {h₀ h h' h₂ : Heap} {words : PoolWords} {t t' : HaloTable}
    (hp : Pools h words t h') (hbefore : SameWords h₀ h) (hafter : SameWords h' h₂)
    (howned : t'.owned = t.owned) (hshared : t'.shared = t.shared) : Pools h₀ words t' h₂ :=
  have hle : h₀.pools.size ≤ h.pools.size := hbefore.grows.size
  ⟨hp.owned_bytes, hp.shared_bytes, (hbefore.grows.trans hp.grows).trans hafter.grows,
    fun p h => (hp.owned p (howned ▸ h)).mono hle hafter.grows,
    fun p h => (hp.shared p (hshared ▸ h)).mono hle hafter.grows,
    fun hpos => howned ▸ hp.exists_owned hpos, fun hpos => hshared ▸ hp.exists_shared hpos,
    fun p h => hshared ▸ hp.distinct p (howned ▸ h)⟩

theorem Pools.hasRoom {h h' : Heap} {words : PoolWords} {t : HaloTable}
    (hp : Pools h words t h') : t.HasRoom h' words := by
  refine ⟨fun hpos => ?_, fun hpos => ?_⟩
  · obtain ⟨p, hsome⟩ := Option.isSome_iff_exists.mp (hp.exists_owned hpos)
    exact ⟨p, hsome, (hp.owned p hsome).le_length, (hp.owned p hsome).capacity⟩
  · obtain ⟨p, hsome⟩ := Option.isSome_iff_exists.mp (hp.exists_shared hpos)
    exact ⟨p, hsome, (hp.shared p hsome).le_length, (hp.shared p hsome).capacity⟩

theorem of_allocate {a : Allocator} {words : Nat} {policy : MemoryPolicy} {p : Nat}
    (hy : (Task.zoom heap withHeap (a.allocate (words * wordSize) policy)).Yields v site p site') :
    ∃ h, site' = withHeap h site ∧ p = site.heap.pools.size ∧ Grows site.heap h ∧
      NewPool site.heap words p h := by
  simp only [Task.yields_zoom] at hy
  obtain ⟨h, hallocate, rfl⟩ := hy
  obtain ⟨hp, hsize, hgrows, hcapacity, hlength⟩ := Allocator.grows_of_allocate hallocate
  have hlt : p < h.pools.size := by
    rw [hsize, hp]
    exact Nat.lt_succ_self _
  exact ⟨h, rfl, hp, hgrows, Nat.le_of_eq hp.symm, hlt, hcapacity, hlength⟩

/-- Where a rank stands between its two pools: it has the first one if there are words for it. -/
structure FirstPool (site : Site ν) (words : PoolWords) (site₁ : Site ν) : Prop where
  vars : site₁.table.vars = site.table.vars
  neighborhood : site₁.table.neighborhood = site.table.neighborhood
  net : site₁.world.net = site.world.net
  shared : site₁.table.shared = none
  grows : Grows site.heap site₁.heap
  pool : ∀ p : Nat, site₁.table.owned = some p → NewPool site.heap words.owned p site₁.heap
  exists_pool : 0 < words.owned → site₁.table.owned.isSome

/-- The shared pool comes after the rank's own one, so the two are different. -/
theorem FirstPool.pools {a : Allocator} {words : PoolWords} {u : Unit} {site₁ : Site ν}
    (h : FirstPool site words site₁) (hbytes : words.owned * wordSize < Word.bound)
    (hy : (if words.shared > 0 then do
        let sharedBytes ← (Word.check (words.shared * wordSize) : Checked _)
        let p ← Task.zoom heap withHeap (a.allocate sharedBytes .shared)
        modify fun t => { t with table := { t.table with shared := some p } }
      else pure () : Task (Site ν) Unit).Yields v site₁ u site') :
    site'.table.vars = site.table.vars ∧ site'.table.neighborhood = site.table.neighborhood ∧
      site'.world.net = site.world.net ∧ Pools site.heap words site'.table site'.heap := by
  split at hy
  · simp only [Task.yields_bind_checked, Word.check_eq_ok_iff,
      Task.yields_bind (x := Task.zoom _ _ _), Task.yields_modify] at hy
    obtain ⟨_, ⟨hbytes', rfl⟩, p, _, hallocate, rfl⟩ := hy
    obtain ⟨h', rfl, rfl, hgrows, hnew⟩ := of_allocate hallocate
    refine ⟨h.vars, h.neighborhood, h.net, hbytes, hbytes', h.grows.trans hgrows,
      fun q hq => (h.pool q hq).mono (Nat.le_refl _) hgrows, fun q hq => ?_, h.exists_pool,
      fun _ => rfl, fun q hq hq' => ?_⟩
    · obtain rfl := Option.some.inj hq
      exact hnew.mono h.grows.size (.refl _)
    · -- The first pool was there when the second one got its number.
      have hlt := (h.pool q hq).lt
      rw [Option.some.inj hq'] at hlt
      exact Nat.lt_irrefl _ hlt
  · next hzero =>
    simp only [Task.yields_pure] at hy
    obtain ⟨-, rfl⟩ := hy
    have hnone : ∀ q : Nat, site'.table.shared ≠ some q := fun q hq => by
      rw [h.shared] at hq
      cases hq
    refine ⟨h.vars, h.neighborhood, h.net, hbytes, ?_, h.grows, h.pool,
      fun q hq => absurd hq (hnone q), h.exists_pool, fun hpos => absurd hpos hzero,
      fun q _ => hnone q⟩
    rw [Nat.eq_zero_of_not_pos hzero, Nat.zero_mul]
    decide

theorem pools_of_allocatePools {s : Settings} {a : Allocator} {words : PoolWords} {u : Unit}
    (howned : site.table.owned = none) (hshared : site.table.shared = none)
    (hy : (allocatePools s a words).Yields v site u site') :
    site'.table.vars = site.table.vars ∧ site'.table.neighborhood = site.table.neighborhood ∧
      site'.world.net = site.world.net ∧ Pools site.heap words site'.table site'.heap := by
  simp only [allocatePools, Task.yields_bind_checked, Word.mul, Word.check_eq_ok_iff] at hy
  obtain ⟨_, ⟨hbytes, rfl⟩, hy⟩ := hy
  split at hy
  · simp only [Task.yields_bind (x := Task.zoom _ _ _), Task.yields_bind_modify] at hy
    obtain ⟨p, _, hallocate, hy⟩ := hy
    obtain ⟨h, rfl, rfl, hgrows, hnew⟩ := of_allocate hallocate
    have hfirst : FirstPool site words
        ⟨{ site.table with owned := some site.heap.pools.size }, ⟨h, site.world.net⟩⟩ := by
      refine ⟨rfl, rfl, rfl, hshared, hgrows, fun q hq => ?_, fun _ => rfl⟩
      obtain rfl := Option.some.inj hq
      exact hnew
    exact hfirst.pools hbytes hy
  · next hzero =>
    have hfirst : FirstPool site words site := by
      refine ⟨rfl, rfl, rfl, hshared, .refl _, fun q hq => ?_, fun hpos => absurd hpos hzero⟩
      rw [howned] at hq
      cases hq
    exact hfirst.pools hbytes hy

end Site

/-! ### Up to the meeting of the ranks -/

section Provisioned

variable {ν : Type} [Transport ν] {stencil : Stencil} {s : Settings} {topology : Topology}
  {grid : DimVec} {a : Allocator} {site site₁ site₂ site₃ : Site ν} {words : PoolWords}
  {v : Verbosity}

/-- What a rank has before it carves its windows: buffers that were laid out and have no storage
yet, and pools for exactly the words that they need. -/
structure Provisioned (stencil : Stencil) (s : Settings) (topology : Topology) (site : Site ν)
    (words : PoolWords) (site' : Site ν) : Prop where
  laid : LaidOut stencil s topology (Transport.sharesNode site.world.net topology.rank) words
    stencil.vars site'.table.vars
  neighborhood : site'.table.neighborhood = topology.size
  pools : Site.Pools site.heap words site'.table site'.heap
  net : site'.world.net = site.world.net

/-- The table with the size of the neighborhood set. -/
def Site.surrounded (topology : Topology) (site : Site ν) : Site ν :=
  { site with table := { site.table with neighborhood := topology.size } }

theorem provisioned_of_yields (ht : topology.Sound grid) {u u' : Unit}
    (hrelease : Site.release.Yields v site u site₁)
    (hlayOut : (Site.layOut stencil s topology ⟨0, 0⟩ stencil.vars).Yields v
      (site₁.surrounded topology) words site₂)
    (hpools : (Site.allocatePools s a words).Yields v site₂ u' site₃) :
    Provisioned stencil s topology site words site₃ := by
  -- After the release the table is empty, so all rows and words are those that are laid out now.
  obtain ⟨hvars, howned, hshared, hsame, hnet⟩ := Site.of_release hrelease
  obtain ⟨vs, rfl, hnames, hrows, hwords, hwords'⟩ := Site.laidOut_of_layOut ht hlayOut
  obtain ⟨hvars₃, hsize, hnet₃, hpools⟩ := Site.pools_of_allocatePools (by exact howned)
    (by exact hshared) hpools
  have htable : site₃.table.vars = vs := by
    rw [hvars₃]
    simp only [Site.surrounded, hvars, List.nil_append]
  refine ⟨?_, hsize, hpools.of_sameWords hsame (.refl _) rfl rfl, hnet₃.trans hnet⟩
  rw [htable]
  refine ⟨hnames, fun x hx => ?_, ?_, ?_⟩
  · have hrow := hrows x hx
    simp only [Site.surrounded, hnet] at hrow
    exact hrow
  · rw [hwords, Nat.zero_add]
  · rw [hwords', Nat.zero_add]

theorem Provisioned.reserved (h : Provisioned stencil s topology site words site₁) {slot : Slot}
    {n : NeighborBuffers} (hn : site₁.table.at? slot = some n) : n.Reserved := by
  simp only [HaloTable.at?, Option.bind_eq_some_iff, Option.join_eq_some_iff] at hn
  obtain ⟨x, hx, hn⟩ := hn
  exact (h.laid.row x (List.mem_of_getElem? hx)).reserved n (List.mem_of_getElem? hn)

theorem Provisioned.pastAll (h : Provisioned stencil s topology site words site₁) :
    (⟨0, 0⟩ : PoolWords).pastAll site₁.table.entries = words := by
  rw [PoolWords.pastAll_eq, Nat.zero_add, Nat.zero_add,
    ← tallyAll_eq_sum fun n => n.ownedWords, ← tallyAll_eq_sum fun n => n.sharedWords, h.laid.owned,
    h.laid.shared]

theorem Provisioned.le_words (h : Provisioned stencil s topology site words site₁) {slot : Slot}
    {n : NeighborBuffers} (hn : site₁.table.at? slot = some n) :
    n.ownedWords ≤ words.owned ∧ n.sharedWords ≤ words.shared := by
  have hmem : (slot, n) ∈ site₁.table.entries := HaloTable.mem_entries.mpr hn
  rw [← h.pastAll, PoolWords.pastAll_eq, Nat.zero_add, Nat.zero_add]
  exact ⟨List.le_sum_of_mem (List.mem_map_of_mem (f := fun e => e.2.ownedWords) hmem),
    List.le_sum_of_mem (List.mem_map_of_mem (f := fun e => e.2.sharedWords) hmem)⟩

/-- A rank that has offered its buffers had what it needed before it carved the windows. -/
theorem provisioned_of_offer (ht : topology.Sound grid)
    (hy : (Site.offer stencil s topology a).Yields v site words site₂) :
    ∃ site₁, Provisioned stencil s topology site words site₁ ∧
      (Site.carveAll topology.rank (Site.poolRequests s a words) ⟨0, 0⟩
        site₁.table.slots).Yields v site₁ () site₂ := by
  simp only [Site.offer, Task.yields_bind (x := Site.release), Task.yields_bind_modify,
    Task.yields_bind (x := Site.layOut _ _ _ _ _), Task.yields_bind (x := Site.allocatePools _ _ _),
    Task.yields_bind (x := Site.carveAll _ _ _ _), Task.yields_bind_get, Task.yields_pure] at hy
  obtain ⟨_, _, hrelease, _, _, hlayOut, _, site₁, hpools, _, _, hcarve, rfl, rfl⟩ := hy
  exact ⟨site₁, provisioned_of_yields ht hrelease hlayOut hpools, hcarve⟩

/-- The outline of what a rank has offered is what was laid out. -/
theorem laidOut_of_offer (ht : topology.Sound grid)
    (hy : (Site.offer stencil s topology a).Yields v site words site₂) : ∃ vs,
      LaidOut stencil s topology (Transport.sharesNode site.world.net topology.rank) words
        stencil.vars vs ∧ site₂.table.outline = ⟨vs, topology.size, none, none⟩ := by
  obtain ⟨site₁, hprovided, hcarve⟩ := provisioned_of_offer ht hy
  refine ⟨_, hprovided.laid, (Site.outline_of_carveAll hcarve).trans ?_⟩
  rw [HaloTable.outline, hprovided.laid.bare, hprovided.neighborhood]

/-- Every buffer gets its window. -/
theorem Provisioned.carves [LawfulTransport ν] (h : Provisioned stencil s topology site words site₁)
    (asked : PoolRequests) (v : Verbosity) : ∃ site₂,
      (Site.carveAll topology.rank asked ⟨0, 0⟩ site₁.table.slots).Yields v site₁ () site₂ ∧
        Site.CarvesAll topology.rank ⟨0, 0⟩ site₁.table.entries site₁ site₂ := by
  rw [← HaloTable.map_fst_entries]
  refine Site.exists_carveAll (HaloTable.nodup_entries _) (fun e he => ?_) ?_
  · have hn := HaloTable.mem_entries.mp he
    exact ⟨hn, h.reserved hn⟩
  · rw [h.pastAll]
    exact h.pools.hasRoom

/-- A rank that has offered its buffers has carved all its windows. -/
theorem carves_of_offer [LawfulTransport ν] (ht : topology.Sound grid)
    (hy : (Site.offer stencil s topology a).Yields v site words site₂) :
    ∃ site₁, Provisioned stencil s topology site words site₁ ∧
      Site.CarvesAll topology.rank ⟨0, 0⟩ site₁.table.entries site₁ site₂ := by
  obtain ⟨site₁, hprovided, hcarve⟩ := provisioned_of_offer ht hy
  obtain ⟨site₃, hcarve', hall⟩ := hprovided.carves _ v
  obtain rfl := (hcarve.unique hcarve').2
  exact ⟨site₁, hprovided, hall⟩

end Provisioned

/-- Only a rank that uses shared memory has shared entries, and what it receives in them is to be
attached. -/
theorem Provisioned.unattached {ν : Type} [Transport ν] {stencil : Stencil} {s : Settings}
    {topology : Topology} {site site₁ site₂ : Site ν} {words : PoolWords} {me : Nat}
    (h : Provisioned stencil s topology site words site₁)
    (hall : Site.CarvesAll me ⟨0, 0⟩ site₁.table.entries site₁ site₂) {slot : Slot}
    {n : NeighborBuffers} (hn : site₂.table.at? slot = some n) (hshared : n.shared = true) :
    s.useShared = true ∧ n.recv.window = none := by
  obtain ⟨m, hm, hbare, hrecv⟩ := hall.entry hn
  have hkind : m.shared = true := (NeighborBuffers.of_bare_eq hbare).2.1 ▸ hshared
  simp only [HaloTable.at?, Option.bind_eq_some_iff, Option.join_eq_some_iff] at hm
  obtain ⟨x, hx, hm⟩ := hm
  obtain ⟨neighbor, -, -, hmakes⟩ := (h.laid.row x (List.mem_of_getElem? hx)).makes hm
  cases hmakes with
  | entry _ hcovers =>
    rw [hrecv hkind]
    exact ⟨(Bool.and_eq_true_iff.mp hkind).1, hcovers.window⟩

/-! ### Pools that are full of windows -/

/-- The windows that a rank stores itself follow each other in its pools from the first word to the
last one. -/
structure HaloTable.Berthed (t : HaloTable) (h : Heap) : Prop where
  rows : ∀ shared pool, t.pool? shared = some pool →
    t.Rows pool shared 0 (berths shared t.entries) (h.length pool)
  room : ∀ shared pool, t.pool? shared = some pool →
    pool < h.pools.size ∧ h.length pool ≤ arrayBytes
  stored : ∀ shared place, place ∈ berths shared t.entries → (t.pool? shared).isSome
  distinct : ∀ p, t.owned = some p → t.shared ≠ some p

/-- A rank that has carved its windows has filled its pools. -/
theorem Provisioned.berthed {ν : Type} [Transport ν] [LawfulTransport ν] {stencil : Stencil}
    {s : Settings} {topology : Topology} {site site₁ site₂ : Site ν} {words : PoolWords} {me : Nat}
    (h : Provisioned stencil s topology site words site₁)
    (hall : Site.CarvesAll me ⟨0, 0⟩ site₁.table.entries site₁ site₂) :
    site₂.table.Berthed site₂.heap := by
  have hberths := fun shared => berths_of_outline hall.outline shared
  obtain ⟨howned, hshared⟩ := hall.pools
  have hpool? : ∀ shared, site₂.table.pool? shared = site₁.table.pool? shared := fun shared => by
    rw [HaloTable.pool?, howned, hshared, HaloTable.pool?]
  have hpools := h.pools.of_sameWords (.refl _) hall.sameWords howned hshared
  have hnew : ∀ shared pool, site₂.table.pool? shared = some pool →
      Site.NewPool site.heap (words.inPool shared) pool site₂.heap := by
    intro shared pool hpool
    cases shared with
    | true => exact hpools.shared pool hpool
    | false => exact hpools.owned pool hpool
  refine ⟨fun shared pool hpool => ?_, fun shared pool hpool => ?_, fun shared place hplace => ?_,
    hpools.distinct⟩
  · have hrows := hall.rows (HaloTable.nodup_entries _)
      (fun e he => h.reserved (HaloTable.mem_entries.mp he)) ((hpool? shared).symm.trans hpool)
    have hzero : (⟨0, 0⟩ : PoolWords).inPool shared = 0 := by cases shared <;> rfl
    rw [h.pastAll, hzero] at hrows
    -- The windows begin at zero and end where the words end, which is the length of the pool.
    rw [hberths, (hnew shared pool hpool).length_eq (hrows.lines rfl)]
    exact hrows
  · exact ⟨(hnew shared pool hpool).lt, (hnew shared pool hpool).capacity⟩
  · -- An entry is not there for nothing, so there are words for it.
    rw [hberths] at hplace
    obtain ⟨n, hn, rfl, -⟩ := mem_berths.mp hplace
    have hpos := (h.reserved (HaloTable.mem_entries.mp hn)).pos
    obtain ⟨howned, hshared⟩ := h.le_words (HaloTable.mem_entries.mp hn)
    simp only [NeighborBuffers.ownedWords, NeighborBuffers.sharedWords] at hpos howned hshared
    cases hkind : n.shared with
    | true =>
      simp only [hkind, if_true] at hpos hshared
      exact hpools.exists_shared (by omega)
    | false =>
      simp only [hkind, Bool.false_eq_true, if_false] at hpos howned
      exact hpools.exists_owned (by omega)

namespace HaloTable.Berthed

variable {t t' : HaloTable} {h h' : Heap} {slot : Slot} {n : NeighborBuffers}

/-- What others do to the heap does not matter while the pools keep their length. -/
theorem of_length (hb : t.Berthed h) (hlength : ∀ shared pool, t.pool? shared = some pool →
    pool < h'.pools.size ∧ h'.length pool = h.length pool) : t.Berthed h' := by
  refine ⟨fun shared pool hpool => ?_, fun shared pool hpool => ?_, hb.stored, hb.distinct⟩
  · rw [(hlength shared pool hpool).2]
    exact hb.rows shared pool hpool
  · obtain ⟨hlt, heq⟩ := hlength shared pool hpool
    exact ⟨hlt, heq ▸ (hb.room shared pool hpool).2⟩

theorem mono (hb : t.Berthed h) (hg : Grows h h') : t.Berthed h' := by
  refine hb.of_length fun shared pool hpool => ?_
  obtain ⟨hlt, -⟩ := hb.room shared pool hpool
  exact ⟨Nat.lt_of_lt_of_le hlt hg.size, by rw [length_eq, hg.old pool hlt, ← length_eq]⟩

/-- What is received in pools of others does not matter. -/
theorem attach (hb : t.Berthed h) (houtline : t'.outline = t.outline)
    (howned : t'.owned = t.owned) (hshared : t'.shared = t.shared)
    (hsame : ∀ slot n, t'.at? slot = some n → ∃ m, t.at? slot = some m ∧ n.send = m.send ∧
      (n.shared = false → n.recv = m.recv)) : t'.Berthed h := by
  have hpool? : ∀ shared, t'.pool? shared = t.pool? shared := fun shared => by
    rw [pool?, howned, hshared, pool?]
  refine ⟨fun shared pool hpool => ?_, fun shared pool hpool => ?_, fun shared place hplace => ?_,
    fun p hp => ?_⟩
  · rw [berths_of_outline houtline]
    refine (hb.rows shared pool ((hpool? shared).symm.trans hpool)).congr fun place hplace => ?_
    rw [← berths_of_outline houtline] at hplace
    obtain ⟨n, hn, -, hhoused⟩ := mem_berths.mp hplace
    have hat := mem_entries.mp hn
    obtain ⟨m, hm, hsend, hrecv⟩ := hsame _ n hat
    rw [buffer?, buffer?, hat, hm, Option.map_some, Option.map_some]
    cases hd : place.2 with
    | send => exact congrArg some hsend
    | recv =>
      refine congrArg some (hrecv ?_)
      rw [hd] at hhoused
      -- a shared receive buffer is not carved from a pool of this rank
      by_contra hyes
      rw [NeighborBuffers.housed, if_pos (by simpa using hyes)] at hhoused
      simp at hhoused
  · exact hb.room shared pool ((hpool? shared).symm.trans hpool)
  · rw [hpool?]
    exact hb.stored shared place (berths_of_outline houtline shared ▸ hplace)
  · rw [hshared]
    exact hb.distinct p (howned ▸ hp)

theorem mem_berths_of_at? (hn : t.at? slot = some n) {d : Direction} (hd : d ∈ n.housed) :
    (slot, d) ∈ berths n.shared t.entries :=
  mem_berths.mpr ⟨n, mem_entries.mpr hn, rfl, hd⟩

/-- Each of the windows begins with a cache line and lies in its pool with all the words that are
reserved for it. -/
theorem window (hb : t.Berthed h) (hn : t.at? slot = some n) {d : Direction} (hd : d ∈ n.housed) :
    ∃ pool k, t.pool? n.shared = some pool ∧
      (n.buffer d).window = some ⟨pool, k, .owned, n.shared⟩ ∧ (n.buffer d).Roomy n.shared ∧
      k % lineWords = 0 ∧ k + (n.buffer d).room n.shared ≤ h.length pool := by
  have hmem := mem_berths_of_at? hn hd
  obtain ⟨pool, hpool⟩ := Option.isSome_iff_exists.mp (hb.stored _ _ hmem)
  obtain ⟨b, k, hbuffer, hw, hroomy, -, hend, hline⟩ := (hb.rows _ _ hpool).window hmem
  rw [buffer?, hn, Option.map_some, Option.some.injEq] at hbuffer
  subst hbuffer
  exact ⟨pool, k, hpool, hw, hroomy, hline rfl, hend⟩

/-- Windows of different buffers in one pool lie apart, with all that is reserved for them. -/
theorem apart (hb : t.Berthed h) {slot' : Slot} {m : NeighborBuffers} {d d' : Direction}
    {w w' : Window} (hn : t.at? slot = some n) (hm : t.at? slot' = some m) (hd : d ∈ n.housed)
    (hd' : d' ∈ m.housed) (hne : (slot, d) ≠ (slot', d')) (hw : (n.buffer d).window = some w)
    (hw' : (m.buffer d').window = some w') (hpool : w.pool = w'.pool) :
    w.offset + (n.buffer d).room n.shared ≤ w'.offset ∨
      w'.offset + (m.buffer d').room m.shared ≤ w.offset := by
  have hmem := mem_berths_of_at? hn hd
  have hmem' := mem_berths_of_at? hm hd'
  have hbuffer : t.buffer? slot d = some (n.buffer d) := by rw [buffer?, hn, Option.map_some]
  have hbuffer' : t.buffer? slot' d' = some (m.buffer d') := by rw [buffer?, hm, Option.map_some]
  obtain ⟨pool, k, hown, hv, -⟩ := hb.window hn hd
  obtain ⟨pool', k', hown', hv', -⟩ := hb.window hm hd'
  obtain rfl := Option.some.inj (hv.symm.trans hw)
  obtain rfl := Option.some.inj (hv'.symm.trans hw')
  dsimp only at hpool
  subst hpool
  -- The two pools are different ones, so both windows are of the same kind.
  have hkind : m.shared = n.shared := by
    by_contra hne
    simp only [pool?] at hown hown'
    cases hn' : n.shared <;> cases hm' : m.shared <;> simp_all
    · exact hb.distinct _ hown hown'
    · exact hb.distinct _ hown' hown
  rw [hkind] at hmem' hw' ⊢
  have hpair := (hb.rows _ _ hown).apart
  obtain ⟨i, hi, heq⟩ := List.getElem_of_mem hmem
  obtain ⟨j, hj, heq'⟩ := List.getElem_of_mem hmem'
  rw [List.pairwise_iff_getElem] at hpair
  rcases Nat.lt_trichotomy i j with hlt | rfl | hlt
  · have hbehind := hpair i j hi hj hlt
    rw [heq, heq'] at hbehind
    exact .inl (hbehind _ _ _ _ hbuffer hbuffer' hw hw')
  · exact absurd (heq.symm.trans heq') hne
  · have hbehind := hpair j i hj hi hlt
    rw [heq, heq'] at hbehind
    exact .inr (hbehind _ _ _ _ hbuffer' hbuffer hw' hw)

end HaloTable.Berthed

end StencilPlan
