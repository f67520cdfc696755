import StencilPlan.Proofs.Halo.Amounts
import StencilPlan.Proofs.Halo.Pairing

/-!
# Tables made for each other

Ranks that set themselves up from the same settings come to tables that are linked: the entry of a
rank toward a neighbor and the entry of that neighbor at the opposite offset stand at corresponding
places. All that the ranks have agreed on are the settings and the stencil.
-/

namespace StencilPlan

/-! ### Entries by place -/

section Places

variable {stencil : Stencil} {sizes : Settings} {topology : Topology} {sharesNode : Nat → Bool}
  {words : PoolWords} {vs : List VarBuffers} {t : HaloTable} {slot : Slot} {n : NeighborBuffers}

/-- The variable and the neighbor that an entry was made for. -/
structure MadeFor (stencil : Stencil) (sizes : Settings) (topology : Topology)
    (sharesNode : Nat → Bool) (slot : Slot) (n : NeighborBuffers) (var : String)
    (neighbor : Neighbor) : Prop where
  declared : stencil.vars[slot.var]? = some var
  existing : neighbor ∈ topology.existing
  index : neighbor.index = slot.neighbor
  makes : Makes stencil.catalog sizes (stencil.haloWidths var none true)
    (stencil.haloWidths var none false) sharesNode neighbor (some n.bare)

theorem LaidOut.varName (h : LaidOut stencil sizes topology sharesNode words stencil.vars vs)
    (ht : t.outline = ⟨vs, topology.size, none, none⟩) {var : String}
    (hvar : stencil.vars[slot.var]? = some var) : t.varName slot = var := by
  rw [← HaloTable.varName_outline, ht, HaloTable.varName, ← List.getElem?_map, h.names, hvar,
    Option.getD_some]

/-- Every entry was made for some variable and some neighbor. -/
theorem LaidOut.madeFor (h : LaidOut stencil sizes topology sharesNode words stencil.vars vs)
    (ht : t.outline = ⟨vs, topology.size, none, none⟩) (hn : t.at? slot = some n) :
    ∃ var neighbor, MadeFor stencil sizes topology sharesNode slot n var neighbor := by
  have hbare : t.outline.at? slot = some n.bare := by
    rw [HaloTable.at?_outline, hn, Option.map_some]
  rw [ht, HaloTable.at?, Option.bind_eq_some_iff] at hbare
  obtain ⟨v, hv, hentry⟩ := hbare
  obtain ⟨neighbor, hex, hindex, hmakes⟩ :=
    (h.row v (List.mem_of_getElem? hv)).makes (Option.join_eq_some_iff.mp hentry)
  refine ⟨v.var, neighbor, ?_, hex, hindex, hmakes⟩
  rw [← h.names, List.getElem?_map, hv, Option.map_some]

/-- The entry of a variable toward a neighbor, by place. -/
theorem LaidOut.makes_at (h : LaidOut stencil sizes topology sharesNode words stencil.vars vs)
    (ht : t.outline = ⟨vs, topology.size, none, none⟩) {i : Nat} {var : String}
    (hvar : stencil.vars[i]? = some var) {neighbor : Neighbor}
    (hex : neighbor ∈ topology.existing) : Makes stencil.catalog sizes
      (stencil.haloWidths var none true) (stencil.haloWidths var none false) sharesNode neighbor
      ((t.at? ⟨i, neighbor.index⟩).map NeighborBuffers.bare) := by
  rw [← h.names, List.getElem?_map, Option.map_eq_some_iff] at hvar
  obtain ⟨v, hv, rfl⟩ := hvar
  have hmakes := (h.entry (List.mem_of_getElem? hv) hex).1
  rw [← HaloTable.at?_outline, ht, HaloTable.at?, hv, Option.bind_some]
  exact hmakes

/-- A rank has at most one entry for a variable and a neighbor. -/
theorem LaidOut.separate {grid : DimVec} (hsound : topology.Sound grid)
    (hvars : stencil.vars.Nodup)
    (h : LaidOut stencil sizes topology sharesNode words stencil.vars vs)
    (ht : t.outline = ⟨vs, topology.size, none, none⟩) : t.Separate := by
  intro a b n m ha hb hrank hname
  obtain ⟨var, neighbor, hmade⟩ := h.madeFor ht ha
  obtain ⟨var', neighbor', hmade'⟩ := h.madeFor ht hb
  rw [h.varName ht hmade.declared, h.varName ht hmade'.declared] at hname
  subst hname
  obtain ⟨hlt, hget⟩ := List.getElem?_eq_some_iff.mp hmade.declared
  obtain ⟨hlt', hget'⟩ := List.getElem?_eq_some_iff.mp hmade'.declared
  -- Variables have distinct names, and no two neighbors have the same rank.
  have hvar : a.var = b.var := (hvars.getElem_inj_iff).mp (hget.trans hget'.symm)
  have hneighbor : neighbor.index = neighbor'.index :=
    hsound.index_inj (hsound.mem_existing.mp hmade.existing).1
      (hsound.mem_existing.mp hmade'.existing).1 hmade.makes.of_some.2.2.1
      (hmade'.makes.of_some.2.2.1.trans (congrArg some hrank.symm))
  rw [hmade.index, hmade'.index] at hneighbor
  cases a
  cases b
  simp_all

end Places

/-! ### One rank -/

section Rank

variable {stencil : Stencil} {s : Settings} {u : Universe} {me : Nat} {p : Placement}
  {t : HaloTable} {slot : Slot} {n : NeighborBuffers}

/-- A neighbor is one of the ranks. -/
theorem Placed.rank_lt {c : Catalog} {me ranks : Nat} {s₁ : Settings}
    (h : Placed c me ranks s p s₁) (hs : s.Shaped c) (hranks : 0 < ranks) {i : Nat}
    {neighbor : Neighbor} (hn : p.topology.neighbor? i = some neighbor) {r : Nat}
    (hr : neighbor.rank = some r) : r < ranks := by
  exact Nat.lt_of_lt_of_le (h.topology.rank_lt hn hr) (h.prod_grid_le hs hranks)

/-- What an entry says about the place of its rank in the grid. -/
structure Toward (u : Universe) (me : Nat) (topology : Topology) (t : HaloTable) (slot : Slot)
    (n : NeighborBuffers) (neighbor : Neighbor) : Prop where
  sound : topology.Sound topology.grid
  rank : topology.rank = me
  neighborhood : t.neighborhood = topology.size
  existing : neighbor ∈ topology.existing
  index : neighbor.index = slot.neighbor
  leads : neighbor.rank = some n.rank
  lt : n.rank < u.size

/-- A rank has no buffers toward itself. -/
theorem Toward.rank_ne {topology : Topology} {neighbor : Neighbor}
    (h : Toward u me topology t slot n neighbor) : n.rank ≠ me := by
  have hne := h.sound.rank_ne h.existing
  rw [h.leads, h.rank] at hne
  exact fun heq => hne (congrArg some heq)

/-- The entry at the mirrored place leads back to the rank, and to the place itself. -/
theorem Toward.mirrored {p q : Party} {grid : DimVec} {m : NeighborBuffers}
    {neighbor neighbor' : Neighbor} (h : Toward u me p.topology p.table slot n neighbor)
    (h' : Toward u n.rank q.topology q.table (p.mirror slot) m neighbor')
    (ht : p.topology.Sound grid) (ht' : q.topology.Sound grid) :
    m.rank = me ∧ q.mirror (p.mirror slot) = slot := by
  have hr : neighbor.rank = some q.topology.rank := by rw [h.leads, h'.rank]
  obtain ⟨x, hx, hopposite, hback, -⟩ := ht.existing_mirror ht' h.existing hr
  rw [h.index] at hopposite
  have hmirror : p.mirror slot = ⟨slot.var, x.index⟩ := by
    rw [Party.mirror, hopposite, Option.getD_some]
  -- The entry at the mirrored place was made for the neighbor that leads back.
  have hindex := h'.index
  rw [hmirror] at hindex ⊢
  dsimp only at hindex
  obtain rfl : neighbor' = x := by
    have hget := (ht'.mem_existing.mp h'.existing).1
    rw [hindex, (ht'.mem_existing.mp hx).1] at hget
    exact (Option.some.inj hget).symm
  have hleads := h'.leads
  rw [hback, h.rank] at hleads
  refine ⟨(Option.some.inj hleads).symm, ?_⟩
  rw [Party.mirror, ht.opposite_back ht' h.existing hr hx hback, Option.getD_some, h.index]

theorem SetUp.toward (h : SetUp stencil s u me p t) (hs : s.Shaped stencil.catalog)
    (hn : t.at? slot = some n) : ∃ neighbor, Toward u me p.topology t slot n neighbor := by
  obtain ⟨placed, sizes, words, vs, hme, hplaced, -, -, hlaid, ht, -⟩ := h.laidOut hs
  obtain ⟨var, neighbor, hmade⟩ := hlaid.madeFor ht hn
  obtain ⟨-, -, hrank, -⟩ := hmade.makes.of_some
  exact ⟨neighbor, hplaced.topology_grid ▸ hplaced.topology, hplaced.rank,
    congrArg HaloTable.neighborhood ht, hmade.existing, hmade.index, hrank,
    hplaced.rank_lt hs (Nat.zero_lt_of_lt hme)
      (hplaced.topology.mem_existing.mp hmade.existing).1 hrank⟩

/-- The bytes of a buffer that is received as a message. -/
theorem SetUp.recv_bytes (h : SetUp stencil s u me p t) (hs : s.Shaped stencil.catalog)
    (hsized : t.Sized) (hn : t.at? slot = some n) (hshared : n.shared = false) :
    n.recv.bytes = .ok (n.recv.count * wordSize) := by
  obtain ⟨placed, sizes, words, vs, -, -, -, -, hlaid, ht, hbound, -⟩ := h.laidOut hs
  have htally : tallyAll (·.ownedValues) t.vars ≤ words.owned := by
    have hvars : t.vars.map VarBuffers.bare = vs := congrArg HaloTable.vars ht
    rw [← tallyAll_bare (fun _ => rfl), hvars]
    exact hlaid.ownedValues_le
  rw [tallyAll_eq_sum] at htally
  have hle : n.recv.count ≤ words.owned := by
    have hone : n.ownedValues ≤ (t.entries.map fun e => e.2.ownedValues).sum :=
      List.le_sum_of_mem (List.mem_map.mpr ⟨(slot, n), HaloTable.mem_entries.mpr hn, rfl⟩)
    rw [NeighborBuffers.ownedValues, hshared, if_neg Bool.false_ne_true] at hone
    omega
  exact (HaloBuffer.bytes_eq_ok (hsized slot n hn).2).mpr
    ⟨rfl, Nat.lt_of_le_of_lt (Nat.mul_le_mul_right _ hle) hbound⟩

end Rank

/-! ### Two ranks -/

section Pairs

variable {stencil : Stencil} {s : Settings} {u : Universe} {a b : Nat} {p q : Placement}
  {t t' : HaloTable} {slot : Slot} {n : NeighborBuffers}

/-- Of two ranks that are neighbors each has the counterpart of an entry of the other. -/
theorem SetUp.partner (hc : stencil.catalog.WellFormed) (hs : s.Shaped stencil.catalog)
    (ha : SetUp stencil s u a p t) (hb : SetUp stencil s u b q t') (hn : t.at? slot = some n)
    (hr : n.rank = b) : ∃ i m, p.topology.oppositeIndex? slot.neighbor = some i ∧
      q.topology.oppositeIndex? i = some slot.neighbor ∧ t'.at? ⟨slot.var, i⟩ = some m ∧
      m.rank = a ∧ m.shared = n.shared ∧ m.recv.count = n.send.count ∧
      n.send.size = .ok n.send.count ∧ n.recv.size = .ok n.recv.count ∧
      t'.varName ⟨slot.var, i⟩ = t.varName slot := by
  obtain ⟨placed, sizes, words, vs, hlt, hplaced, hlocal, hshared, hlaid, ht, -⟩ := ha.laidOut hs
  obtain ⟨placed', sizes', words', vs', hlt', hplaced', hlocal', hshared', hlaid', ht', -⟩ :=
    hb.laidOut hs
  obtain ⟨var, neighbor, hmade⟩ := hlaid.madeFor ht hn
  obtain ⟨hsend, hrecv, hrank, hkind, hsize⟩ := hmade.makes.of_some
  have hrb : neighbor.rank = some b := hrank.trans (congrArg some hr)
  obtain ⟨m, hm, hopposite, hmrank, hmeet, hopp⟩ :=
    hplaced.exists_facing hplaced' hc hs hmade.existing hrb
  rw [← hlocal, ← hlocal'] at hmeet
  have hmakes' := hlaid'.makes_at ht' hmade.declared hm
  -- The two boxes mirror each other, so either both ranks have an entry or neither.
  have hsome := Makes.isSome_mirror hmeet hopp hmade.makes hmakes'
  obtain ⟨y, hy⟩ : ∃ y, t'.at? ⟨slot.var, m.index⟩ = some y := by
    rw [← Option.isSome_iff_exists, ← Option.isSome_map (f := NeighborBuffers.bare)]
    exact hsome.mp rfl
  rw [hy, Option.map_some] at hmakes'
  obtain ⟨hsend', hrecv', hrank', hkind', hsize'⟩ := hmakes'.of_some
  have hcross := (size_mirror hmeet hopp hsend hrecv').2
  have hcross' := (size_mirror (hmeet.symm hopp) hopp.symm hsend' hrecv).2
  have hya : y.rank = a := Option.some.inj (hrank'.symm.trans hmrank)
  refine ⟨m.index, y, hmade.index ▸ hopposite, ?_, hy, hya, ?_, ?_, hsize, ?_, ?_⟩
  · have hq : q.topology.Sound placed.numRanks :=
      hplaced.numRanks_eq hplaced' rfl ▸ hplaced'.topology
    exact hmade.index ▸ hplaced.topology.opposite_back hq hmade.existing
      (hrb.trans (congrArg some hplaced'.rank.symm)) hm
      (hmrank.trans (congrArg some hplaced.rank.symm))
  · have hnode : u.sameNodeAs b a = u.sameNodeAs a b := u.sameNodeAs_comm hlt' hlt
    change y.shared = (sizes'.useShared && u.sameNodeAs b y.rank) at hkind'
    change n.shared = (sizes.useShared && u.sameNodeAs a n.rank) at hkind
    rw [hkind', hkind, hshared, hshared', hya, hr, hnode]
  · rw [HaloBuffer.count, HaloBuffer.count]
    change y.recv.size = n.send.size at hcross
    rw [hcross]
  · have hrecvSize : n.recv.size = .ok y.send.count := hcross'.trans hsize'
    rw [HaloBuffer.count_eq hrecvSize, hrecvSize]
  · rw [show t'.varName ⟨slot.var, m.index⟩ = _ from hlaid'.varName ht' hmade.declared,
      hlaid.varName ht hmade.declared]

end Pairs

/-! ### All ranks -/

section Ranks

variable {stencil : Stencil} {s : Settings} {u : Universe} {parties : Nat → Party}

/-- Some parties are what the ranks come to when they are set up from the same settings. -/
def SetUpAll (stencil : Stencil) (s : Settings) (u : Universe) (parties : Nat → Party) : Prop :=
  ∀ k < u.size, ∃ p, SetUp stencil s u k p (parties k).table ∧ (parties k).topology = p.topology

/-- Ranks that were set up from the same settings are linked. -/
theorem linked_of_setUp (hc : stencil.catalog.WellFormed) (hs : s.Shaped stencil.catalog)
    (h : SetUpAll stencil s u parties) : Linked u.size parties := by
  have hrange : ∀ k < u.size, ∀ slot n, (parties k).table.at? slot = some n → n.rank < u.size := by
    intro k hk slot n hn
    obtain ⟨p, hset, -⟩ := h k hk
    obtain ⟨neighbor, hto⟩ := hset.toward hs hn
    exact hto.lt
  -- The mirror of a place, `Party.mirror`, has a default that must not come in here.
  have hpartner : ∀ k < u.size, ∀ slot n, (parties k).table.at? slot = some n →
      n.send.size = .ok n.send.count ∧ n.recv.size = .ok n.recv.count ∧
        ∃ m, Partners parties k slot n m := by
    intro k hk slot n hn
    obtain ⟨p, hset, htopology⟩ := h k hk
    obtain ⟨q, hset', htopology'⟩ := h n.rank (hrange k hk slot n hn)
    obtain ⟨i, m, hto, hback, hm, hrank, hshared, hcount, hsend, hrecv, -⟩ :=
      hset.partner hc hs hset' hn rfl
    have hmirror : (parties k).mirror slot = ⟨slot.var, i⟩ := by
      rw [Party.mirror, htopology, hto, Option.getD_some]
    refine ⟨hsend, hrecv, m, ⟨by rw [hmirror]; exact hm, hrank, ?_, hshared, hcount⟩⟩
    rw [hmirror, Party.mirror, htopology', hback, Option.getD_some]
  have hneighborhood : ∀ k < u.size, ∃ placed : Settings, ∃ p : Placement,
      Placed stencil.catalog k u.size s p placed ∧ (parties k).topology = p.topology ∧
        (parties k).table.neighborhood = p.topology.size := by
    intro k hk
    obtain ⟨p, hset, htopology⟩ := h k hk
    obtain ⟨placed, _, _, _, -, hplaced, -, -, -, ht, -⟩ := hset.laidOut hs
    exact ⟨placed, p, hplaced, htopology, congrArg HaloTable.neighborhood ht⟩
  refine ⟨fun k hk slot n hn => ?_, fun k hk => ?_, fun k hk j hj => ?_, fun k hk slot n hn => ?_,
    hrange, fun k hk slot n hn => (hpartner k hk slot n hn).2.2⟩
  · obtain ⟨hsend, hrecv, -⟩ := hpartner k hk slot n hn
    exact ⟨hsend, hrecv⟩
  · obtain ⟨_, p, hplaced, htopology, -⟩ := hneighborhood k hk
    rw [htopology, hplaced.rank]
  · obtain ⟨_, p, hplaced, -, hsize⟩ := hneighborhood k hk
    obtain ⟨_, q, hplaced', -, hsize'⟩ := hneighborhood j hj
    rw [hsize, hsize']
    exact hplaced.topology.size_eq (hplaced.numRanks_eq hplaced' rfl ▸ hplaced'.topology)
  · obtain ⟨p, hset, -⟩ := h k hk
    obtain ⟨neighbor, hto⟩ := hset.toward hs hn
    rw [hto.neighborhood]
    exact hto.index ▸ hto.sound.index_lt hto.existing

/-- Partners are for the same variable. -/
theorem SetUpAll.varName_mirror (hc : stencil.catalog.WellFormed) (hs : s.Shaped stencil.catalog)
    (h : SetUpAll stencil s u parties) {k : Nat} (hk : k < u.size) {slot : Slot}
    {n : NeighborBuffers} (hn : (parties k).table.at? slot = some n) :
    (parties n.rank).table.varName ((parties k).mirror slot) = (parties k).table.varName slot := by
  obtain ⟨p, hset, htopology⟩ := h k hk
  obtain ⟨q, hset', -⟩ := h n.rank ((linked_of_setUp hc hs h).inRange k hk slot n hn)
  obtain ⟨i, m, hto, -, -, -, -, -, -, -, hname⟩ := hset.partner hc hs hset' hn rfl
  rw [Party.mirror, htopology, hto, Option.getD_some, hname]

/-- Without shared memory no buffer is shared. -/
theorem SetUpAll.notShared (hs : s.Shaped stencil.catalog) (h : SetUpAll stencil s u parties)
    (hoff : s.useShared = false) {k : Nat} (hk : k < u.size) {slot : Slot} {n : NeighborBuffers}
    (hn : (parties k).table.at? slot = some n) : n.shared = false := by
  obtain ⟨p, hset, -⟩ := h k hk
  obtain ⟨placed, sizes, words, vs, -, -, -, hshared, hlaid, ht, -⟩ := hset.laidOut hs
  obtain ⟨var, neighbor, hmade⟩ := hlaid.madeFor ht hn
  have hkind : n.shared = (sizes.useShared && u.sameNodeAs k n.rank) :=
    hmade.makes.of_some.2.2.2.1
  rw [hkind, hshared, hoff, Bool.false_and]

/-- A message that a rank sends has a tag in range if those of all messages that are received have:
the neighbor receives it in a buffer of the same size. -/
theorem Linked.sendTag (hl : Linked u.size parties)
    (htags : ∀ k < u.size, ∀ slot n, (parties k).table.at? slot = some n → n.shared = false →
      n.recv.count ≠ 0 → (parties k).tag slot < tagLimit) {k : Nat} (hk : k < u.size) {slot : Slot}
    {n : NeighborBuffers} (hn : (parties k).table.at? slot = some n) (hshared : n.shared = false)
    (hcount : n.send.count ≠ 0) : (parties k).tag ((parties k).mirror slot) < tagLimit := by
  obtain ⟨m, hpartner⟩ := hl.partner k hk slot n hn
  have hj := hl.inRange k hk slot n hn
  have htag := htags n.rank hj _ m hpartner.entry (hpartner.shared.trans hshared)
    (hpartner.count ▸ hcount)
  rwa [Party.tag, ← hl.neighborhood k hk n.rank hj] at htag

/-- Without shared memory the tags are all that could be out of range: what an exchange comes to is
bounded by the size of the pool. -/
theorem SetUpAll.inRange (h : SetUpAll stencil s u parties) (hc : stencil.catalog.WellFormed)
    (hs : s.Shaped stencil.catalog) (hoff : s.useShared = false)
    (htags : ∀ k < u.size, ∀ slot n, (parties k).table.at? slot = some n → n.recv.count ≠ 0 →
      (parties k).tag slot < tagLimit) {k : Nat} (hk : k < u.size) : (parties k).InRange := by
  have hl := linked_of_setUp hc hs h
  refine ⟨fun slot n hn _ hcount => htags k hk slot n hn hcount,
    fun slot n hn hno hcount => hl.sendTag (fun k hk slot n hn _ hcount =>
      htags k hk slot n hn hcount) hk hn hno hcount, fun f hf => ?_⟩
  · obtain ⟨p, hset, -⟩ := h k hk
    obtain ⟨placed, sizes, words, vs, -, -, -, -, hlaid, ht, hbound, -⟩ := hset.laidOut hs
    -- The pool has a length in bytes, and every value of the table has a place in it.
    have htally : tallyAll (·.ownedValues) (parties k).table.vars ≤ words.owned := by
      have hvars : (parties k).table.vars.map VarBuffers.bare = vs := congrArg HaloTable.vars ht
      rw [← tallyAll_bare (fun _ => rfl), hvars]
      exact hlaid.ownedValues_le
    have hvalues : ((parties k).table.entries.map fun e => e.2.values).sum ≤ words.owned := by
      rw [tallyAll_eq_sum] at htally
      refine Nat.le_trans (Nat.le_of_eq (congrArg List.sum (List.map_congr_left ?_))) htally
      -- Nothing is shared, so all values of an entry are owned ones.
      intro e he
      have hno := h.notShared hs hoff hk (HaloTable.mem_entries.mp he)
      rw [NeighborBuffers.values, NeighborBuffers.ownedValues, hno, if_neg Bool.false_ne_true]
    refine Nat.lt_of_le_of_lt (Party.traffic_le hf) ?_
    exact Nat.lt_of_le_of_lt (Nat.mul_le_mul_right _ hvalues) hbound

/-- It is more than enough if the tags of empty buffers are in range too. -/
theorem inRange_of_setUp (hc : stencil.catalog.WellFormed) (hs : s.Shaped stencil.catalog)
    (h : SetUpAll stencil s u parties) (hoff : s.useShared = false)
    (htags : ∀ k < u.size, ∀ slot n, (parties k).table.at? slot = some n →
      (parties k).tag slot < tagLimit) {k : Nat} (hk : k < u.size) : (parties k).InRange :=
  h.inRange hc hs hoff (fun k hk slot n hn _ => htags k hk slot n hn) hk

end Ranks

/-! ### Ranks with settings of their own -/

section Own

variable {u : Universe} {parties : Nat → Party} {grid : DimVec}

/-- Ranks that stand in one grid find each other's messages, whatever their stencils and settings
are. A rank without buffers takes no part. -/
theorem meshed_of_toward (hsized : ∀ k < u.size, (parties k).table.Sized)
    (hgrid : ∀ k < u.size, ∀ slot n, (parties k).table.at? slot = some n →
      (parties k).topology.grid = grid ∧
        ∃ neighbor, Toward u k (parties k).topology (parties k).table slot n neighbor) :
    Meshed u.size parties := by
  have hsound : ∀ k < u.size, ∀ slot n, (parties k).table.at? slot = some n →
      (parties k).topology.Sound grid := by
    intro k hk slot n hn
    obtain ⟨rfl, neighbor, hto⟩ := hgrid k hk slot n hn
    exact hto.sound
  constructor
  case sized => exact hsized
  case rank =>
    intro k hk slot n hn
    obtain ⟨-, neighbor, hto⟩ := hgrid k hk slot n hn
    exact hto.rank
  case inRange =>
    intro k hk slot n hn
    obtain ⟨-, neighbor, hto⟩ := hgrid k hk slot n hn
    exact hto.lt
  case neighborhood =>
    intro k hk j hj slot slot' n m hn hm
    obtain ⟨-, neighbor, hto⟩ := hgrid k hk slot n hn
    obtain ⟨-, neighbor', hto'⟩ := hgrid j hj slot' m hm
    rw [hto.neighborhood, hto'.neighborhood]
    exact (hsound k hk slot n hn).size_eq (hsound j hj slot' m hm)
  case inside =>
    intro k hk slot n hn
    obtain ⟨-, neighbor, hto⟩ := hgrid k hk slot n hn
    have hlt := (hsound k hk slot n hn).index_lt hto.existing
    rw [hto.index] at hlt
    rw [hto.neighborhood, Party.mirror, Topology.oppositeIndex?, if_pos hlt, Option.getD_some]
    exact ⟨hlt, show (parties k).topology.size - 1 - slot.neighbor < _ by omega⟩
  case mirrored =>
    intro k hk slot n m hn hm
    obtain ⟨-, neighbor, hto⟩ := hgrid k hk slot n hn
    obtain ⟨-, neighbor', hto'⟩ := hgrid n.rank hto.lt _ m hm
    exact hto.mirrored hto' (hsound k hk slot n hn) (hsound n.rank hto.lt _ m hm)

end Own

end StencilPlan
