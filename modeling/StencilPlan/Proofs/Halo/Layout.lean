import StencilPlan.Proofs.Halo.Entries
import StencilPlan.Proofs.Halo.Geometry
import StencilPlan.Proofs.Rank.Topology

/-!
# Laying out the buffers

For each variable and each existing neighbor `Makes` says which entry the table of a rank has, if
any, and `IsRow` puts the entries of a variable together. The rows are settled before any pool is
allocated (`offer_laidOut`), and attaching to what the neighbors offered leaves them as they are.
-/

namespace StencilPlan

/-! ### One buffer and one entry -/

/-- The buffer of a direction toward an offset, without storage. -/
structure Covers (c : Catalog) (offset sizes left right : DimVec) (d : Direction)
    (b : HaloBuffer) : Prop where
  box : bufferBox c offset sizes left right d = .ok (b.first, b.extent)
  folded : HaloBuffer.alignedTo c.fold b.first b.extent.entries = .ok b.wholeFolds
  direction : b.direction = d
  window : b.window = none

theorem covers_of_makeBuffer {c : Catalog} {var : String} {n : Neighbor}
    {sizes left right : DimVec} {d : Direction} {b : HaloBuffer}
    (h : makeBuffer c var n sizes left right d = .ok b) :
    Covers c n.offset sizes left right d b := by
  simp only [makeBuffer, bind_eq_ok, HaloBuffer.foldedBy, pure_eq_ok] at h
  obtain ⟨⟨first, extent⟩, hbox, whole, hwhole, rfl⟩ := h
  exact ⟨hbox, hwhole, rfl, rfl⟩

/-- How many values a buffer holds, if that is a number at all. -/
def HaloBuffer.count (b : HaloBuffer) : Nat :=
  match b.size with
  | .ok k => k
  | .error _ => 0

theorem HaloBuffer.count_eq {b : HaloBuffer} {k : Nat} (h : b.size = .ok k) : b.count = k := by
  rw [count, h]

/-- How many words are reserved for a buffer, if that is a number at all. -/
def HaloBuffer.room (b : HaloBuffer) (shared : Bool) : Nat :=
  match b.reservedWords shared with
  | .ok r => r
  | .error _ => 0

theorem HaloBuffer.room_eq {b : HaloBuffer} {shared : Bool} {r : Nat}
    (h : b.reservedWords shared = .ok r) : b.room shared = r := by
  rw [room, h]

theorem HaloBuffer.reservedWords_of_room {b : HaloBuffer} {shared : Bool}
    (h : b.room shared ≠ 0) : b.reservedWords shared = .ok (b.room shared) := by
  rw [room] at h ⊢
  cases hr : b.reservedWords shared with
  | ok r => rfl
  | error e => rw [hr] at h; exact absurd rfl h

theorem HaloBuffer.reservedWords_of_bare {b b' : HaloBuffer} (h : b'.bare = b.bare)
    (shared : Bool) : b'.reservedWords shared = b.reservedWords shared := by
  have hwords : b'.bare.reservedWords shared = b.bare.reservedWords shared := by rw [h]
  exact hwords

theorem HaloBuffer.room_of_bare {b b' : HaloBuffer} (h : b'.bare = b.bare) (shared : Bool) :
    b'.room shared = b.room shared := by
  rw [room, room, reservedWords_of_bare h]

/-- Words are reserved for a buffer: whole cache lines, as many as its values and, if it is shared,
its control words take, and no more. -/
structure HaloBuffer.Roomy (b : HaloBuffer) (shared : Bool) : Prop where
  reserved : b.reservedWords shared = .ok (b.room shared)
  size : b.size = .ok b.count
  needed : b.neededWords shared = .ok (b.count + if shared then controlWords else 0)
  lines : b.room shared % lineWords = 0
  fits : b.count + (if shared then controlWords else 0) ≤ b.room shared
  tight : b.room shared < b.count + (if shared then controlWords else 0) + lineWords

theorem HaloBuffer.roomy_of_reservedWords {b : HaloBuffer} {shared : Bool} {r : Nat}
    (h : b.reservedWords shared = .ok r) : b.Roomy shared := by
  have hr := room_eq h
  subst hr
  have hwords := h
  simp only [reservedWords, neededWords, bind_eq_ok, roundUpWords, Word.mul, Word.add,
    Word.check_eq_ok_iff, lineWords] at hwords
  obtain ⟨_, ⟨k, hk, hlt, rfl⟩, -, hroom⟩ := hwords
  have hcount := count_eq hk
  refine ⟨h, by rw [hcount, hk], ?_, ?_, ?_, ?_⟩
  · rw [neededWords, bind_eq_ok]
    exact ⟨k, hk, Word.check_eq_ok_iff.mpr ⟨hlt, by rw [hcount]⟩⟩
  · rw [hroom, lineWords, Nat.mul_mod_left]
  · omega
  · rw [lineWords]
    omega

namespace NeighborBuffers

/-- Values with a place in the pool of the rank's own. -/
def ownedValues (n : NeighborBuffers) : Nat :=
  if n.shared then 0 else n.send.count + n.recv.count

/-- Values with a place in the shared pool of the rank. -/
def sharedValues (n : NeighborBuffers) : Nat := if n.shared then n.send.count else 0

/-- Words reserved in the pool of the rank's own. -/
def ownedWords (n : NeighborBuffers) : Nat :=
  if n.shared then 0 else n.send.room false + n.recv.room false

/-- Words reserved in the shared pool of the rank. -/
def sharedWords (n : NeighborBuffers) : Nat := if n.shared then n.send.room true else 0

/-- Words are reserved for the buffers that the rank stores itself. -/
structure Reserved (n : NeighborBuffers) : Prop where
  send : n.send.Roomy n.shared
  recv : n.shared = false → n.recv.Roomy false
  /-- An entry is not there for nothing. -/
  pos : 0 < n.ownedWords + n.sharedWords

theorem Reserved.ownedValues_le {n : NeighborBuffers} (h : n.Reserved) :
    n.ownedValues ≤ n.ownedWords := by
  unfold ownedValues ownedWords
  split
  · exact Nat.le_refl _
  · next hno =>
    rw [Bool.not_eq_true] at hno
    have hsend := (hno ▸ h.send).fits
    have hrecv := (h.recv hno).fits
    simp only [Bool.false_eq_true, if_false] at hsend hrecv
    omega

theorem Reserved.sharedValues_le {n : NeighborBuffers} (h : n.Reserved) :
    n.sharedValues ≤ n.sharedWords := by
  unfold sharedValues sharedWords
  split
  · next hyes => exact Nat.le_trans (Nat.le_add_right _ _) (hyes ▸ h.send).fits
  · exact Nat.le_refl _

end NeighborBuffers

/-- The entry toward an existing neighbor. There is none exactly if both buffers are empty. -/
inductive Makes (c : Catalog) (s : Settings) (left right : DimVec) (sharesNode : Nat → Bool)
    (n : Neighbor) : Option NeighborBuffers → Prop
  | nothing {send recv : HaloBuffer}
      (hsend : Covers c n.offset s.localDomain left right .send send)
      (hrecv : Covers c n.offset s.localDomain left right .recv recv)
      (hempty : send.size = .ok 0) (hempty' : recv.size = .ok 0) :
      Makes c s left right sharesNode n none
  | entry {send recv : HaloBuffer} {rank k : Nat}
      (hsend : Covers c n.offset s.localDomain left right .send send)
      (hrecv : Covers c n.offset s.localDomain left right .recv recv)
      (hrank : n.rank = some rank) (hsize : send.size = .ok k)
      (hsome : k = 0 → ∃ l, recv.size = .ok l ∧ l ≠ 0) :
      Makes c s left right sharesNode n
        (some ⟨rank, send, recv, s.useShared && sharesNode rank⟩)

/-- What is known of an entry that is there. -/
theorem Makes.of_some {c : Catalog} {s : Settings} {left right : DimVec} {sharesNode : Nat → Bool}
    {n : Neighbor} {m : NeighborBuffers} (h : Makes c s left right sharesNode n (some m)) :
    Covers c n.offset s.localDomain left right .send m.send ∧
      Covers c n.offset s.localDomain left right .recv m.recv ∧ n.rank = some m.rank ∧
      m.shared = (s.useShared && sharesNode m.rank) ∧ m.send.size = .ok m.send.count := by
  cases h with
  | entry hsend hrecv hrank hsize _ =>
    exact ⟨hsend, hrecv, hrank, rfl, by rw [HaloBuffer.count_eq hsize, hsize]⟩

/-- The words that the buffers of an entry take. In shared memory the rank stores the send buffer
only: what it receives lies in the pool of its neighbor. -/
inductive Reserves (send recv : HaloBuffer) (words : PoolWords) : Bool → PoolWords → Prop
  | shared {k : Nat} (hsend : send.reservedWords true = .ok k) :
      Reserves send recv words true { words with shared := words.shared + k }
  | owned {k l : Nat} (hsend : send.reservedWords false = .ok k)
      (hrecv : recv.reservedWords false = .ok l) :
      Reserves send recv words false { words with owned := words.owned + (k + l) }

theorem reserves_of_eq_ok {send recv : HaloBuffer} {words words' : PoolWords} {rank : Nat}
    {shared : Bool} {b : Option NeighborBuffers}
    (h : (if shared = true then do
        let r ← send.reservedWords true
        let shared' ← Word.add words.shared r
        let words ← pure { words with shared := shared' }
        pure (some ⟨rank, send, recv, shared⟩, words)
      else do
        let r ← send.reservedWords false
        let r' ← recv.reservedWords false
        let both ← Word.add r r'
        let owned ← Word.add words.owned both
        let words ← pure { words with owned := owned }
        pure (some ⟨rank, send, recv, shared⟩, words)) =
      (Except.ok (b, words') : Checked (Option NeighborBuffers × PoolWords))) :
    b = some ⟨rank, send, recv, shared⟩ ∧ Reserves send recv words shared words' := by
  cases shared with
  | true =>
    simp only [if_true, bind_eq_ok, pure_eq_ok, Word.add, Word.check_eq_ok_iff,
      Prod.mk.injEq] at h
    obtain ⟨r, hsend, _, ⟨-, rfl⟩, _, rfl, rfl, rfl⟩ := h
    exact ⟨rfl, .shared hsend⟩
  | false =>
    simp only [Bool.false_eq_true, if_false, bind_eq_ok, pure_eq_ok, Word.add,
      Word.check_eq_ok_iff, Prod.mk.injEq] at h
    obtain ⟨r, hsend, r', hrecv, _, ⟨-, rfl⟩, _, ⟨-, rfl⟩, _, rfl, rfl, rfl⟩ := h
    exact ⟨rfl, .owned hsend hrecv⟩

/-- An entry that has values reserves words, and these are the ones that are counted. -/
theorem Reserves.counted {send recv : HaloBuffer} {words words' : PoolWords} {shared : Bool}
    (h : Reserves send recv words shared words') (hvalues : send.count = 0 → recv.count ≠ 0)
    (rank : Nat) : NeighborBuffers.Reserved ⟨rank, send, recv, shared⟩ ∧
      words' = ⟨words.owned + NeighborBuffers.ownedWords ⟨rank, send, recv, shared⟩,
        words.shared + NeighborBuffers.sharedWords ⟨rank, send, recv, shared⟩⟩ := by
  cases h with
  | shared hsend =>
    have hroomy := HaloBuffer.roomy_of_reservedWords hsend
    obtain rfl := HaloBuffer.room_eq hsend
    refine ⟨⟨hroomy, Bool.noConfusion, ?_⟩, rfl⟩
    -- Even a buffer without values has words for its flag and its lock.
    have hfits := hroomy.fits
    simp only [if_true, HaloBuffer.controlWords] at hfits
    simp only [NeighborBuffers.ownedWords, NeighborBuffers.sharedWords, if_true]
    omega
  | owned hsend hrecv =>
    have hroomy := HaloBuffer.roomy_of_reservedWords hsend
    have hroomy' := HaloBuffer.roomy_of_reservedWords hrecv
    obtain rfl := HaloBuffer.room_eq hsend
    obtain rfl := HaloBuffer.room_eq hrecv
    refine ⟨⟨hroomy, fun _ => hroomy', ?_⟩, rfl⟩
    have hfits := hroomy.fits
    have hfits' := hroomy'.fits
    simp only [NeighborBuffers.ownedWords, NeighborBuffers.sharedWords, Bool.false_eq_true,
      if_false] at hfits hfits' ⊢
    omega

section Rows

variable {stencil : Stencil} {s : Settings} {var : String} {left right : DimVec}
  {sharesNode : Nat → Bool}

/-- The words are counted as far as there is an entry. -/
theorem makes_of_makeNeighbor {n : Neighbor} {words words' : PoolWords} {rank : Nat}
    {b : Option NeighborBuffers} (hrank : n.rank = some rank)
    (h : makeNeighbor stencil s var left right sharesNode n words = .ok (b, words')) :
    Makes stencil.catalog s left right sharesNode n b ∧ (∀ m, b = some m → m.Reserved) ∧
      words' = ⟨words.owned + (b.map (·.ownedWords)).getD 0,
        words.shared + (b.map (·.sharedWords)).getD 0⟩ := by
  simp only [makeNeighbor, hrank, bind_eq_ok] at h
  obtain ⟨send, hsend, recv, hrecv, k, hk, h⟩ := h
  have hs := covers_of_makeBuffer hsend
  have hr := covers_of_makeBuffer hrecv
  -- Once it is known that there is an entry, only the words are left to be counted.
  have hentry : (k = 0 → ∃ l, recv.size = .ok l ∧ l ≠ 0) →
      b = some ⟨rank, send, recv, s.useShared && sharesNode rank⟩ ∧
        Reserves send recv words (s.useShared && sharesNode rank) words' →
      Makes stencil.catalog s left right sharesNode n b ∧ (∀ m, b = some m → m.Reserved) ∧
        words' = ⟨words.owned + (b.map (·.ownedWords)).getD 0,
          words.shared + (b.map (·.sharedWords)).getD 0⟩ := by
    rintro hsome ⟨rfl, hreserves⟩
    have hvalues : send.count = 0 → recv.count ≠ 0 := by
      intro hzero
      obtain ⟨l, hl, hne⟩ := hsome (HaloBuffer.count_eq hk ▸ hzero)
      rwa [HaloBuffer.count_eq hl]
    obtain ⟨hreserved, hwords⟩ := hreserves.counted hvalues rank
    exact ⟨.entry hs hr hrank hk hsome, fun m hm => Option.some.inj hm ▸ hreserved, hwords⟩
  split at h
  · next hzero =>
    simp only [bind_eq_ok] at h
    obtain ⟨l, hl, h⟩ := h
    split at h
    · next hzero' =>
      simp only [pure_eq_ok, Prod.mk.injEq] at h
      obtain ⟨rfl, rfl⟩ := h
      exact ⟨.nothing hs hr (hzero ▸ hk) (hzero' ▸ hl), by simp, rfl⟩
    · next hne => exact hentry (fun _ => ⟨l, hl, hne⟩) (reserves_of_eq_ok h)
  · next hne => exact hentry (fun hzero => absurd hzero hne) (reserves_of_eq_ok h)

/-! ### The row of a variable -/

/-- The entries made for some neighbors, put into a row. -/
theorem makes_of_makeRow {ns : List Neighbor} {row row' : List (Option NeighborBuffers)}
    {words words' : PoolWords} (hnodup : (ns.map (·.index)).Nodup)
    (hns : ∀ n ∈ ns, n.rank.isSome ∧ row[n.index]? = some none)
    (h : makeRow stencil s var left right sharesNode row words ns = .ok (row', words')) :
    row'.length = row.length ∧
      (∀ n ∈ ns, ∃ b, row'[n.index]? = some b ∧
        Makes stencil.catalog s left right sharesNode n b ∧ ∀ m, b = some m → m.Reserved) ∧
      (∀ i, i ∉ ns.map (·.index) → row'[i]? = row[i]?) ∧
      words.owned + tally (·.ownedWords) row' = words'.owned + tally (·.ownedWords) row ∧
      words.shared + tally (·.sharedWords) row' = words'.shared + tally (·.sharedWords) row := by
  -- The entry of the first neighbor is set before the others; since no two neighbors have the same
  -- index it is still there at the end.
  induction ns generalizing row words with
  | nil =>
    simp only [makeRow, pure_eq_ok, Prod.mk.injEq] at h
    obtain ⟨rfl, rfl⟩ := h
    exact ⟨rfl, by simp, by simp, rfl, rfl⟩
  | cons n ns ih =>
    simp only [makeRow, bind_eq_ok] at h
    obtain ⟨⟨b, words₁⟩, hmake, h⟩ := h
    dsimp only at h
    obtain ⟨hnew, hnodup'⟩ := List.nodup_cons.mp hnodup
    obtain ⟨hrank, hnone⟩ := hns n (by simp)
    obtain ⟨rank, hrank⟩ := Option.isSome_iff_exists.mp hrank
    obtain ⟨hmakes, hreserved, rfl⟩ := makes_of_makeNeighbor hrank hmake
    have hlt : n.index < row.length := (List.getElem?_eq_some_iff.mp hnone).1
    obtain ⟨hlen, hget, hkeep, howned, hshared⟩ := ih hnodup' (by
      intro m hm
      have hne : n.index ≠ m.index := fun heq => hnew (List.mem_map.mpr ⟨m, hm, heq.symm⟩)
      rw [List.getElem?_set_ne hne]
      exact hns m (by simp [hm])) h
    refine ⟨by simpa using hlen, fun m hm => ?_, fun i hi => ?_, ?_, ?_⟩
    · rcases List.mem_cons.mp hm with rfl | hm
      · exact ⟨b, by rw [hkeep _ hnew, List.getElem?_set_self hlt], hmakes, hreserved⟩
      · exact hget m hm
    · simp only [List.map_cons, List.mem_cons, not_or] at hi
      rw [hkeep i hi.2, List.getElem?_set_ne (Ne.symm hi.1)]
    · rw [tally_set hnone] at howned
      dsimp only at howned
      omega
    · rw [tally_set hnone] at hshared
      dsimp only at hshared
      omega

end Rows

/-! ### The whole table -/

/-- The row of a variable: entries for the existing neighbors, and nothing else. -/
structure IsRow (stencil : Stencil) (s : Settings) (topology : Topology)
    (sharesNode : Nat → Bool) (v : VarBuffers) : Prop where
  length : v.toward.length = topology.size
  entry : ∀ n ∈ topology.existing, ∃ b, v.toward[n.index]? = some b ∧
    Makes stencil.catalog s (stencil.haloWidths v.var none true)
      (stencil.haloWidths v.var none false) sharesNode n b
  other : ∀ i, (∀ n ∈ topology.existing, n.index ≠ i) → (v.toward[i]?).join = none
  reserved : ∀ m, some m ∈ v.toward → m.Reserved

/-- A position of the row that is not blank is that of an existing neighbor. -/
theorem IsRow.makes {stencil : Stencil} {s : Settings} {topology : Topology}
    {sharesNode : Nat → Bool} {v : VarBuffers} (h : IsRow stencil s topology sharesNode v) {i : Nat}
    {m : NeighborBuffers} (hm : v.toward[i]? = some (some m)) :
    ∃ n ∈ topology.existing, n.index = i ∧ Makes stencil.catalog s
      (stencil.haloWidths v.var none true) (stencil.haloWidths v.var none false) sharesNode n
      (some m) := by
  by_cases hex : ∃ n ∈ topology.existing, n.index = i
  · obtain ⟨n, hn, rfl⟩ := hex
    obtain ⟨b, hb, hmakes⟩ := h.entry n hn
    obtain rfl : b = some m := Option.some.inj (hb.symm.trans hm)
    exact ⟨n, hn, rfl, hmakes⟩
  · have hnone := h.other i fun n hn heq => hex ⟨n, hn, heq⟩
    rw [hm] at hnone
    cases hnone

/-- The table of a rank has a row for each variable, and the words are those of the rows. -/
structure LaidOut (stencil : Stencil) (s : Settings) (topology : Topology)
    (sharesNode : Nat → Bool) (words : PoolWords) (vars : List String) (vs : List VarBuffers) :
    Prop where
  names : vs.map (·.var) = vars
  row : ∀ v ∈ vs, IsRow stencil s topology sharesNode v
  owned : tallyAll (·.ownedWords) vs = words.owned
  shared : tallyAll (·.sharedWords) vs = words.shared

theorem Makes.bare {c : Catalog} {s : Settings} {left right : DimVec} {sharesNode : Nat → Bool}
    {n : Neighbor} {m : NeighborBuffers} (h : Makes c s left right sharesNode n (some m)) :
    m.bare = m := by
  cases h with
  | entry hsend hrecv =>
    have hbare : ∀ {b : HaloBuffer}, b.window = none → b.bare = b := by
      intro b hb
      rw [HaloBuffer.bare, ← hb]
    simp only [NeighborBuffers.bare, hbare hsend.window, hbare hrecv.window]

/-- Rows that were only laid out have no storage to leave out. -/
theorem LaidOut.bare {stencil : Stencil} {s : Settings} {topology : Topology}
    {sharesNode : Nat → Bool} {words : PoolWords} {vars : List String} {vs : List VarBuffers}
    (h : LaidOut stencil s topology sharesNode words vars vs) : vs.map VarBuffers.bare = vs := by
  refine (List.map_congr_left fun v hv => ?_).trans (List.map_id vs)
  have hrow := h.row v hv
  have htoward : v.toward.map (·.map NeighborBuffers.bare) = v.toward := by
    refine (List.map_congr_left fun b hb => ?_).trans (List.map_id _)
    cases b with
    | none => rfl
    | some m =>
      obtain ⟨i, hi⟩ := List.mem_iff_getElem?.mp hb
      obtain ⟨n, -, -, hmakes⟩ := hrow.makes hi
      exact congrArg some hmakes.bare
  rw [VarBuffers.bare, htoward]
  rfl

/-- The entry for an existing neighbor in the row of a variable. -/
theorem LaidOut.entry {stencil : Stencil} {s : Settings} {topology : Topology}
    {sharesNode : Nat → Bool} {words : PoolWords} {vars : List String} {vs : List VarBuffers}
    (h : LaidOut stencil s topology sharesNode words vars vs) {v : VarBuffers} (hv : v ∈ vs)
    {n : Neighbor} (hn : n ∈ topology.existing) :
    Makes stencil.catalog s (stencil.haloWidths v.var none true)
        (stencil.haloWidths v.var none false) sharesNode n (v.toward[n.index]?).join ∧
      ∀ m, (v.toward[n.index]?).join = some m →
        m.ownedValues ≤ words.owned ∧ m.sharedValues ≤ words.shared := by
  obtain ⟨b, hb, hmakes⟩ := (h.row v hv).entry n hn
  rw [hb]
  refine ⟨hmakes, fun m hm => ?_⟩
  have hmem : some m ∈ v.toward := by
    rw [← show b = some m from hm]
    exact List.mem_of_getElem? hb
  have hreserved := (h.row v hv).reserved m hmem
  -- The values of one entry are at most the words of all entries, and these are what is counted.
  have howned := le_tallyAll (f := (·.ownedWords)) hv hmem
  have hshared := le_tallyAll (f := (·.sharedWords)) hv hmem
  rw [h.owned] at howned
  rw [h.shared] at hshared
  exact ⟨hreserved.ownedValues_le.trans howned, hreserved.sharedValues_le.trans hshared⟩

/-- The words have room for all the values of the rank's own pool. -/
theorem LaidOut.ownedValues_le {stencil : Stencil} {s : Settings} {topology : Topology}
    {sharesNode : Nat → Bool} {words : PoolWords} {vars : List String} {vs : List VarBuffers}
    (h : LaidOut stencil s topology sharesNode words vars vs) :
    tallyAll (·.ownedValues) vs ≤ words.owned := by
  rw [← h.owned]
  exact tallyAll_mono fun v hv m hm => ((h.row v hv).reserved m hm).ownedValues_le

/-- A row that is made for the existing neighbors of a rank begins without an entry. -/
theorem isRow_of_makeRow {stencil : Stencil} {s : Settings} {topology : Topology} {grid : DimVec}
    {sharesNode : Nat → Bool} {var : String} {row : List (Option NeighborBuffers)}
    {words words' : PoolWords} (ht : topology.Sound grid)
    (h : makeRow stencil s var (stencil.haloWidths var none true)
      (stencil.haloWidths var none false) sharesNode (List.replicate topology.size none) words
      topology.existing = .ok (row, words')) :
    IsRow stencil s topology sharesNode ⟨var, row⟩ ∧
      words'.owned = words.owned + tally (·.ownedWords) row ∧
      words'.shared = words.shared + tally (·.sharedWords) row := by
  obtain ⟨hlen, hget, hkeep, howned, hshared⟩ := makes_of_makeRow ht.nodup_index (fun n hn => by
    refine ⟨(ht.mem_existing.mp hn).2.2, ?_⟩
    rw [List.getElem?_replicate, if_pos (ht.index_lt hn)]) h
  have hnothing : ∀ f : NeighborBuffers → Nat,
      tally f (List.replicate topology.size none) = 0 := fun f => by simp [tally]
  rw [hnothing, Nat.add_zero] at howned hshared
  have hother : ∀ i, (∀ n ∈ topology.existing, n.index ≠ i) → (row[i]?).join = none := by
    intro i hi
    have hnotMem : i ∉ topology.existing.map (·.index) := fun hmem => by
      obtain ⟨n, hn, heq⟩ := List.mem_map.mp hmem
      exact hi n hn heq
    rw [hkeep i hnotMem, List.getElem?_replicate]
    split <;> rfl
  refine ⟨⟨by simpa using hlen, fun n hn => ?_, hother, fun m hm => ?_⟩, howned.symm,
    hshared.symm⟩
  · obtain ⟨b, hb, hmakes, -⟩ := hget n hn
    exact ⟨b, hb, hmakes⟩
  · -- A position that is not blank is that of an existing neighbor.
    obtain ⟨i, hi⟩ := List.mem_iff_getElem?.mp hm
    have hex : ∃ n ∈ topology.existing, n.index = i := by
      by_contra hnone
      have hblank := hother i fun n hn heq => hnone ⟨n, hn, heq⟩
      rw [hi] at hblank
      cases hblank
    obtain ⟨n, hn, rfl⟩ := hex
    obtain ⟨b, hb, -, hreserved⟩ := hget n hn
    exact hreserved m (Option.some.inj (hb.symm.trans hi))

namespace Site

variable {ν : Type} [Transport ν] {stencil : Stencil} {s : Settings} {topology : Topology}
  {grid : DimVec} {v : Verbosity}

theorem laidOut_of_layOut (ht : topology.Sound grid) {vars : List String}
    {words words' : PoolWords} {site site' : Site ν}
    (h : (layOut stencil s topology words vars).Yields v site words' site') :
    ∃ vs, site' = { site with table := { site.table with vars := site.table.vars ++ vs } } ∧
      vs.map (·.var) = vars ∧
      (∀ x ∈ vs, IsRow stencil s topology (Transport.sharesNode site.world.net topology.rank) x) ∧
      words'.owned = words.owned + tallyAll (·.ownedWords) vs ∧
      words'.shared = words.shared + tallyAll (·.sharedWords) vs := by
  -- One row for each variable; the words add up over the rows.
  induction vars generalizing words site with
  | nil =>
    simp only [layOut, Task.yields_pure] at h
    obtain ⟨rfl, rfl⟩ := h
    exact ⟨[], by simp, rfl, by simp, rfl, rfl⟩
  | cons var vars ih =>
    simp only [layOut, Task.yields_bind_get, Task.yields_bind_checked, Task.yields_bind_modify] at h
    obtain ⟨_, -, ⟨row, words₁⟩, hrow, h⟩ := h
    dsimp only at h
    obtain ⟨vs, rfl, hnames, hrows, howned, hshared⟩ := ih h
    obtain ⟨hrow, howned₁, hshared₁⟩ := isRow_of_makeRow ht hrow
    have hcons : ∀ f : NeighborBuffers → Nat,
        tallyAll f (⟨var, row⟩ :: vs) = tally f row + tallyAll f vs := fun _ => rfl
    refine ⟨⟨var, row⟩ :: vs, by simp, by simp [hnames], fun x hx => ?_, ?_, ?_⟩
    · rcases List.mem_cons.mp hx with rfl | hx
      · exact hrow
      · exact hrows x hx
    · rw [hcons]
      omega
    · rw [hcons]
      omega

end Site

end StencilPlan
