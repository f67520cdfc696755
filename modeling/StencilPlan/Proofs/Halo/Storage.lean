import StencilPlan.Proofs.Halo.Layout
import StencilPlan.Proofs.Network.Lawful

/-!
# Storage for the halo buffers

Windows are carved out of the pools of a rank one behind the other (`CarvesAll`). Where the pools
have room for all of them none is refused (`exists_carveAll`), and the windows in one pool follow
each other without a gap (`HaloTable.Rows`). Neither the outline of the table nor a word of any pool
changes with it.
-/

namespace StencilPlan

open Heap

/-- The buffer with a window. -/
def HaloBuffer.stored (b : HaloBuffer) (w : Window) : HaloBuffer := { b with window := some w }

/-- A buffer has the window `w`, which lies in its pool with all the words it needs. -/
structure HaloBuffer.Placed (h : Heap) (b : HaloBuffer) (w : Window) : Prop where
  window : b.window = some w
  size : b.size = .ok b.count
  fits : Word.saturatingAdd w.offset (b.count + if w.shared then controlWords else 0) ≤
    h.length w.pool

theorem HaloBuffer.Placed.of_sameWords {h h' : Heap} {b : HaloBuffer} {w : Window}
    (hp : b.Placed h w) (hs : SameWords h h') : b.Placed h' w :=
  ⟨hp.window, hp.size, by rw [hs.length]; exact hp.fits⟩

namespace HaloBuffer

variable {b b' : HaloBuffer} {h h' : Heap} {v : Verbosity} {a : Unit}

theorem of_release (hy : release.Yields v (b, h) a (b', h')) :
    b' = b.bare ∧ SameWords h h' := by
  simp only [release, Task.yields_bind_get] at hy
  cases hw : b.window with
  | none =>
    simp only [hw, Task.yields_pure, Prod.mk.injEq] at hy
    obtain ⟨-, rfl, rfl⟩ := hy
    exact ⟨by rw [bare, ← hw], .refl _⟩
  | some w =>
    simp only [hw, Task.yields_bind_note, Task.yields_set, Prod.mk.injEq] at hy
    obtain ⟨rfl, rfl⟩ := hy
    exact ⟨rfl, sameWords_letGo _ _⟩

theorem of_attach {pool : PoolId} {offset : Nat} {ownership : Ownership} {shared : Bool}
    (hy : (attach pool offset ownership shared).Yields v (b, h) a (b', h')) :
    b' = b.stored ⟨pool, offset, ownership, shared⟩ ∧ SameWords h h' ∧
      b'.Placed h ⟨pool, offset, ownership, shared⟩ := by
  simp only [attach, Task.yields_bind_modify, Task.yields_bind (x := release),
    Task.yields_bind_get] at hy
  obtain ⟨_, ⟨b₁, h₁⟩, hrelease, hy⟩ := hy
  obtain ⟨rfl, hsame⟩ := of_release hrelease
  have hsame' := (sameWords_hold h pool).trans hsame
  simp only [Task.yields_bind_checked] at hy
  obtain ⟨needed, hneeded, hy⟩ := hy
  split at hy
  · simp at hy
  · next hfits =>
    simp only [Task.yields_set, Prod.mk.injEq] at hy
    obtain ⟨rfl, rfl⟩ := hy
    -- Both that the size is the count and that the window ends within the pool come from the check.
    refine ⟨rfl, hsame', rfl, ?_, ?_⟩
    all_goals
      simp only [neededWords, bind_eq_ok, Word.add, Word.check_eq_ok_iff] at hneeded
      obtain ⟨k, hk, -, rfl⟩ := hneeded
      have hcount : b.count = k := count_eq hk
    · exact hk.trans (congrArg _ hcount.symm)
    · rw [hsame'.length] at hfits
      change Word.saturatingAdd offset (b.count + if shared then controlWords else 0) ≤
        h.length pool
      rw [hcount]
      omega

theorem exists_release (b : HaloBuffer) (h : Heap) :
    ∃ h', release.Yields v (b, h) () (b.bare, h') := by
  simp only [release, Task.yields_bind_get]
  cases hw : b.window with
  | none => exact ⟨h, by simp [bare, ← hw]⟩
  | some w => exact ⟨h.letGo w.pool, by simp [bare]⟩

/-- A window with room for all that is reserved for the buffer is not refused. -/
theorem exists_attach {pool : PoolId} {offset : Nat} {ownership : Ownership} {shared : Bool}
    (hb : b.Roomy shared) (hfits : offset + b.room shared ≤ h.length pool)
    (hcap : h.length pool ≤ arrayBytes) :
    ∃ h', (attach pool offset ownership shared).Yields v (b, h) ()
      (b.stored ⟨pool, offset, ownership, shared⟩, h') := by
  obtain ⟨h₁, hrelease⟩ := exists_release (v := v) b (h.hold pool)
  obtain ⟨-, hsame⟩ := of_release hrelease
  have hlength : h₁.length pool = h.length pool := ((sameWords_hold h pool).trans hsame).length pool
  have hneed := hb.fits
  -- The sum is at most the length of a pool, so it does not reach the bound of a word.
  have hnot : ¬ Word.saturatingAdd offset (b.count + if shared then controlWords else 0) >
      h₁.length pool := by
    rw [hlength]
    generalize (b.count + if shared then controlWords else 0) = k at hneed
    simp only [arrayBytes] at hcap
    simp only [Word.saturatingAdd, Word.max, Nat.min_def]
    split <;> omega
  refine ⟨h₁, ?_⟩
  simp only [attach, Task.yields_bind_modify, Task.yields_bind (x := release)]
  refine ⟨(), _, hrelease, ?_⟩
  simp only [Task.yields_bind_get, Task.yields_bind_checked]
  refine ⟨_, hb.needed, ?_⟩
  rw [if_neg hnot]
  exact Task.yields_set.mpr rfl

/-- A window that is too small is refused, and nothing else goes wrong. -/
theorem failsOnly_attach {pool : PoolId} {offset : Nat} {ownership : Ownership} {shared : Bool}
    (hb : b.Roomy shared) :
    (attach pool offset ownership shared).FailsOnly (fun _ => True) v (b, h) := by
  obtain ⟨h₁, hrelease⟩ := exists_release (v := v) b (h.hold pool)
  refine Task.failsOnly_bind_modify (hrelease.failsOnly_bind (Task.failsOnly_bind_get
    (Task.failsOnly_bind_checked hb.needed (Task.failsOnly_ite (fun _ => ?_) fun _ => ?_))))
  · exact Task.failsOnly_bind_set (Task.failsOnly_reject trivial)
  · exact Task.failsOnly_set _

end HaloBuffer

/-- What the storage has no part in does not matter for how many words are reserved. -/
theorem HaloBuffer.roomy_of_bare {b b' : HaloBuffer} {shared : Bool} (h : b'.bare = b.bare)
    (hb : b.Roomy shared) : b'.Roomy shared :=
  roomy_of_reservedWords ((reservedWords_of_bare h shared).trans hb.reserved)

theorem HaloBuffer.Roomy.stored {b : HaloBuffer} {shared : Bool} (hb : b.Roomy shared)
    (w : Window) : (b.stored w).Roomy shared := roomy_of_bare (b := b) rfl hb

/-! ### Windows one behind the other -/

theorem lines_add {i k : Nat} (hi : i % lineWords = 0) (hk : k % lineWords = 0) :
    (i + k) % lineWords = 0 := by
  simp only [lineWords] at hi hk ⊢
  omega

namespace HaloTable

/-- The buffer of a direction at a place. -/
def buffer? (t : HaloTable) (slot : Slot) (d : Direction) : Option HaloBuffer :=
  (t.at? slot).map (·.buffer d)

/-- The pool of the rank's own, or the shared one. -/
def pool? (t : HaloTable) (shared : Bool) : Option PoolId := if shared then t.shared else t.owned

/-- One of the pools of a rank. -/
def HasPool (t : HaloTable) (p : PoolId) : Prop := t.owned = some p ∨ t.shared = some p

theorem hasPool_of_pool? {t : HaloTable} {shared : Bool} {p : PoolId}
    (h : t.pool? shared = some p) : t.HasPool p := by
  cases shared with
  | true => exact .inr h
  | false => exact .inl h

/-- Buffers at some places have windows that follow each other from one word of a pool to another
one. -/
inductive Rows (t : HaloTable) (pool : PoolId) (shared : Bool) :
    Nat → List (Slot × Direction) → Nat → Prop
  | nil (i : Nat) : Rows t pool shared i [] i
  | cons {slot : Slot} {d : Direction} {b : HaloBuffer} {i j : Nat}
      {places : List (Slot × Direction)} (hb : t.buffer? slot d = some b)
      (hw : b.window = some ⟨pool, i, .owned, shared⟩) (hroomy : b.Roomy shared)
      (hrest : Rows t pool shared (i + b.room shared) places j) :
      Rows t pool shared i ((slot, d) :: places) j

namespace Rows

variable {t t' : HaloTable} {pool : PoolId} {shared : Bool} {i j : Nat}
  {places : List (Slot × Direction)}

theorem le (h : Rows t pool shared i places j) : i ≤ j := by
  induction h with
  | nil => exact Nat.le_refl _
  | cons _ _ _ _ ih => exact Nat.le_trans (Nat.le_add_right _ _) ih

/-- Each of the windows lies between the two words, at the beginning of a cache line if the first
one does. -/
theorem window (h : Rows t pool shared i places j) {slot : Slot} {d : Direction}
    (hmem : (slot, d) ∈ places) : ∃ b k, t.buffer? slot d = some b ∧
      b.window = some ⟨pool, k, .owned, shared⟩ ∧ b.Roomy shared ∧ i ≤ k ∧
      k + b.room shared ≤ j ∧ (i % lineWords = 0 → k % lineWords = 0) := by
  induction h with
  | nil => cases hmem
  | @cons slot' d' b i j places hb hw hroomy hrest ih =>
    rcases List.mem_cons.mp hmem with heq | hmem
    · obtain ⟨rfl, rfl⟩ := Prod.mk.inj heq
      exact ⟨b, i, hb, hw, hroomy, Nat.le_refl _, hrest.le, id⟩
    · obtain ⟨c, k, hc, hw', hroomy', hle, hend, hline⟩ := ih hmem
      exact ⟨c, k, hc, hw', hroomy', by omega, hend, fun hi => hline (lines_add hi hroomy.lines)⟩

/-- Of two of the windows the one lies behind the other. -/
theorem apart (h : Rows t pool shared i places j) : places.Pairwise fun x y =>
    ∀ b b' w w', t.buffer? x.1 x.2 = some b → t.buffer? y.1 y.2 = some b' → b.window = some w →
      b'.window = some w' → w.offset + b.room shared ≤ w'.offset := by
  induction h with
  | nil => exact .nil
  | @cons slot d b i j places hb hw hroomy hrest ih =>
    refine .cons (fun y hy c c' w w' hc hc' hv hv' => ?_) ih
    obtain ⟨b', k, hb', hw', -, hle, -⟩ := hrest.window (show (y.1, y.2) ∈ _ from hy)
    obtain rfl := Option.some.inj (hb.symm.trans hc)
    obtain rfl := Option.some.inj (hb'.symm.trans hc')
    obtain rfl := Option.some.inj (hw.symm.trans hv)
    obtain rfl := Option.some.inj (hw'.symm.trans hv')
    exact hle

/-- Every word between the two belongs to one of the windows. -/
theorem covers (h : Rows t pool shared i places j) {k : Nat} (hi : i ≤ k) (hj : k < j) :
    ∃ place ∈ places, ∃ b w, t.buffer? place.1 place.2 = some b ∧ b.window = some w ∧
      w.offset ≤ k ∧ k < w.offset + b.room shared := by
  induction h with
  | nil => omega
  | @cons slot d b i j places hb hw hroomy hrest ih =>
    by_cases hk : k < i + b.room shared
    · exact ⟨(slot, d), List.mem_cons_self, b, _, hb, hw, hi, hk⟩
    · obtain ⟨place, hmem, hplace⟩ := ih (by omega) hj
      exact ⟨place, List.mem_cons_of_mem _ hmem, hplace⟩

/-- All that is reserved lies between the two words. -/
theorem sum_le (h : Rows t pool shared i places j) {f : Slot × Direction → Nat}
    (hf : ∀ slot d b, t.buffer? slot d = some b → b.Roomy shared → f (slot, d) ≤ b.room shared) :
    i + (places.map f).sum ≤ j := by
  induction h with
  | nil => exact Nat.le_refl _
  | @cons slot d b i j places hb hw hroomy hrest ih =>
    have hfirst := hf slot d b hb hroomy
    rw [List.map_cons, List.sum_cons]
    omega

/-- What is behind the last window is on a cache line too. -/
theorem lines (h : Rows t pool shared i places j) (hi : i % lineWords = 0) : j % lineWords = 0 := by
  induction h with
  | nil => exact hi
  | cons _ _ hroomy _ ih => exact ih (lines_add hi hroomy.lines)

/-- Only the buffers at the places matter. -/
theorem congr (h : Rows t pool shared i places j)
    (hsame : ∀ place ∈ places, t'.buffer? place.1 place.2 = t.buffer? place.1 place.2) :
    Rows t' pool shared i places j := by
  induction h with
  | nil => exact .nil _
  | cons hb hw hroomy _ ih =>
    exact .cons ((hsame _ List.mem_cons_self).trans hb) hw hroomy
      (ih fun place hplace => hsame place (List.mem_cons_of_mem _ hplace))

end Rows

end HaloTable

namespace NeighborBuffers

/-- The buffers that the rank stores itself: from a neighbor that shares memory it receives in the
pool of that neighbor. -/
def housed (n : NeighborBuffers) : List Direction := if n.shared then [.send] else [.send, .recv]

end NeighborBuffers

/-- The places of the buffers in one of the pools, in the order in which they are carved out. -/
def berths (shared : Bool) (es : List (Slot × NeighborBuffers)) : List (Slot × Direction) :=
  (es.filter (·.2.shared = shared)).flatMap fun e => e.2.housed.map (e.1, ·)

theorem mem_berths {shared : Bool} {es : List (Slot × NeighborBuffers)} {place : Slot × Direction} :
    place ∈ berths shared es ↔
      ∃ n, (place.1, n) ∈ es ∧ n.shared = shared ∧ place.2 ∈ n.housed := by
  obtain ⟨slot, d⟩ := place
  simp only [berths, List.mem_flatMap, List.mem_filter, decide_eq_true_eq, List.mem_map,
    Prod.mk.injEq, Prod.exists]
  constructor
  · rintro ⟨_, n, ⟨hmem, hn⟩, _, hd, rfl, rfl⟩
    exact ⟨n, hmem, hn, hd⟩
  · rintro ⟨n, hmem, hn, hd⟩
    exact ⟨slot, n, ⟨hmem, hn⟩, d, hd, rfl, rfl⟩

theorem berths_cons (shared : Bool) (slot : Slot) (n : NeighborBuffers)
    (es : List (Slot × NeighborBuffers)) : berths shared ((slot, n) :: es) =
      (if n.shared = shared then n.housed.map (slot, ·) else []) ++ berths shared es := by
  rw [berths, List.filter_cons]
  simp only [decide_eq_true_eq]
  split
  · rw [List.flatMap_cons, berths]
  · rw [List.nil_append, berths]

/-- Where the buffers are that a rank stores itself can be read off the outline. -/
theorem berths_of_outline {t t' : HaloTable} (h : t'.outline = t.outline) (shared : Bool) :
    berths shared t'.entries = berths shared t.entries := by
  have hbare : ∀ es : List (Slot × NeighborBuffers),
      berths shared (es.map fun e => (e.1, e.2.bare)) = berths shared es := by
    intro es
    rw [berths, List.filter_map, List.flatMap_map]
    rfl
  rw [← hbare t'.entries, ← t'.entries_outline, h, t.entries_outline, hbare]

namespace PoolWords

/-- The words of one of the pools. -/
def inPool (words : PoolWords) (shared : Bool) : Nat := if shared then words.shared else words.owned

/-- What is behind the windows of an entry. -/
def past (used : PoolWords) (n : NeighborBuffers) : PoolWords :=
  ⟨used.owned + n.ownedWords, used.shared + n.sharedWords⟩

theorem past_of_shared {used : PoolWords} {n : NeighborBuffers} (h : n.shared = true) :
    used.past n = { used with shared := used.shared + n.send.room true } := by
  simp only [past, NeighborBuffers.ownedWords, NeighborBuffers.sharedWords, h, if_true,
    Nat.add_zero]

theorem past_of_not_shared {used : PoolWords} {n : NeighborBuffers} (h : n.shared = false) :
    used.past n = { used with owned := used.owned + n.send.room false + n.recv.room false } := by
  simp only [past, NeighborBuffers.ownedWords, NeighborBuffers.sharedWords, h, Bool.false_eq_true,
    if_false, Nat.add_zero, Nat.add_assoc]

/-- An entry takes no words of the other pool. -/
theorem inPool_past_of_ne {used : PoolWords} {n : NeighborBuffers} {shared : Bool}
    (h : n.shared ≠ shared) : (used.past n).inPool shared = used.inPool shared := by
  cases shared with
  | true => rw [past_of_not_shared (Bool.not_eq_true _ ▸ h)]; rfl
  | false => rw [past_of_shared (Bool.not_eq_false _ ▸ h)]; rfl

/-- What is behind the windows of some entries. -/
def pastAll (used : PoolWords) (es : List (Slot × NeighborBuffers)) : PoolWords :=
  es.foldl (fun used e => used.past e.2) used

theorem pastAll_eq (used : PoolWords) (es : List (Slot × NeighborBuffers)) :
    used.pastAll es = ⟨used.owned + (es.map fun e => e.2.ownedWords).sum,
      used.shared + (es.map fun e => e.2.sharedWords).sum⟩ := by
  induction es generalizing used with
  | nil => rfl
  | cons e es ih =>
    rw [pastAll, List.foldl_cons, ← pastAll, ih, List.map_cons, List.map_cons, List.sum_cons,
      List.sum_cons, past]
    simp only [Nat.add_assoc]

end PoolWords

/-- The pools of a table have room for some words, and exist if there are any. -/
structure HaloTable.HasRoom (t : HaloTable) (h : Heap) (words : PoolWords) : Prop where
  owned : 0 < words.owned → ∃ p : PoolId, t.owned = some p ∧ words.owned ≤ h.length p ∧
    h.length p ≤ arrayBytes
  shared : 0 < words.shared → ∃ p : PoolId, t.shared = some p ∧ words.shared ≤ h.length p ∧
    h.length p ≤ arrayBytes

theorem HaloTable.HasRoom.mono {t t' : HaloTable} {h h' : Heap} {words words' : PoolWords}
    (hroom : t.HasRoom h words) (howned : t'.owned = t.owned) (hshared : t'.shared = t.shared)
    (hsame : SameWords h h') (hle : words'.owned ≤ words.owned ∧ words'.shared ≤ words.shared) :
    t'.HasRoom h' words' := by
  refine ⟨fun hpos => ?_, fun hpos => ?_⟩
  · obtain ⟨p, hp, hlen, hcap⟩ := hroom.owned (by omega)
    rw [← hsame.length] at hlen hcap
    exact ⟨p, howned.trans hp, by omega, hcap⟩
  · obtain ⟨p, hp, hlen, hcap⟩ := hroom.shared (by omega)
    rw [← hsame.length] at hlen hcap
    exact ⟨p, hshared.trans hp, by omega, hcap⟩

namespace Site

variable {ν : Type} {site site' : Site ν} {v : Verbosity} {slot : Slot} {n n' : NeighborBuffers}

theorem yields_onBuffer {d : Direction} {m : NeighborBuffers} {x : Task (HaloBuffer × Heap) Unit}
    {a : Unit} (hn : site.table.at? slot = some n) :
    (onBuffer slot d m x).Yields v site a site' ↔
      ∃ b h, x.Yields v (n.buffer d, site.heap) a (b, h) ∧
        site' = ⟨site.table.put slot (n.withBuffer d b), ⟨h, site.world.net⟩⟩ := by
  simp only [onBuffer, Task.yields_zoom, hn, Option.getD_some, Prod.exists]

/-- Moving a buffer to another window does not change the outline. -/
theorem outline_of_attach {d : Direction} {m : NeighborBuffers} {pool : PoolId} {offset : Nat}
    {ownership : Ownership} {shared : Bool} {a : Unit} (hn : site.table.at? slot = some n)
    (hy : (onBuffer slot d m (HaloBuffer.attach pool offset ownership shared)).Yields v site a
      site') : site'.table.outline = site.table.outline := by
  obtain ⟨b, h, hattach, rfl⟩ := (yields_onBuffer hn).mp hy
  refine HaloTable.outline_put hn (NeighborBuffers.bare_withBuffer ?_)
  rw [(HaloBuffer.of_attach hattach).1]
  rfl

/-- What the send buffer at a place is published under. -/
def keyAt (me : Nat) (t : HaloTable) (slot : Slot) (n : NeighborBuffers) : SegmentKey :=
  ⟨me, n.rank, t.varName slot⟩

section Carving

variable [Transport ν] {me : Nat} {asked : PoolRequests} {used used' : PoolWords}
  {es : List (Slot × NeighborBuffers)}

theorem outline_of_carve (hy : (carve me asked slot used).Yields v site used' site') :
    site'.table.outline = site.table.outline := by
  simp only [carve, Task.yields_bind_get] at hy
  cases hn : site.table.at? slot with
  | none =>
    simp only [hn, Task.yields_pure] at hy
    rw [hy.2]
  | some n =>
    simp only [hn] at hy
    split at hy
    · cases hpool : site.table.shared with
      | none => simp only [hpool, Task.not_yields_reject] at hy
      | some pool =>
        simp only [hpool, Task.yields_bind_checked, Task.yields_bind (x := onBuffer _ _ _ _),
          Task.yields_bind_get, Task.yields_bind_modify, Task.yields_pure] at hy
        obtain ⟨_, -, _, site₁, hattach, -, rfl⟩ := hy
        have houtline := outline_of_attach hn hattach
        exact houtline
    · cases hpool : site.table.owned with
      | none => simp only [hpool, Task.not_yields_reject] at hy
      | some pool =>
        simp only [hpool, Task.yields_bind_checked, Task.yields_bind (x := onBuffer _ _ _ _),
          Task.yields_pure] at hy
        obtain ⟨_, site₁, hattach, _, -, _, site₂, hattach', _, -, -, rfl⟩ := hy
        have houtline := outline_of_attach hn hattach
        -- The entry is still there, so the second buffer can be found.
        obtain ⟨n₁, hn₁, -⟩ := HaloTable.at?_of_outline houtline.symm hn
        exact (outline_of_attach hn₁ hattach').trans houtline

theorem outline_of_carveAll {slots : List Slot} {a : Unit}
    (hy : (carveAll me asked used slots).Yields v site a site') :
    site'.table.outline = site.table.outline := by
  induction slots generalizing used site with
  | nil =>
    simp only [carveAll, Task.yields_pure] at hy
    rw [hy.2]
  | cons slot slots ih =>
    rw [carveAll, Task.yields_bind] at hy
    obtain ⟨used₁, site₁, hcarve, hrest⟩ := hy
    exact (ih hrest).trans (outline_of_carve hcarve)

/-- The windows at a place are carved out of the pools of the rank, from given offsets on. A window
in the shared pool is published with all the words that are reserved for it. -/
inductive Carved (me : Nat) (slot : Slot) (site : Site ν) (n : NeighborBuffers)
    (used : PoolWords) : NeighborBuffers → World ν → Prop
  | shared {pool : PoolId} {heap : Heap} (hshared : n.shared = true)
      (hpool : site.table.shared = some pool) (hsame : SameWords site.heap heap) :
      Carved me slot site n used
        { n with send := n.send.stored ⟨pool, used.shared, .owned, true⟩ }
        (Transport.publish (keyAt me site.table slot n)
          ⟨pool, used.shared, n.send.room true⟩ ⟨heap, site.world.net⟩)
  | owned {pool : PoolId} {heap : Heap} (hshared : n.shared = false)
      (hpool : site.table.owned = some pool) (hsame : SameWords site.heap heap) :
      Carved me slot site n used
        { n with
          send := n.send.stored ⟨pool, used.owned, .owned, false⟩
          recv := n.recv.stored ⟨pool, used.owned + n.send.room false, .owned, false⟩ }
        ⟨heap, site.world.net⟩

/-- The windows at the places of some entries are carved out of the pools. -/
inductive CarvesAll (me : Nat) :
    PoolWords → List (Slot × NeighborBuffers) → Site ν → Site ν → Prop
  | nil {used : PoolWords} {site : Site ν} : CarvesAll me used [] site site
  | cons {used : PoolWords} {slot : Slot} {n n' : NeighborBuffers}
      {es : List (Slot × NeighborBuffers)} {site site' : Site ν} {world : World ν}
      (hn : site.table.at? slot = some n) (hcarved : Carved me slot site n used n' world)
      (hrest : CarvesAll me (used.past n) es ⟨site.table.put slot n', world⟩ site') :
      CarvesAll me used ((slot, n) :: es) site site'

theorem Carved.bare {world : World ν} (h : Carved me slot site n used n' world) :
    n'.bare = n.bare := by
  cases h <;> rfl

theorem Carved.sameWords [LawfulTransport ν] {world : World ν}
    (h : Carved me slot site n used n' world) : SameWords site.heap world.heap := by
  cases h with
  | shared _ _ hsame => exact hsame.trans (LawfulTransport.publish_sameWords _ _ _)
  | owned _ _ hsame => exact hsame

/-- Where the pools have room for it, an entry gets its windows. -/
theorem exists_carve (hn : site.table.at? slot = some n) (hr : n.Reserved)
    (hroom : site.table.HasRoom site.heap (used.past n)) : ∃ n' world,
      (carve me asked slot used).Yields v site (used.past n) ⟨site.table.put slot n', world⟩ ∧
        Carved me slot site n used n' world := by
  have hpos := hr.pos
  simp only [carve, Task.yields_bind_get, hn]
  cases hshared : n.shared with
  | true =>
    simp only [NeighborBuffers.ownedWords, NeighborBuffers.sharedWords, hshared, if_true] at hpos
    rw [PoolWords.past_of_shared hshared] at hroom ⊢
    obtain ⟨pool, hpool, hfits, hcap⟩ := hroom.shared (by dsimp only; omega)
    have hroomy := hshared ▸ hr.send
    obtain ⟨h, hattach⟩ := @HaloBuffer.exists_attach n.send site.heap v pool used.shared .owned
      true hroomy hfits hcap
    obtain ⟨-, hsame, -⟩ := HaloBuffer.of_attach hattach
    refine ⟨_, _, ?_, .shared hshared hpool (hsame.trans (sameWords_hold h pool))⟩
    simp only [if_true, hpool, Task.yields_bind_checked, Task.yields_bind (x := onBuffer _ _ _ _),
      Task.yields_bind_get, Task.yields_bind_modify, Task.yields_pure]
    exact ⟨_, hroomy.reserved, (), _, (yields_onBuffer hn).mpr ⟨_, _, hattach, rfl⟩, rfl, rfl⟩
  | false =>
    simp only [NeighborBuffers.ownedWords, NeighborBuffers.sharedWords, hshared,
      Bool.false_eq_true, if_false] at hpos
    rw [PoolWords.past_of_not_shared hshared] at hroom ⊢
    obtain ⟨pool, hpool, hfits, hcap⟩ := hroom.owned (by dsimp only; omega)
    dsimp only at hfits
    have hroomy := hshared ▸ hr.send
    have hroomy' := hr.recv hshared
    obtain ⟨h, hattach⟩ := @HaloBuffer.exists_attach n.send site.heap v pool used.owned .owned
      false hroomy (by omega) hcap
    obtain ⟨-, hsame, -⟩ := HaloBuffer.of_attach hattach
    -- the receive buffer comes right behind the send buffer in the same pool
    obtain ⟨h', hattach'⟩ := @HaloBuffer.exists_attach n.recv h v pool
      (used.owned + n.send.room false) .owned false hroomy' (by rw [hsame.length]; exact hfits)
      (by rw [hsame.length]; exact hcap)
    obtain ⟨-, hsame', -⟩ := HaloBuffer.of_attach hattach'
    refine ⟨_, _, ?_, .owned hshared hpool (hsame.trans hsame')⟩
    simp only [Bool.false_eq_true, if_false, hpool, Task.yields_bind_checked,
      Task.yields_bind (x := onBuffer _ _ _ _), Task.yields_pure]
    have hput : ∀ m, (⟨site.table.put slot m, ⟨h, site.world.net⟩⟩ : Site ν).table.at? slot =
        some m := HaloTable.at?_put_self hn
    refine ⟨(), _, (yields_onBuffer hn).mpr ⟨_, _, hattach, rfl⟩, _, hroomy.reserved, (), _,
      (yields_onBuffer (hput _)).mpr ⟨_, _, hattach', rfl⟩, _, hroomy'.reserved, rfl, ?_⟩
    rw [HaloTable.put_put]
    rfl

theorem exists_carveAll [LawfulTransport ν] (hnodup : (es.map (·.1)).Nodup)
    (hes : ∀ e ∈ es, site.table.at? e.1 = some e.2 ∧ e.2.Reserved)
    (hroom : site.table.HasRoom site.heap (used.pastAll es)) : ∃ site',
      (carveAll me asked used (es.map (·.1))).Yields v site () site' ∧
        CarvesAll me used es site site' := by
  -- One entry after the other; those that are to come are still as they were.
  induction es generalizing used site with
  | nil => exact ⟨site, Task.yields_pure.mpr ⟨rfl, rfl⟩, .nil⟩
  | cons e es ih =>
    obtain ⟨slot, n⟩ := e
    rw [List.map_cons, List.nodup_cons] at hnodup
    obtain ⟨hn, hr⟩ := hes (slot, n) List.mem_cons_self
    have hpast : used.pastAll ((slot, n) :: es) = (used.past n).pastAll es := rfl
    rw [hpast] at hroom
    have hfirst : site.table.HasRoom site.heap (used.past n) := by
      refine hroom.mono rfl rfl (.refl _) ?_
      rw [PoolWords.pastAll_eq]
      exact ⟨Nat.le_add_right _ _, Nat.le_add_right _ _⟩
    obtain ⟨n', world, hcarve, hcarved⟩ : ∃ n' world,
        (carve me asked slot used).Yields v site (used.past n) ⟨site.table.put slot n', world⟩ ∧
          Carved me slot site n used n' world := exists_carve hn hr hfirst
    have hes' : ∀ e ∈ es, (site.table.put slot n').at? e.1 = some e.2 ∧ e.2.Reserved := by
      intro e he
      obtain ⟨hat, hr'⟩ := hes e (List.mem_cons_of_mem _ he)
      have hne : e.1 ≠ slot := fun heq => hnodup.1 (heq ▸ List.mem_map_of_mem (f := (·.1)) he)
      exact ⟨(HaloTable.at?_put_of_ne hne _).trans hat, hr'⟩
    obtain ⟨site', hrest, hall⟩ := @ih ⟨site.table.put slot n', world⟩ (used.past n) hnodup.2 hes'
      (hroom.mono rfl rfl hcarved.sameWords ⟨Nat.le_refl _, Nat.le_refl _⟩)
    refine ⟨site', ?_, .cons hn hcarved hall⟩
    rw [List.map_cons, carveAll, Task.yields_bind]
    exact ⟨_, _, hcarve, hrest⟩

namespace CarvesAll

theorem outline (h : CarvesAll me used es site site') :
    site'.table.outline = site.table.outline := by
  induction h with
  | nil => rfl
  | cons hn hcarved _ ih => exact ih.trans (HaloTable.outline_put hn hcarved.bare)

theorem pools (h : CarvesAll me used es site site') :
    site'.table.owned = site.table.owned ∧ site'.table.shared = site.table.shared := by
  induction h with
  | nil => exact ⟨rfl, rfl⟩
  | cons _ _ _ ih => exact ih

theorem sameWords [LawfulTransport ν] (h : CarvesAll me used es site site') :
    SameWords site.heap site'.heap := by
  induction h with
  | nil => exact .refl _
  | cons _ hcarved _ ih => exact hcarved.sameWords.trans ih

theorem other (h : CarvesAll me used es site site') (hslot : slot ∉ es.map (·.1)) :
    site'.table.at? slot = site.table.at? slot := by
  induction h with
  | nil => rfl
  | cons _ _ _ ih =>
    rw [List.map_cons, List.mem_cons, not_or] at hslot
    exact (ih hslot.2).trans (HaloTable.at?_put_of_ne hslot.1 _)

/-- What a rank receives in shared memory has no window yet. -/
theorem entry (h : CarvesAll me used es site site') (hn : site'.table.at? slot = some n) :
    ∃ m, site.table.at? slot = some m ∧ n.bare = m.bare ∧ (m.shared = true → n.recv = m.recv) := by
  induction h with
  | nil => exact ⟨n, hn, rfl, fun _ => rfl⟩
  | @cons used slot' n₀ n' es site site' world hn₀ hcarved hrest ih =>
    obtain ⟨m, hm, hbare, hrecv⟩ := ih hn
    dsimp only at hm
    -- Every place is carved once, so either this step carved it or the later ones did.
    by_cases hslot : slot = slot'
    · subst hslot
      rw [HaloTable.at?_put_self hn₀, Option.some.injEq] at hm
      subst hm
      refine ⟨n₀, hn₀, hbare.trans hcarved.bare, fun hyes => ?_⟩
      cases hcarved with
      | shared => exact hrecv hyes
      | owned hno =>
        rw [hno] at hyes
        cases hyes
    · rw [HaloTable.at?_put_of_ne hslot] at hm
      exact ⟨m, hm, hbare, hrecv⟩

/-- In each of the pools the windows follow each other. -/
theorem rows (h : CarvesAll me used es site site') (hnodup : (es.map (·.1)).Nodup)
    (hes : ∀ e ∈ es, e.2.Reserved) {shared : Bool} {pool : PoolId}
    (hpool : site.table.pool? shared = some pool) :
    site'.table.Rows pool shared (used.inPool shared) (berths shared es)
      ((used.pastAll es).inPool shared) := by
  induction h with
  | nil => exact .nil _
  | @cons used slot n n' es site site' world hn hcarved hrest ih =>
    rw [List.map_cons, List.nodup_cons] at hnodup
    have hr : n.Reserved := hes (slot, n) List.mem_cons_self
    have hrows := ih hnodup.2 (fun e he => hes e (List.mem_cons_of_mem _ he)) hpool
    have hself : site'.table.at? slot = some n' :=
      (hrest.other hnodup.1).trans (HaloTable.at?_put_self hn n')
    have hbuffer : ∀ d, site'.table.buffer? slot d = some (n'.buffer d) := fun d => by
      rw [HaloTable.buffer?, hself, Option.map_some]
    -- The windows of the entry, if they are in this pool, stand before those of the others.
    by_cases hkind : n.shared = shared
    · subst hkind
      rw [berths_cons, if_pos rfl]
      cases hcarved with
      | @shared p heap hshared hp hsame =>
        rw [HaloTable.pool?, hshared, if_pos rfl, hp, Option.some.injEq] at hpool
        subst hpool
        have hroomy : n.send.Roomy true := hshared ▸ hr.send
        have hpast : (used.past n).inPool true = used.inPool true + n.send.room true := by
          rw [PoolWords.past_of_shared hshared]
          rfl
        rw [hshared, hpast] at hrows
        rw [NeighborBuffers.housed, hshared, if_pos rfl]
        exact .cons (hbuffer .send) rfl (hroomy.stored _) hrows
      | @owned p heap hshared hp hsame =>
        rw [HaloTable.pool?, hshared, if_neg Bool.false_ne_true, hp, Option.some.injEq] at hpool
        subst hpool
        have hroomy : n.send.Roomy false := hshared ▸ hr.send
        have hpast : (used.past n).inPool false =
            used.inPool false + n.send.room false + n.recv.room false := by
          rw [PoolWords.past_of_not_shared hshared]
          rfl
        rw [hshared, hpast] at hrows
        rw [NeighborBuffers.housed, hshared, if_neg Bool.false_ne_true]
        refine .cons (hbuffer .send) rfl (hroomy.stored _) ?_
        exact .cons (hbuffer .recv) rfl ((hr.recv hshared).stored _) hrows
    · rw [PoolWords.inPool_past_of_ne hkind] at hrows
      rw [berths_cons, if_neg hkind, List.nil_append]
      exact hrows

end CarvesAll

end Carving

end Site

end StencilPlan
