import StencilPlan.Proofs.Halo.Pools

/-!
# Attaching to what others have published

After the ranks have met, each of them attaches its shared receive buffers to the segments that it
finds under their keys (`AttachesAll`). Send buffers and the buffers at other places stay as they
are, and so do the pools of the rank with the windows in them.
-/

namespace StencilPlan

open Heap

/-- The entry with its receive buffer in a segment. -/
def NeighborBuffers.attachedTo (n : NeighborBuffers) (seg : Segment) : NeighborBuffers :=
  n.withBuffer .recv (n.recv.stored ⟨seg.pool, seg.offset, .attached, true⟩)

theorem NeighborBuffers.bare_attachedTo (n : NeighborBuffers) (seg : Segment) :
    (n.attachedTo seg).bare = n.bare := bare_withBuffer rfl

namespace Site

section Attaching

variable {ν : Type} [Transport ν] {me : Nat} {site site' : Site ν} {slot : Slot}
  {slots : List Slot} {n : NeighborBuffers} {v : Verbosity}

/-- The receive buffers at some places are attached, each to a segment that was found under its key
and has just the words that are reserved for the buffer. -/
inductive AttachesAll (v : Verbosity) (me : Nat) : List Slot → Site ν → Site ν → Prop
  | nil {site : Site ν} : AttachesAll v me [] site site
  | cons {slot : Slot} {slots : List Slot} {n : NeighborBuffers} {seg : Segment} {world : World ν}
      {heap : Heap} {site site' : Site ν} (hn : site.table.at? slot = some n)
      (hclaim : (Transport.claim ⟨n.rank, me, site.table.varName slot⟩).Yields v site.world
        (some seg) world)
      (hlength : n.recv.reservedWords true = .ok seg.length) (hsame : SameWords world.heap heap)
      (hplaced : (n.attachedTo seg).recv.Placed world.heap ⟨seg.pool, seg.offset, .attached, true⟩)
      (hrest : AttachesAll v me slots
        ⟨site.table.put slot (n.attachedTo seg), ⟨heap, world.net⟩⟩ site') :
      AttachesAll v me (slot :: slots) site site'

theorem attaches_of_attachSlot {a : Unit} (hn : site.table.at? slot = some n)
    (hy : (attachSlot me slot n).Yields v site a site') : ∃ seg world heap,
      (Transport.claim ⟨n.rank, me, site.table.varName slot⟩).Yields v site.world (some seg) world ∧
        n.recv.reservedWords true = .ok seg.length ∧ SameWords world.heap heap ∧
        (n.attachedTo seg).recv.Placed world.heap ⟨seg.pool, seg.offset, .attached, true⟩ ∧
        site' = ⟨site.table.put slot (n.attachedTo seg), ⟨heap, world.net⟩⟩ := by
  simp only [attachSlot, Task.yields_bind_get, Task.yields_bind (x := Task.zoom _ _ _),
    Task.yields_zoom] at hy
  obtain ⟨found, _, ⟨world, hclaim, rfl⟩, hy⟩ := hy
  -- No segment, one of the wrong length, and a failed attach are all errors.
  cases found with
  | none => exact absurd hy Task.not_yields_reject
  | some seg =>
    simp only [Task.yields_bind_checked] at hy
    obtain ⟨expected, hexpected, hy⟩ := hy
    split at hy
    · simp [Task.yields_bind] at hy
    · next hlength =>
      simp only [Task.yields_bind (x := Task.attempt _), Task.yields_attempt,
        Task.yields_bind_modify] at hy
      obtain ⟨r, site₁, ⟨hstate, hresult⟩, hy⟩ := hy
      cases r with
      | error e => exact absurd hy Task.not_yields_reject
      | ok u =>
        simp only [Task.yields_pure] at hy
        obtain ⟨-, rfl⟩ := hy
        have hn₁ : (⟨site.table, world⟩ : Site ν).table.at? slot = some n := hn
        obtain ⟨b, h, hattach, rfl⟩ := (yields_onBuffer hn₁).mp ⟨hresult, hstate⟩
        obtain ⟨rfl, hsame, hplaced⟩ := HaloBuffer.of_attach hattach
        rw [← not_not.mp hlength] at hexpected
        exact ⟨seg, world, h.letGo seg.pool, hclaim, hexpected,
          hsame.trans (sameWords_letGo h seg.pool), hplaced, rfl⟩

theorem attachesAll_of_attachSlots {a : Unit}
    (hpresent : ∀ slot ∈ slots, (site.table.at? slot).isSome)
    (hy : (attachSlots me slots).Yields v site a site') : AttachesAll v me slots site site' := by
  induction slots generalizing site with
  | nil =>
    simp only [attachSlots, Task.yields_pure] at hy
    obtain ⟨-, rfl⟩ := hy
    exact .nil
  | cons slot slots ih =>
    obtain ⟨n, hn⟩ := Option.isSome_iff_exists.mp (hpresent slot (by simp))
    simp only [attachSlots, Task.yields_bind_get, hn,
      Task.yields_bind (x := attachSlot _ _ _)] at hy
    obtain ⟨_, _, hattach, hy⟩ := hy
    obtain ⟨seg, world, heap, hclaim, hlength, hsame, hplaced, rfl⟩ :=
      attaches_of_attachSlot hn hattach
    refine .cons hn hclaim hlength hsame hplaced (ih (fun s hs => ?_) hy)
    -- No entry goes with it.
    rw [← HaloTable.mem_slots, ← HaloTable.slots_outline,
      HaloTable.outline_put hn (n.bare_attachedTo seg), HaloTable.slots_outline,
      HaloTable.mem_slots]
    exact hpresent s (List.mem_cons_of_mem _ hs)

namespace AttachesAll

theorem outline (h : AttachesAll v me slots site site') :
    site'.table.outline = site.table.outline := by
  induction h with
  | nil => rfl
  | cons hn _ _ _ _ _ ih =>
    exact ih.trans (HaloTable.outline_put hn (NeighborBuffers.bare_attachedTo _ _))

theorem pools (h : AttachesAll v me slots site site') :
    site'.table.owned = site.table.owned ∧ site'.table.shared = site.table.shared := by
  induction h with
  | nil => exact ⟨rfl, rfl⟩
  | cons _ _ _ _ _ _ ih => exact ih

/-- No pool that was there loses a word. -/
theorem grows [LawfulTransport ν] (h : AttachesAll v me slots site site') :
    Grows site.heap site'.heap := by
  induction h with
  | nil => exact .refl _
  | cons _ hclaim _ hsame _ _ ih =>
    exact ((LawfulTransport.claim_grows _ _ _ _ _ hclaim).trans hsame.grows).trans ih

/-- What became of an entry: its receive buffer was attached, if the place is one of those. -/
theorem entry (h : AttachesAll v me slots site site') (hn : site'.table.at? slot = some n) :
    ∃ m, site.table.at? slot = some m ∧ n.bare = m.bare ∧ n.send = m.send ∧
      (slot ∉ slots → n = m) ∧
      (slot ∈ slots → ∃ w, n.recv.window = some w ∧ w.ownership = .attached) := by
  -- The induction is on the places in the order they are attached; each step changes one entry.
  induction h with
  | nil => exact ⟨n, hn, rfl, rfl, fun _ => rfl, by simp⟩
  | @cons slot' slots n' seg world heap site site' hn' _ _ _ _ _ ih =>
    obtain ⟨m, hm, hbare, hsend, hother, hwindow⟩ := ih hn
    dsimp only at hm
    by_cases hslot : slot = slot'
    · subst hslot
      rw [HaloTable.at?_put_self hn', Option.some.injEq] at hm
      subst hm
      refine ⟨n', hn', hbare.trans (n'.bare_attachedTo seg), hsend, by simp, fun _ => ?_⟩
      -- The place may be attached once more later on, and then the last time counts.
      by_cases hmem : slot ∈ slots
      · exact hwindow hmem
      · exact ⟨_, by rw [hother hmem]; rfl, rfl⟩
    · rw [HaloTable.at?_put_of_ne hslot] at hm
      refine ⟨m, hm, hbare, hsend, fun hout => ?_, fun hin => ?_⟩
      · exact hother fun hmem => hout (List.mem_cons_of_mem _ hmem)
      · exact hwindow ((List.mem_cons.mp hin).resolve_left hslot)

end AttachesAll

/-- The site after all ranks have met. -/
def met (site : Site ν) : Site ν :=
  { site with world := { site.world with net := Transport.barrier site.world.net } }

/-- A rank that does not use shared memory attaches nothing. -/
theorem attachesAll_of_settle {s : Settings} {words : PoolWords} {a : Unit}
    (hy : (settle s me words).Yields v site a site') :
    if s.useShared then
      ∃ site₁, AttachesAll v me site.table.sharedSlots site.met site₁ ∧ site' = site₁.met
    else site' = site := by
  -- Announcing writes into the journal only, and meeting leaves the table alone.
  have hannounce : ∀ {x : Site ν} {b : Unit} {y : Site ν},
      (announce me words).Yields v x b y → y = x := by
    intro x b y h
    simpa [announce] using h
  have hmeet : ∀ {x : Site ν} {b : Unit} {y : Site ν},
      (meet : Task (Site ν) Unit).Yields v x b y → y = x.met := by
    intro x b y h
    simp only [meet, Task.yields_modify] at h
    exact h
  unfold settle at hy
  split at hy
  · next hshared =>
    simp only [Task.yields_bind (x := meet), Task.yields_bind (x := attachAll _)] at hy
    obtain ⟨_, _, hfirst, _, site₁, hattach, _, _, hsecond, hlast⟩ := hy
    obtain rfl := hmeet hfirst
    obtain rfl := hmeet hsecond
    simp only [attachAll, Task.yields_bind_get] at hattach
    rw [if_pos hshared]
    refine ⟨site₁, attachesAll_of_attachSlots (fun slot hslot => ?_) hattach, hannounce hlast⟩
    obtain ⟨n, hn, -⟩ := HaloTable.mem_sharedSlots.mp hslot
    exact Option.isSome_of_mem hn
  · next hshared =>
    rw [if_neg hshared]
    exact hannounce hy

end Attaching

end Site

end StencilPlan
