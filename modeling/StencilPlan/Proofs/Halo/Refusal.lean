import StencilPlan.Proofs.Halo.Attaching

/-!
# What attaching can fail with

A rank that cannot attach a receive buffer says so in an error for the place: nothing was published
there, the segment has the wrong number of words, or it does not lie in its pool. Nothing else can
go wrong, provided that the words to reserve can be counted.
-/

namespace StencilPlan

/-- The error of a rank that cannot attach the buffer at one of some places. -/
def HaloTable.Refuses (t : HaloTable) (slots : List Slot) (e : PlanError) : Prop :=
  ∃ slot ∈ slots, ∃ n reason, t.at? slot = some n ∧
    e = .sharedAttach n.rank (t.varName slot) reason

/-- What is refused depends on the outline of the table only. -/
theorem HaloTable.Refuses.of_outline {t t' : HaloTable} {slots : List Slot} {e : PlanError}
    (ho : t'.outline = t.outline) (h : t'.Refuses slots e) : t.Refuses slots e := by
  obtain ⟨slot, hslot, n, reason, hn, rfl⟩ := h
  obtain ⟨n', hn', hbare⟩ := at?_of_outline ho hn
  refine ⟨slot, hslot, n', reason, hn', ?_⟩
  rw [(NeighborBuffers.of_bare_eq hbare).1, varName_of_outline ho]

namespace Site

variable {me : Nat} {site site' : Site Universe} {slot : Slot} {slots : List Slot}
  {n : NeighborBuffers} {v : Verbosity} {E : PlanError → Prop}

/-- Giving up all buffers does not fail. -/
theorem failsOnly_release {ν : Type} {site : Site ν} :
    (release : Task (Site ν) Unit).FailsOnly E v site := by
  have hslots : ∀ (slots : List Slot) (site : Site ν),
      (releaseSlots slots : Task (Site ν) Unit).FailsOnly E v site := by
    intro slots
    induction slots with
    | nil => exact fun site => Task.failsOnly_pure _
    | cons slot slots ih =>
      intro site
      rw [releaseSlots]
      refine Task.failsOnly_bind_get ?_
      cases site.table.at? slot with
      | none => exact Task.failsOnly_bind (Task.failsOnly_pure ()) fun _ site _ => ih site
      | some n =>
        have hbuffer : ∀ (d : Direction) (site : Site ν),
            (onBuffer slot d n HaloBuffer.release).FailsOnly E v site := by
          intro d site
          obtain ⟨h, hrelease⟩ := HaloBuffer.exists_release (v := v)
            (((site.table.at? slot).getD n).buffer d) site.heap
          exact Task.failsOnly_zoom hrelease.failsOnly
        exact Task.failsOnly_bind (hbuffer .send site) fun _ _ _ =>
          Task.failsOnly_bind (hbuffer .recv _) fun _ _ _ => ih _
  exact Task.failsOnly_bind_get (Task.failsOnly_bind (hslots _ site) fun _ _ _ =>
    Task.failsOnly_modify _)

/-- Whatever is found under the key, the rank attaches to it or refuses it. -/
theorem failsOnly_attachSlot (hn : site.table.at? slot = some n) (hroomy : n.recv.Roomy true) :
    (attachSlot me slot n).FailsOnly
      (fun e => ∃ reason, e = .sharedAttach n.rank (site.table.varName slot) reason) v site := by
  rw [attachSlot]
  refine Task.failsOnly_bind_get ?_
  obtain ⟨found, world, hclaim⟩ :=
    Universe.exists_claim ⟨n.rank, me, site.table.varName slot⟩ site.world v
  refine Task.Yields.failsOnly_bind (Task.yields_zoom.mpr ⟨world, hclaim, rfl⟩) ?_
  cases found with
  | none => exact Task.failsOnly_reject ⟨_, rfl⟩
  | some seg =>
    -- The length of the segment is computed without a failure, then it is compared.
    refine Task.failsOnly_bind_checked hroomy.reserved
      (Task.failsOnly_ite (fun _ => ?_) fun _ => ?_)
    · exact Task.failsOnly_bind_modify (Task.failsOnly_reject ⟨_, rfl⟩)
    · refine Task.failsOnly_bind (Task.failsOnly_attempt (Task.failsOnly_zoom
        (HaloBuffer.failsOnly_attach ?_))) fun r site₁ _ => Task.failsOnly_bind_modify ?_
      · simp only [hn, Option.getD_some]
        exact hroomy
      · cases r with
        | ok u => exact Task.failsOnly_pure _
        | error e => exact Task.failsOnly_reject ⟨_, rfl⟩

theorem failsOnly_attachSlots
    (hslots : ∀ slot ∈ slots, ∃ n, site.table.at? slot = some n ∧ n.recv.Roomy true) :
    (attachSlots me slots).FailsOnly (site.table.Refuses slots) v site := by
  induction slots generalizing site with
  | nil => exact Task.failsOnly_pure _
  | cons slot slots ih =>
    obtain ⟨n, hn, hroomy⟩ := hslots slot List.mem_cons_self
    rw [attachSlots]
    refine Task.failsOnly_bind_get ?_
    simp only [hn]
    refine Task.failsOnly_bind ((failsOnly_attachSlot hn hroomy).mono ?_) fun _ site₁ hattach => ?_
    · rintro e ⟨reason, rfl⟩
      exact ⟨slot, List.mem_cons_self, n, reason, hn, rfl⟩
    · -- The table keeps its outline, so the places ahead are what they were.
      obtain ⟨seg, world, heap, -, -, -, -, rfl⟩ := attaches_of_attachSlot hn hattach
      have houtline := HaloTable.outline_put hn (n.bare_attachedTo seg)
      refine (ih fun slot' hslot' => ?_).mono fun e he => ?_
      · obtain ⟨n', hn', hroomy'⟩ := hslots slot' (List.mem_cons_of_mem _ hslot')
        obtain ⟨n₁, hn₁, hbare⟩ := HaloTable.at?_of_outline houtline.symm hn'
        exact ⟨n₁, hn₁, HaloBuffer.roomy_of_bare (NeighborBuffers.of_bare_eq hbare).2.2.2 hroomy'⟩
      · obtain ⟨slot', hslot', hrest⟩ := HaloTable.Refuses.of_outline houtline he
        exact ⟨slot', List.mem_cons_of_mem _ hslot', hrest⟩

/-- A rank that settles fails only if it cannot attach a shared buffer. -/
theorem failsOnly_settle {s : Settings} {words : PoolWords}
    (hroomy : ∀ slot n, site.table.at? slot = some n → n.shared = true → n.recv.Roomy true) :
    (settle s me words).FailsOnly (site.table.Refuses site.table.sharedSlots) v site := by
  have hannounce : ∀ site₁ : Site Universe,
      (announce me words).FailsOnly (site.table.Refuses site.table.sharedSlots) v site₁ :=
    fun _ => Task.failsOnly_bind_get (Task.failsOnly_note _ _)
  refine Task.failsOnly_ite (fun _ => ?_) fun _ => hannounce site
  refine Task.failsOnly_bind_modify (Task.failsOnly_bind (Task.failsOnly_bind_get ?_) fun _ _ _ =>
    Task.failsOnly_bind_modify (hannounce _))
  refine failsOnly_attachSlots fun slot hslot => ?_
  obtain ⟨n, hn, hshared⟩ := HaloTable.mem_sharedSlots.mp hslot
  exact ⟨n, hn, hroomy slot n hn hshared⟩

end Site

end StencilPlan
