import StencilPlan.Proofs.Tiling.Stages

/-!
# The levels of a plan

A chain of cuts that begins at a local domain of whole clusters can only end in levels that lie
where they may: each of them is whole clusters and none is larger than the one around it. So the
validation that closes a resolution has nothing to find, and a plan is what settings resolve to
exactly if it is such a chain.
-/

namespace StencilPlan.Settings

variable {c : Catalog} {v : Verbosity} {s : Settings} {p : Plan}

/-- The check of the local domain is passed exactly by whole clusters. -/
theorem checkLocalDomain_eq_ok (hc : c.WellFormed) (hs : s.Shaped c) :
    checkLocalDomain c.cluster s.localDomain.entries = .ok () ↔ Whole c s .localDomain := by
  have hnames : s.localDomain.names = c.domain.names := hs.names (.level .localDomain)
  have hmem : ∀ e ∈ s.localDomain.entries, e.1 ∈ c.domain.names := fun e he =>
    hnames ▸ List.mem_map_of_mem he
  have hsize : ∀ e ∈ s.localDomain.entries, s.size .localDomain e.1 = e.2 := fun e he =>
    DimVec.getD_of_mem_entries (hnames ▸ hc.nodup) he
  -- The check goes through the entries; with distinct names these are the sizes by name.
  have hcheck := @checkLocalDomain_eq c.cluster s.localDomain.entries
    (fun e he => hs.inRange (.level .localDomain) _ (List.mem_map_of_mem he))
    (fun e he => (hc.cluster_getD (hmem e he) 1).1)
  constructor
  · intro h dim hdim
    rw [← hnames] at hdim
    obtain ⟨e, he, rfl⟩ := List.mem_map.mp hdim
    split at hcheck
    · next hall =>
      rw [hsize e he]
      exact hall e he
    · obtain ⟨e, hfail⟩ := hcheck
      rw [h] at hfail
      cases hfail
  · intro h
    rw [if_pos fun e he => hsize e he ▸ h e.1 (hmem e he)] at hcheck
    exact hcheck

theorem getD_stepped_of_ne {l : Level} {dim stepDim : String} (h : dim ≠ stepDim) :
    ((s.stepped stepDim).sizes l).getD dim 0 = s.size l dim := by
  cases l <;> first | rfl | exact DimVec.getD_set_of_ne h

/-! ### Whole clusters -/

/-- A size vector has whole clusters in every domain dimension. -/
def Clustered (c : Catalog) (t : DimVec) : Prop :=
  ∀ dim ∈ c.domain.names, 0 < t.getD dim 0 ∧ c.cluster.getD dim 1 ∣ t.getD dim 0

section

variable {parent asked : DimVec} {label label' : String} {r : DimVec × CutReport}

/-- Tiles that are cut from whole clusters: what their entries come to. -/
theorem getD_of_tiled (hc : c.WellFormed) (hp : Clustered c parent)
    (hasked : asked.names = c.stencil.names)
    (h : cutInto parent label (clamped parent c.stepDim asked) label' c.cluster c.stepDim = .ok r) :
    r.1.getD c.stepDim 0 = asked.getD c.stepDim 0 ∧ ∀ dim ∈ c.domain.names, r.1.getD dim 0 =
      resolvedSize (parent.getD dim 0) (asked.getD dim 0) (c.cluster.getD dim 1) := by
  rw [cutInto_eq_map (fun d hd hne => ?_) h]
  · exact getD_cut hc hasked hp
  · rw [clamped, DimVec.names_map, hasked] at hd
    exact (hc.cluster_getD (mem_domain_of_mem_stencil hc hd hne) 1).1

/-- Then the tiles are whole clusters too, and the next level can be cut from them. -/
theorem Clustered.tiled (hp : Clustered c parent) (hc : c.WellFormed)
    (hasked : asked.names = c.stencil.names)
    (h : cutInto parent label (clamped parent c.stepDim asked) label' c.cluster c.stepDim = .ok r) :
    Clustered c r.1 := by
  intro dim hdim
  obtain ⟨hpos, hdvd⟩ := hp dim hdim
  rw [(getD_of_tiled hc hp hasked h).2 dim hdim]
  exact ⟨resolvedSize_pos (hc.cluster_getD hdim 1).1 hpos, dvd_resolvedSize hdvd⟩

end

theorem Slabs.names {block asked t : DimVec} {threads : Int} {dim : String}
    (h : Slabs c block asked threads t dim) : t.names = asked.names := by
  cases h with
  | single => rfl
  | given => rfl
  | slab => exact DimVec.names_set _ _ _

namespace Resolves

theorem size_localDomain (h : Resolves c s p) (dim : String) :
    p.sizes.size .localDomain dim = s.size .localDomain dim := by
  rw [size, sizes, h.localDomain_eq, size, sizes]

/-- Every level of tiles has whole clusters. -/
theorem whole (h : Resolves c s p) (hc : c.WellFormed) (hs : s.Shaped c) {l : Level}
    (hl : l ∈ Level.nested) : Whole c p.sizes l := by
  have hnames : ∀ m ≠ Level.localDomain,
      ((s.stepped c.stepDim).sizes m).names = c.stencil.names := fun m hm =>
    (stepped_fits hs hm).names
  have hlocal : Clustered c (p.sizes.sizes .localDomain) := fun dim hdim => by
    rw [sizes, h.localDomain_eq]
    exact (checkLocalDomain_eq_ok hc hs).mp h.checked dim hdim
  -- From the outside in, each level inherits whole clusters from the one around it.
  have hregion := hlocal.tiled hc (hnames .region (by decide)) h.region
  have hblock := hregion.tiled hc (hnames .block (by decide)) h.block
  have hmini := hblock.tiled hc (hnames .miniBlock (by decide)) h.miniBlock
  obtain ⟨asked, dim, hslabs, hsub, -⟩ := h.subBlock
  have hsub := hmini.tiled hc (hslabs.names.trans (hs.named .subBlock (by decide))) hsub
  cases l with
  | localDomain => exact hlocal
  | region => exact hregion
  | block => exact hblock
  | miniBlock => exact hmini
  | subBlock => exact hsub
  | _ => exact absurd hl (by decide)

/-- Each level of tiles lies inside the one around it. -/
theorem legalIn (h : Resolves c s p) (hc : c.WellFormed) (hs : s.Shaped c) {dim : String}
    (hdim : dim ∈ c.domain.names) : LegalIn c s p.sizes dim := by
  have hne := hc.ne_step hdim
  have hsize : ∀ {parent child report}, child ≠ .localDomain →
      parent ∈ Level.nested → p.Tiled c parent child ((s.stepped c.stepDim).sizes child) report →
        p.sizes.size child dim =
          resolvedSize (p.sizes.size parent dim) (s.size child dim) (c.cluster.getD dim 1) := by
    intro parent child report hchild hparent hcut
    have hget := (getD_of_tiled hc (h.whole hc hs hparent) (stepped_fits hs hchild).names hcut).2
      dim hdim
    rw [getD_stepped_of_ne hne] at hget
    exact hget
  -- The sub-blocks are cut from slabs or from what was asked for; either way they fit.
  obtain ⟨asked, d, hslabs, hcut, -⟩ := h.subBlock
  have hsub : p.sizes.size .subBlock dim =
      resolvedSize (p.sizes.size .miniBlock dim) (asked.getD dim 0) (c.cluster.getD dim 1) :=
    (getD_of_tiled hc (h.whole hc hs (l := .miniBlock) (by decide))
      (hslabs.names.trans (hs.named .subBlock (by decide))) hcut).2 dim hdim
  have hregion := hsize (by decide) (by decide) h.region
  have hblock := hsize (by decide) (by decide) h.block
  have hmini := hsize (by decide) (by decide) h.miniBlock
  refine ⟨h.size_localDomain dim, hregion, hblock, hmini, ⟨?_, ?_, ?_, ?_⟩, ?_, ?_⟩
  · exact hsub ▸ resolvedSize_le
  · exact hmini ▸ resolvedSize_le
  · exact hblock ▸ resolvedSize_le
  · exact hregion ▸ resolvedSize_le
  · exact (h.whole hc hs (l := .subBlock) (by decide) dim hdim).1
  · exact fun l hl => (h.whole hc hs hl dim hdim).2

/-- The step entries of the tiles are those that were made to nest. -/
theorem size_step (h : Resolves c s p) {l : Level} (hl : l ∈ [Level.region, .block, .miniBlock]) :
    p.sizes.size l c.stepDim = (s.stepped c.stepDim).size l c.stepDim := by
  have hstep : ∀ {parent child report},
      p.Tiled c parent child ((s.stepped c.stepDim).sizes child) report →
        p.sizes.size child c.stepDim = (s.stepped c.stepDim).size child c.stepDim :=
    fun hcut => (getD_step_cutInto hcut 0).trans (getD_step_clamped _ _ _ 0)
  simp only [List.mem_cons, List.not_mem_nil, or_false] at hl
  rcases hl with rfl | rfl | rfl
  · exact hstep h.region
  · exact hstep h.block
  · exact hstep h.miniBlock

end Resolves

/-! ### Groups -/

/-- The levels around a group: the one that holds it and the one whose tiles it groups. -/
def groupings : List (Level × Level × Level) :=
  [(.region, .blockGroup, .block), (.block, .miniBlockGroup, .miniBlock),
    (.miniBlock, .subBlockGroup, .subBlock)]

theorem of_mem_groupings {parent group tile : Level} (h : (parent, group, tile) ∈ groupings) :
    parent ∈ Level.nested ∧ tile ∈ Level.nested ∧ tile ≠ .localDomain ∧ group ≠ .localDomain ∧
      group ∈ [Level.blockGroup, .miniBlockGroup, .subBlockGroup] := by
  simp only [groupings, List.mem_cons, List.not_mem_nil, or_false, Prod.mk.injEq] at h
  rcases h with ⟨rfl, rfl, rfl⟩ | ⟨rfl, rfl, rfl⟩ | ⟨rfl, rfl, rfl⟩ <;> decide

/-- What is grouped lies inside the level that holds the group. -/
theorem Resolves.tile_le (h : Resolves c s p) (hc : c.WellFormed) (hs : s.Shaped c)
    {parent group tile : Level} (hmem : (parent, group, tile) ∈ groupings) {dim : String}
    (hdim : dim ∈ c.domain.names) : p.sizes.size tile dim ≤ p.sizes.size parent dim := by
  obtain ⟨hsub, hmini, hblock, -⟩ := (h.legalIn hc hs hdim).nested
  simp only [groupings, List.mem_cons, List.not_mem_nil, or_false, Prod.mk.injEq] at hmem
  rcases hmem with ⟨rfl, rfl, rfl⟩ | ⟨rfl, rfl, rfl⟩ | ⟨rfl, rfl, rfl⟩
  · exact hblock
  · exact hmini
  · exact hsub

/-! ### All that a resolution is -/

theorem stepped_nonneg {stepDim : String} {l : Level}
    (hl : l ∈ [Level.region, .block, .miniBlock]) : 0 ≤ (s.stepped stepDim).size l stepDim := by
  have hasked : ∀ t : DimVec, 0 ≤ max (t.getD stepDim 0) 0 := fun t => le_max_right _ _
  simp only [List.mem_cons, List.not_mem_nil, or_false] at hl
  rcases hl with rfl | rfl | rfl
  · exact getD_set_nonneg ((hasked _).trans (le_max_left _ _))
  · exact getD_set_nonneg (hasked _)
  · refine getD_set_nonneg ?_
    split
    · exact hasked _
    · exact hasked _

/-- A plan is what the settings resolve to exactly if it is the end of such a chain. -/
theorem resolve_eq_ok (hc : c.WellFormed) (hs : s.Shaped c) :
    ((s.resolve c).run v ()).result = .ok p ↔ Resolves c s p := by
  constructor
  · intro h
    exact (yields_resolve.mp (Task.yields_of_result h)).1
  · intro h
    have hvalid : p.validate = .ok () :=
      validate_eq_ok hc hs (fun dim hdim => h.legalIn hc hs hdim)
        (fun l hl => h.size_step hl ▸ stepped_nonneg hl) h.stepDim h.cluster
    exact (yields_resolve (v := v) (u := ()).mpr ⟨h, hvalid⟩).1

/-- There is one such plan at most. -/
theorem Resolves.unique {q : Plan} (h : Resolves c s p) (hc : c.WellFormed) (hs : s.Shaped c)
    (h' : Resolves c s q) : p = q := by
  have hp := (resolve_eq_ok (v := none) hc hs).mpr h
  have hq := (resolve_eq_ok (v := none) hc hs).mpr h'
  exact Except.ok.inj (hp.symm.trans hq)

/-- Unless the arithmetic overflows, whole clusters are resolved. -/
theorem exists_resolves (hc : c.WellFormed) (hs : s.Shaped c) (hw : Whole c s .localDomain)
    (hfits : ((s.resolve c).run v ()).result ≠ .error (.fault .arithmetic)) :
    ∃ p, Resolves c s p := by
  obtain ⟨p, hp, -⟩ := (gives_resolve hc hs hw ((checkLocalDomain_eq_ok hc hs).mpr hw)).exists_ok
    hfits
  exact ⟨p, (resolve_eq_ok hc hs).mp hp⟩

end StencilPlan.Settings
