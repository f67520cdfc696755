import Mathlib.Algebra.Order.BigOperators.Group.List
import StencilPlan.Proofs.Tiling.Binding
import StencilPlan.Proofs.Tiling.Levels

/-!
# Settings that are resolved already

What a resolution comes to can be resolved again, as when settings are saved and read back. Every
request of the second pass is a size of the first: the steps nest by then, no level has to be cut
down, no group is unset, and the sub-blocks have a size, so no slabs are made of them. What is left
are the cuts, and a cut that is made again changes nothing.
-/

namespace StencilPlan

namespace Settings

variable {c : Catalog} {v w : Verbosity} {s : Settings} {p q : Plan}

theorem nodup_stencil (hc : c.WellFormed) : c.stencil.names.Nodup := by
  rw [hc.stencil]
  exact List.nodup_cons.mpr ⟨hc.step_notMem, hc.nodup⟩

/-- A vector over step and domain dimensions, value by value. -/
theorem values_stencil (hc : c.WellFormed) {t : DimVec} (ht : t.names = c.stencil.names) :
    t.values = t.getD c.stepDim 0 :: c.domain.names.map fun dim => t.getD dim 0 := by
  rw [← DimVec.map_getD_names (ht ▸ nodup_stencil hc) 0, ht, hc.stencil, List.map_cons]

/-! ### Requests that stay as they are -/

/-- Steps that were made to nest once nest. -/
theorem stepped_stepped (hc : c.WellFormed) (hs : s.Shaped c) {t : Settings}
    (ht : ∀ l ∈ [Level.region, .block, .miniBlock],
      t.size l c.stepDim = (s.stepped c.stepDim).size l c.stepDim) :
    t.stepped c.stepDim = t := by
  have hstep : ∀ l ≠ Level.localDomain, c.stepDim ∈ (s.sizes l).names := fun l hl => by
    rw [hs.named l hl, hc.stencil]
    exact List.mem_cons_self
  have hregion : t.region.getD c.stepDim 0 = _ :=
    (ht .region (by simp)).trans (DimVec.getD_set_self (hstep .region (by decide)))
  have hblock : t.block.getD c.stepDim 0 = _ :=
    (ht .block (by simp)).trans (DimVec.getD_set_self (hstep .block (by decide)))
  have hmini : t.miniBlock.getD c.stepDim 0 = _ :=
    (ht .miniBlock (by simp)).trans (DimVec.getD_set_self (hstep .miniBlock (by decide)))
  dsimp only at hregion hblock hmini
  -- a mini-block either follows its block by now or spans fewer steps
  have hfollows : ∀ b mb x : Int, 0 ≤ b → 0 ≤ mb →
      x = (if mb = 0 ∨ b > 0 ∧ mb > b then b else mb) →
      (if max x 0 = 0 ∨ max b 0 > 0 ∧ max x 0 > max b 0 then max b 0 else max x 0) = x := by
    intro b mb x hb hmb hx
    split at hx <;> split <;> omega
  -- each of the three entries is written back as it is read
  have hset : ∀ {u : DimVec} {n : Int}, n = u.getD c.stepDim 0 → u.set c.stepDim n = u := by
    rintro u _ rfl
    exact u.set_getD_self c.stepDim 0
  unfold stepped
  dsimp only
  rw [hset, hset, hset]
  · have h := hfollows _ _ _ (le_max_right _ _) (le_max_right _ _) hmini
    rwa [← hblock] at h
  · omega
  · omega

section

variable {parent t : DimVec}

theorem clamped_eq_self (hc : c.WellFormed) (ht : t.names = c.stencil.names)
    (h : ∀ dim ∈ c.domain.names, t.getD dim 0 ≤ parent.getD dim 0) :
    clamped parent c.stepDim t = t := by
  refine DimVec.map_eq_self (w := 0) (ht ▸ nodup_stencil hc) fun dim hdim => ?_
  rw [clampedEntry, if_neg]
  rintro ⟨hne, -, hbig⟩
  have hle := h dim (mem_domain_of_mem_stencil hc (ht ▸ hdim) hne)
  omega

theorem groupAsked_eq_self (hc : c.WellFormed) (ht : t.names = c.stencil.names)
    (h : ∀ dim ∈ c.domain.names, 0 < t.getD dim 0) : groupAsked c.stepDim t = t := by
  refine DimVec.map_eq_self (w := 0) (ht ▸ nodup_stencil hc) fun dim hdim => ?_
  rw [if_neg]
  rintro ⟨hne, hzero⟩
  have hpos := h dim (mem_domain_of_mem_stencil hc (ht ▸ hdim) hne)
  omega

section Grouped

variable {asked tile : DimVec} {label label' : String} {r : DimVec × CutReport} {dim : String}

/-- The entries of a group are whole tiles. -/
theorem getD_of_grouped (hc : c.WellFormed) (hasked : asked.names = c.stencil.names)
    (htile : tile.names = c.stencil.names) (hpos : ∀ dim ∈ c.domain.names, 0 < tile.getD dim 0)
    (h : cutInto parent label (groupAsked c.stepDim asked) label' tile c.stepDim = .ok r)
    (hdim : dim ∈ c.domain.names) :
    r.1.getD dim 0 = multipleAbove
      (if (groupAsked c.stepDim asked).getD dim 0 ≤ 0 then parent.getD dim 0
        else (groupAsked c.stepDim asked).getD dim 0) (tile.getD dim 0) := by
  have hnames : (groupAsked c.stepDim asked).names = c.stencil.names :=
    (DimVec.names_map _ _).trans hasked
  have hmult : ∀ d ∈ c.domain.names, tile.getD d 1 = tile.getD d 0 := fun d hd =>
    tile.getD_eq_getD (htile ▸ hc.mem_stencil hd) 1 0
  rw [cutInto_eq_map (fun d hd hne => ?_) h, DimVec.getD_map (hnames ▸ hc.mem_stencil hdim),
    roundedEntry, if_neg (hc.ne_step hdim), hmult dim hdim]
  have hmem := mem_domain_of_mem_stencil hc (hnames ▸ hd) hne
  rw [hmult d hmem]
  exact hpos d hmem

/-- A group holds at least one tile in each dimension. -/
theorem pos_of_grouped (hc : c.WellFormed) (hasked : asked.names = c.stencil.names)
    (htile : tile.names = c.stencil.names)
    (hparent : ∀ dim ∈ c.domain.names, 0 < parent.getD dim 0)
    (hpos : ∀ dim ∈ c.domain.names, 0 < tile.getD dim 0)
    (h : cutInto parent label (groupAsked c.stepDim asked) label' tile c.stepDim = .ok r)
    (hdim : dim ∈ c.domain.names) : 0 < r.1.getD dim 0 := by
  rw [getD_of_grouped hc hasked htile hpos h hdim]
  have hbase := hparent dim hdim
  generalize (groupAsked c.stepDim asked).getD dim 0 = size
  have hle := le_multipleAbove (n := if size ≤ 0 then parent.getD dim 0 else size) (hpos dim hdim)
  refine Int.lt_of_lt_of_le ?_ hle
  split <;> omega

end Grouped

end

/-! ### Sub-blocks that have a size -/

theorem step_of_slabs {block asked t : DimVec} {threads : Int} {dim : String} (hc : c.WellFormed)
    (h : Slabs c block asked threads t dim) : t.getD c.stepDim 0 = asked.getD c.stepDim 0 := by
  cases h with
  | single => rfl
  | given => rfl
  | slab _ _ hdim =>
    exact DimVec.getD_set_of_ne (hc.ne_step (mem_domain_of_dimByClusters hc hdim)).symm

/-- Resolved sub-blocks do not look as if no size was given. -/
theorem Resolves.sum_subBlock_pos (h : Resolves c s p) (hc : c.WellFormed) (hs : s.Shaped c)
    (hstep : s.Stepless c) {total : Int} (hsum : p.sizes.subBlock.sum = .ok total) : 0 < total := by
  obtain ⟨asked, dim, hslabs, hcut, -⟩ := h.subBlock
  have hfits := h.fits hc hs (l := .subBlock) (by decide)
  have hzero : p.sizes.subBlock.getD c.stepDim 0 = 0 := by
    have hkept := (getD_of_tiled hc (h.whole hc hs (l := .miniBlock) (by decide))
      (hslabs.names.trans (hs.named .subBlock (by decide))) hcut).1
    rw [step_of_slabs hc hslabs] at hkept
    exact hkept.trans (hstep .subBlock (by decide) rfl)
  -- the values are that of the steps and then the positive ones of the domain
  have hvalues := values_stencil hc (t := p.sizes.subBlock) hfits.names
  rw [Idx.sum_eq_ok hsum, hvalues, List.sum_cons, hzero, Int.zero_add]
  refine List.sum_pos _ (fun n hn => ?_) ?_
  · obtain ⟨d, hd, rfl⟩ := List.mem_map.mp hn
    exact (h.whole hc hs (l := .subBlock) (by decide) d hd).1
  · rw [ne_eq, List.map_eq_nil_iff]
    intro hnil
    have houter := hc.outer
    rw [hnil] at houter
    cases houter

/-! ### The second pass -/

/-- The settings of a plan, with the tiles of a plan that has the same ones. -/
theorem withTilesOf_eq_self {t u : Settings}
    (h : ∀ l ≠ Level.localDomain, u.sizes l = t.sizes l) : t.withTilesOf u = t := by
  have hregion := h .region (by decide)
  have hblock := h .block (by decide)
  have hmini := h .miniBlock (by decide)
  have hsub := h .subBlock (by decide)
  have hgroup := h .blockGroup (by decide)
  have hmgroup := h .miniBlockGroup (by decide)
  have hsgroup := h .subBlockGroup (by decide)
  simp only [sizes] at hregion hblock hmini hsub hgroup hmgroup hsgroup
  rw [withTilesOf, hregion, hblock, hmini, hsub, hgroup, hmgroup, hsgroup]

section

variable {parent child tile group : Level} {asked : DimVec} {report report' : CutReport}

/-- A level of tiles is cut from the same one again, and nothing has to be cut down. -/
theorem Resolves.tiled_again (h : Resolves c s p) (hc : c.WellFormed) (hs : s.Shaped c)
    (hparent : q.sizes.sizes parent = p.sizes.sizes parent) (hchild : child ≠ .localDomain)
    (hle : ∀ dim ∈ c.domain.names, p.sizes.size child dim ≤ p.sizes.size parent dim)
    (hcut : p.Tiled c parent child asked report)
    (hcut' : q.Tiled c parent child (p.sizes.sizes child) report') :
    q.sizes.sizes child = p.sizes.sizes child ∧ report' = report := by
  have hsame : clamped (p.sizes.sizes parent) c.stepDim (p.sizes.sizes child) =
      p.sizes.sizes child := clamped_eq_self hc (h.fits hc hs hchild).names hle
  unfold Plan.Tiled Plan.Cuts at hcut hcut'
  rw [hparent, hsame] at hcut'
  exact Prod.mk.inj (cutInto_again hcut hcut')

/-- A group is made of the same tiles again, and it is not unset. -/
theorem Resolves.grouped_again (h : Resolves c s p) (hc : c.WellFormed) (hs : s.Shaped c)
    (hparent : q.sizes.sizes parent = p.sizes.sizes parent)
    (htile : q.sizes.sizes tile = p.sizes.sizes tile)
    (hmem : (parent, group, tile) ∈ groupings) (hasked : asked.names = c.stencil.names)
    (hcut : p.Grouped c parent group tile asked report)
    (hcut' : q.Grouped c parent group tile (p.sizes.sizes group) report') :
    q.sizes.sizes group = p.sizes.sizes group ∧ report' = report := by
  obtain ⟨hnested, hnested', hne, hgroup, -⟩ := of_mem_groupings hmem
  have hpos : ∀ l ∈ Level.nested, ∀ dim ∈ c.domain.names, 0 < (p.sizes.sizes l).getD dim 0 :=
    fun l hl dim hdim => (h.whole hc hs hl dim hdim).1
  unfold Plan.Grouped Plan.Cuts at hcut hcut'
  -- A group that was resolved has a size, so asking for it is asking for just that.
  have hsame : groupAsked c.stepDim (p.sizes.sizes group) = p.sizes.sizes group :=
    groupAsked_eq_self hc (h.fits hc hs hgroup).names fun dim hdim =>
      pos_of_grouped hc hasked (h.fits hc hs hne).names (hpos _ hnested) (hpos _ hnested') hcut hdim
  rw [hparent, htile, hsame] at hcut'
  exact Prod.mk.inj (cutInto_again hcut hcut')

end

/-- A second pass comes to the same tiles, and it never makes slabs. -/
theorem Resolves.again (h : Resolves c s p) (h' : Resolves c p.sizes q) (hc : c.WellFormed)
    (hs : s.Shaped c) (hstep : s.Stepless c) :
    q.sizes = p.sizes ∧ q.counts = p.counts ∧ SplitAs c p.sizes q c.outerDim := by
  have hnested := fun {dim : String} (hdim : dim ∈ c.domain.names) => (h.legalIn hc hs hdim).nested
  have hstepped : p.sizes.stepped c.stepDim = p.sizes :=
    stepped_stepped hc hs fun l hl => h.size_step hl
  have hlocal : q.sizes.sizes .localDomain = p.sizes.sizes .localDomain := h'.localDomain_eq
  -- A level that fits into the one around it and has whole clusters is cut to what it is.
  have hregion := h.tiled_again hc hs hlocal (by decide) (fun dim hdim => (hnested hdim).2.2.2)
    h.region (hstepped ▸ h'.region)
  have hblock := h.tiled_again hc hs hregion.1 (by decide) (fun dim hdim => (hnested hdim).2.2.1)
    h.block (hstepped ▸ h'.block)
  have hmini := h.tiled_again hc hs hblock.1 (by decide) (fun dim hdim => (hnested hdim).2.1)
    h.miniBlock (hstepped ▸ h'.miniBlock)
  -- the sub-blocks have a size, so they are asked for as they are
  obtain ⟨asked, dim, hslabs, hcut, hsplit⟩ := h'.subBlock
  obtain ⟨asked₁, dim₁, hslabs₁, hcut₁, -⟩ := h.subBlock
  have hasked : asked = p.sizes.subBlock ∧ dim = c.outerDim := by
    cases hslabs with
    | single => exact ⟨rfl, rfl⟩
    | given => exact ⟨rfl, rfl⟩
    | slab _ hsum => exact absurd (h.sum_subBlock_pos hc hs hstep hsum) (by decide)
  obtain ⟨rfl, rfl⟩ := hasked
  have hsub := h.tiled_again hc hs hmini.1 (by decide) (fun dim hdim => (hnested hdim).1) hcut₁ hcut
  have hgroup := h.grouped_again hc hs hregion.1 hblock.1 (by decide)
    (hs.named .blockGroup (by decide)) h.blockGroup h'.blockGroup
  have hmgroup := h.grouped_again hc hs hblock.1 hmini.1 (by decide)
    (hs.named .miniBlockGroup (by decide)) h.miniBlockGroup h'.miniBlockGroup
  have hsgroup := h.grouped_again hc hs hmini.1 hsub.1 (by decide)
    (hs.named .subBlockGroup (by decide)) h.subBlockGroup h'.subBlockGroup
  refine ⟨?_, ?_, hsplit⟩
  · rw [← h'.rest]
    refine withTilesOf_eq_self fun l hl => ?_
    cases l with
    | localDomain => exact absurd rfl hl
    | region => exact hregion.1
    | block => exact hblock.1
    | miniBlock => exact hmini.1
    | subBlock => exact hsub.1
    | blockGroup => exact hgroup.1
    | miniBlockGroup => exact hmgroup.1
    | subBlockGroup => exact hsgroup.1
  · -- The counts are given by fields, so they are equal if all seven are.
    have hext : ∀ m n : TileCounts, m.regions = n.regions → m.blocks = n.blocks →
        m.miniBlocks = n.miniBlocks → m.subBlocks = n.subBlocks → m.blockGroups = n.blockGroups →
        m.miniBlockGroups = n.miniBlockGroups → m.subBlockGroups = n.subBlockGroups → m = n := by
      rintro ⟨⟩ ⟨⟩ rfl rfl rfl rfl rfl rfl rfl
      rfl
    exact hext _ _ hregion.2 hblock.2 hmini.2 hsub.2 hgroup.2 hmgroup.2 hsgroup.2

/-- What settings resolve to resolves to itself, with the same numbers of tiles. -/
theorem resolve_resolved (hc : c.Built) (hs : s.Reachable c)
    (hp : ((s.resolve c).run v ()).result = .ok p)
    (hfits : ((p.sizes.resolve c).run w ()).result ≠ .error (.fault .arithmetic)) :
    ∃ q, ((p.sizes.resolve c).run w ()).result = .ok q ∧ q.sizes = p.sizes ∧
      q.counts = p.counts := by
  have hw := hc.wellFormed
  have h := (resolve_eq_ok hw hs.shaped).mp hp
  have hshaped := h.shaped hw hs.shaped
  obtain ⟨q, hq⟩ := exists_resolves hw hshaped (h.whole hw hs.shaped (by decide)) hfits
  obtain ⟨hsizes, hcounts, -⟩ := h.again hq hw hs.shaped (hs.stepless hw)
  exact ⟨q, (resolve_eq_ok hw hshaped).mpr hq, hsizes, hcounts⟩

end Settings

namespace Slabbed

/-- Three dimensions without a fold. -/
def catalog : Catalog := (Catalog.declare "t" ["x", "y", "z"] []).toOption.getD default

/-- The settings after some options. -/
def after (options : List (String × String)) : Settings :=
  options.foldl (fun s o => ((Settings.setOption catalog o.1 o.2).run none s).state)
    (.initial catalog 1)

/-- Four threads share a block that is two points thick along the outermost dimension, and nobody
says how large a sub-block is. -/
def options : List (String × String) := [("l", "64"), ("bx", "2"), ("block_threads", "4")]

theorem built : catalog.Built :=
  .declare (show Catalog.declare "t" ["x", "y", "z"] [] = .ok catalog by decide +kernel)

theorem reachable_after (options : List (String × String)) : (after options).Reachable catalog :=
  List.foldlRecOn (motive := Settings.Reachable catalog) options _ (.initial 1)
    fun _ hs o _ => .option hs o.1 o.2 none

end Slabbed

/-- The slabs that the first pass made are sub-blocks of that size for the second one. -/
theorem resolve_resolved_slabbed : ∃ p q,
    (((Slabbed.after (("bt", "3") :: Slabbed.options)).resolve Slabbed.catalog).run
      none ()).result = .ok p ∧
      p.sizes.size .subBlock "y" = 1 ∧ p.sizes.size .region "t" = 3 ∧
      ((p.sizes.resolve Slabbed.catalog).run none ()).result = .ok q ∧ q.sizes = p.sizes ∧
      q.counts = p.counts := by
  obtain ⟨p, hp, hcheck⟩ := exists_eq_ok_of_any
    (x := (((Slabbed.after (("bt", "3") :: Slabbed.options)).resolve Slabbed.catalog).run
      none ()).result)
    (p := fun p => decide (p.sizes.size .subBlock "y" = 1) &&
      decide (p.sizes.size .region "t" = 3) &&
      ((p.sizes.resolve Slabbed.catalog).run none ()).result.toOption.isSome) (by decide +kernel)
  simp only [Bool.and_eq_true, decide_eq_true_eq] at hcheck
  obtain ⟨⟨hslab, hsteps⟩, hagain⟩ := hcheck
  -- That the second pass does not overflow is checked; the rest is the theorem.
  obtain ⟨q, hq, hsame⟩ := Settings.resolve_resolved (w := none) Slabbed.built
    (Slabbed.reachable_after _) hp fun hfault => by
      rw [hfault] at hagain
      cases hagain
  exact ⟨p, q, hp, hslab, hsteps, hq, hsame⟩

end StencilPlan
