import StencilPlan.Tiling.Resolution
import StencilPlan.Proofs.Arith.Rounding
import StencilPlan.Proofs.Dim.Catalog

/-!
# Cutting one level

A level is first cut down to the level around it and then rounded up to whole clusters. Rounding
up cannot climb over the parent again, because the parent is itself a multiple of the cluster; so
what a request comes to is `resolvedSize`, which does not mention the order of the two.

`IsCut` says what one step of the resolution does to the settings, and every such step gives it.
-/

namespace StencilPlan

/-- What a request comes to inside a parent: all of the parent if nothing is asked for, else the
request rounded up to whole clusters, as far as the parent reaches. -/
def resolvedSize (parent asked cluster : Int) : Int :=
  if asked ≤ 0 then parent else min parent (multipleAbove asked cluster)

section Sizes

variable {parent asked cluster : Int}

theorem resolvedSize_le : resolvedSize parent asked cluster ≤ parent := by
  unfold resolvedSize
  split
  · exact le_rfl
  · exact min_le_left _ _

theorem resolvedSize_pos (hc : 0 < cluster) (hp : 0 < parent) :
    0 < resolvedSize parent asked cluster := by
  unfold resolvedSize
  split
  · exact hp
  · have hle := le_multipleAbove (n := asked) hc
    omega

theorem dvd_resolvedSize (h : cluster ∣ parent) : cluster ∣ resolvedSize parent asked cluster := by
  unfold resolvedSize
  split
  · exact h
  · by_cases hle : parent ≤ multipleAbove asked cluster
    · rwa [min_eq_left hle]
    · rw [min_eq_right (by omega)]
      exact dvd_multipleAbove asked cluster

/-- Cutting down first and rounding up then comes to the same. -/
theorem multipleAbove_cut {cut : Int} (hc : 0 < cluster) (hp : 0 < parent) (h : cluster ∣ parent)
    (hcut : cut = if asked > parent then parent else asked) :
    multipleAbove (if cut ≤ 0 then parent else cut) cluster =
      resolvedSize parent asked cluster := by
  have hparent := multipleAbove_of_dvd hc h
  have hle := le_multipleAbove (n := asked) hc
  unfold resolvedSize
  by_cases hbig : asked > parent
  · rw [hcut, if_pos hbig, if_neg (by omega), hparent, if_neg (by omega), min_eq_left (by omega)]
  · rw [hcut, if_neg hbig]
    by_cases hask : asked ≤ 0
    · rw [if_pos hask, if_pos hask, hparent]
    · rw [if_neg hask, if_neg hask, min_eq_right (multipleAbove_le hc h (by omega))]

end Sizes

/-! ### The entries of a level -/

section Entries

variable {dim stepDim : String} {parent mults : DimVec} {es : List (String × Int)} {v : Verbosity}

theorem gives_coverCount (p n : Int) : Gives .arithmetic (coverCount p n) fun _ => True := by
  unfold coverCount
  split
  · exact gives_pure trivial
  · next hn =>
    refine Idx.gives_add.bind fun _ _ => Idx.gives_sub.bind fun _ _ => ?_
    refine (Idx.gives_div (by omega)).bind fun _ _ => ?_
    exact (Idx.gives_rem (by omega)).bind fun _ _ => gives_pure trivial

theorem gives_resolveDim {p asked mult : Int} :
    Gives .arithmetic (resolveDim dim p asked mult) fun d =>
      d.childExtent = multipleAbove (if asked ≤ 0 then p else asked) (max mult 1) := by
  unfold resolveDim
  refine (gives_roundUp_max _ _).bind fun size hsize => (gives_coverCount _ _).bind fun n _ => ?_
  obtain ⟨pieces, remainder⟩ := n
  dsimp only
  split
  · exact Idx.gives_sub.bind fun _ _ => gives_pure hsize
  · exact gives_pure hsize

/-- What an entry is rounded up to. -/
def roundedEntry (parent mults : DimVec) (stepDim dim : String) (asked : Int) : Int :=
  if dim = stepDim then asked
  else multipleAbove (if asked ≤ 0 then parent.getD dim 0 else asked) (mults.getD dim 1)

theorem gives_resolveEntries (hm : ∀ e ∈ es, e.1 ≠ stepDim → 0 < mults.getD e.1 1) (total : Int) :
    Gives .arithmetic (resolveEntries parent mults stepDim total es) fun r =>
      r.1 = es.map fun e => (e.1, roundedEntry parent mults stepDim e.1 e.2) := by
  induction es generalizing total with
  | nil => exact gives_pure rfl
  | cons e es ih =>
    obtain ⟨dim, asked⟩ := e
    have hrest := ih fun e he => hm e (by simp [he])
    rw [resolveEntries]
    split
    · next hstep =>
      refine (hrest total).bind fun r hr => gives_pure ?_
      rw [List.map_cons, roundedEntry, if_pos hstep, ← hr]
    · next hstep =>
      refine gives_resolveDim.bind fun d hd => ?_
      -- With a positive multiple the lower bound of one on it makes no difference.
      rw [max_eq_left (hm (dim, asked) (by simp) hstep)] at hd
      refine Idx.gives_mul.bind fun n _ => (hrest n).bind fun r hr => gives_pure ?_
      rw [List.map_cons, roundedEntry, if_neg hstep, ← hr, hd]

theorem gives_cutTiles {child : DimVec} {label label' : String}
    (hm : ∀ d ∈ child.names, d ≠ stepDim → 0 < mults.getD d 1) :
    (cutTiles parent label child label' mults stepDim).Gives v fun r =>
      r.1 = child.map (roundedEntry parent mults stepDim) := by
  have hentries := @gives_resolveEntries stepDim parent mults child.entries
    (fun e he => hm e.1 (List.mem_map_of_mem he)) 1
  have hcut : Gives .arithmetic (cutInto parent label child label' mults stepDim) fun r =>
      r.1 = child.map (roundedEntry parent mults stepDim) :=
    hentries.bind fun r hr => gives_pure (by rw [hr]; rfl)
  refine (Task.gives_checked hcut).bind fun r hr => ?_
  exact (Task.gives_note _ _).bind fun _ _ => Task.gives_pure hr

/-- What an entry is cut down to. -/
def clampedEntry (parent : DimVec) (stepDim dim : String) (asked : Int) : Int :=
  if dim ≠ stepDim ∧ parent.getD dim 0 > 0 ∧ asked > parent.getD dim 0 then parent.getD dim 0
  else asked

theorem gives_clampEntries {level : Level} :
    (clampEntries parent level stepDim es).Gives v fun r =>
      r = es.map fun e => (e.1, clampedEntry parent stepDim e.1 e.2) := by
  induction es with
  | nil => exact Task.gives_pure rfl
  | cons e es ih =>
    obtain ⟨dim, asked⟩ := e
    rw [clampEntries]
    -- Whether the entry was clamped with a warning or left as it is, the rest goes on the same way.
    have hentry : ∀ size, size = clampedEntry parent stepDim dim asked →
        (pure size >>= fun size => clampEntries parent level stepDim es >>= fun rest =>
          pure ((dim, size) :: rest) : Task Unit _).Gives v fun r =>
            r = ((dim, asked) :: es).map fun e => (e.1, clampedEntry parent stepDim e.1 e.2) := by
      intro size hsize
      rw [hsize]
      refine (Task.gives_pure (P := (· = clampedEntry parent stepDim dim asked)) rfl).bind ?_
      refine fun size hsize => ih.bind fun rest hrest => Task.gives_pure ?_
      rw [hsize, hrest, List.map_cons]
    dsimp only
    split
    · next hbig =>
      refine (Task.gives_note _ _).bind fun _ _ => hentry _ ?_
      rw [clampedEntry, if_pos hbig]
    · next hsmall => exact hentry _ (by rw [clampedEntry, if_neg hsmall])

end Entries

namespace Settings

variable {c : Catalog} {s s' : Settings} {parent child : Level} {v : Verbosity}

/-- The size of a level in a dimension. -/
def size (s : Settings) (l : Level) (dim : String) : Int := (s.sizes l).getD dim 0

/-- The level has whole clusters in every domain dimension. -/
def Whole (c : Catalog) (s : Settings) (l : Level) : Prop :=
  ∀ dim ∈ c.domain.names, 0 < s.size l dim ∧ c.cluster.getD dim 1 ∣ s.size l dim

instance (c : Catalog) (s : Settings) (l : Level) : Decidable (Whole c s l) :=
  inferInstanceAs (Decidable (∀ dim ∈ c.domain.names, _ ∧ _))

/-- A level was resolved inside another one, and nothing else was done. -/
structure IsCut (c : Catalog) (s : Settings) (parent child : Level) (s' : Settings) : Prop where
  other : ∀ l ≠ child, s'.sizes l = s.sizes l
  names : (s'.sizes child).names = c.stencil.names
  step : s'.size child c.stepDim = s.size child c.stepDim
  size : ∀ dim ∈ c.domain.names, s'.size child dim =
    resolvedSize (s.size parent dim) (s.size child dim) (c.cluster.getD dim 1)

theorem mem_domain_of_mem_stencil (hc : c.WellFormed) {dim : String}
    (h : dim ∈ c.stencil.names) (hne : dim ≠ c.stepDim) : dim ∈ c.domain.names := by
  rw [hc.stencil] at h
  exact (List.mem_cons.mp h).resolve_left hne

/-- The entries of a level that was cut down to its parent and then rounded up. -/
theorem getD_cut {t p : DimVec} (hc : c.WellFormed) (ht : t.names = c.stencil.names)
    (hp : ∀ dim ∈ c.domain.names, 0 < p.getD dim 0 ∧ c.cluster.getD dim 1 ∣ p.getD dim 0) :
    ((t.map (clampedEntry p c.stepDim)).map (roundedEntry p c.cluster c.stepDim)).getD c.stepDim 0 =
        t.getD c.stepDim 0 ∧
      ∀ dim ∈ c.domain.names,
        ((t.map (clampedEntry p c.stepDim)).map (roundedEntry p c.cluster c.stepDim)).getD dim 0 =
          resolvedSize (p.getD dim 0) (t.getD dim 0) (c.cluster.getD dim 1) := by
  have hget : ∀ dim ∈ c.stencil.names,
      ((t.map (clampedEntry p c.stepDim)).map (roundedEntry p c.cluster c.stepDim)).getD dim 0 =
        roundedEntry p c.cluster c.stepDim dim
          (clampedEntry p c.stepDim dim (t.getD dim 0)) := by
    intro dim hdim
    rw [DimVec.getD_map (by rwa [DimVec.names_map, ht]), DimVec.getD_map (by rwa [ht])]
  constructor
  · rw [hget _ (by rw [hc.stencil]; simp), roundedEntry, if_pos rfl, clampedEntry,
      if_neg (by simp)]
  · intro dim hdim
    have hne : dim ≠ c.stepDim := fun heq => hc.step_notMem (heq ▸ hdim)
    obtain ⟨hpos, hdvd⟩ := hp dim hdim
    -- Rounding up what was cut down to whole clusters does not leave the parent.
    rw [hget _ (by rw [hc.stencil]; simp [hdim]), roundedEntry, if_neg hne]
    refine multipleAbove_cut (hc.cluster_getD hdim 1).1 hpos hdvd ?_
    rw [clampedEntry]
    exact if_congr ⟨fun h => h.2.2, fun h => ⟨hne, hpos, h⟩⟩ rfl rfl

/-- The resolved level is whole again, so that the next one can be cut from it. -/
theorem IsCut.whole (h : IsCut c s parent child s') (hc : c.WellFormed)
    (hw : Whole c s parent) : Whole c s' child := by
  intro dim hdim
  obtain ⟨hpos, hdvd⟩ := hw dim hdim
  rw [h.size dim hdim]
  exact ⟨resolvedSize_pos (hc.cluster_getD hdim 1).1 hpos, dvd_resolvedSize hdvd⟩

theorem gives_cutLevel (hc : c.WellFormed) (hw : Whole c s parent)
    (hnames : (s.sizes child).names = c.stencil.names) :
    (s.cutLevel parent child c.cluster c.stepDim).Gives v fun r =>
      IsCut c s parent child r.1 := by
  unfold cutLevel
  refine gives_clampEntries.bind fun clamped hclamped => ?_
  have hclamp : (⟨clamped⟩ : DimVec) =
      (s.sizes child).map (clampedEntry (s.sizes parent) c.stepDim) := by
    rw [hclamped, DimVec.map]
  rw [hclamp]
  refine (gives_cutTiles fun d hd hne => ?_).bind fun r hr => Task.gives_pure ?_
  · rw [DimVec.names_map, hnames] at hd
    exact (hc.cluster_getD (mem_domain_of_mem_stencil hc hd hne) 1).1
  · -- Clamping and rounding act entry by entry, so one lemma reads both off.
    obtain ⟨hstep, hsize⟩ := getD_cut hc hnames hw
    constructor
    · exact fun l hl => sizes_withSizes_of_ne s r.1 hl
    · rw [sizes_withSizes, hr, DimVec.names_map, DimVec.names_map, hnames]
    · rw [Settings.size, sizes_withSizes, hr, hstep, Settings.size]
    · intro dim hdim
      rw [Settings.size, sizes_withSizes, hr, hsize dim hdim, Settings.size, Settings.size]

/-- Groups are cut as well, from whole tiles of the level that they group. -/
theorem gives_cutGroup {group grouped : Level} (hc : c.WellFormed) (hw : Whole c s grouped)
    (hnames : (s.sizes group).names = c.stencil.names)
    (hgrouped : (s.sizes grouped).names = c.stencil.names) :
    (s.cutGroup parent group grouped c.stepDim).Gives v fun r =>
      ∀ l ≠ group, r.1.sizes l = s.sizes l := by
  unfold cutGroup
  refine (gives_cutTiles fun d hd hne => ?_).bind fun r _ => Task.gives_pure ?_
  · rw [DimVec.names_map, hnames] at hd
    have hmem : d ∈ (s.sizes grouped).names := hgrouped ▸ hd
    obtain ⟨x, hx⟩ := Option.isSome_iff_exists.mp (DimVec.isSome_get?_iff.mpr hmem)
    have hpos := (hw d (mem_domain_of_mem_stencil hc hd hne)).1
    rw [Settings.size, DimVec.getD, hx] at hpos
    rw [DimVec.getD, hx]
    exact hpos
  · exact fun l hl => sizes_withSizes_of_ne s r.1 hl

end Settings

end StencilPlan
