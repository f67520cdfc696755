import StencilPlan.Proofs.Settings.Parts
import StencilPlan.Proofs.Settings.Reachable
import StencilPlan.Proofs.Tiling.Cut

/-!
# Where the resolution lands

The local domain is checked first, and that check is the only one that can refuse a caller's
settings. From a local domain of whole clusters every level is cut inside the one around it, so at
the end all of them nest and are whole clusters, and the validation that closes the resolution has
nothing to find.
-/

namespace StencilPlan

variable {c : Catalog} {v : Verbosity}

/-! ### Checks -/

section Checks

variable {cluster : DimVec} {es : List (String × Int)}

/-- The local domain passes exactly if it has whole clusters, and the check never faults. -/
theorem checkLocalDomain_eq (hrange : ∀ e ∈ es, Idx.InRange e.2)
    (hcluster : ∀ e ∈ es, 0 < cluster.getD e.1 1) :
    if ∀ e ∈ es, 0 < e.2 ∧ cluster.getD e.1 1 ∣ e.2
    then Settings.checkLocalDomain cluster es = .ok ()
    else ∃ e, Settings.checkLocalDomain cluster es = .error (.tiling e) := by
  induction es with
  | nil => simp [Settings.checkLocalDomain, pure, Except.pure]
  | cons e es ih =>
    obtain ⟨dim, size⟩ := e
    have hrem := Idx.rem_of_pos (hrange _ List.mem_cons_self) (hcluster _ List.mem_cons_self)
    have hrest := ih (fun e he => hrange e (by simp [he])) fun e he => hcluster e (by simp [he])
    simp only [List.forall_mem_cons, Settings.checkLocalDomain]
    -- The first entry fails for its sign or its remainder, or the check goes on with the others.
    by_cases hsize : size ≤ 0
    · rw [if_neg fun h => absurd h.1.1 (by omega), if_pos hsize]
      exact ⟨_, rfl⟩
    · rw [if_neg hsize]
      by_cases hdvd : cluster.getD dim 1 ∣ size
      · have hzero : size.tmod (cluster.getD dim 1) = 0 := Int.tmod_eq_zero_of_dvd hdvd
        simp only [hrem, hzero, hdvd, and_true, show 0 < size by omega, true_and]
        exact hrest
      · have hne : size.tmod (cluster.getD dim 1) ≠ 0 := fun h =>
          hdvd (Int.dvd_of_tmod_eq_zero h)
        rw [if_neg fun h => hdvd h.1.2]
        simp only [hrem]
        exact ⟨_, by simp [liftM, monadLift, MonadLift.monadLift, bind, Except.bind, hne]; rfl⟩

/-- Levels that nest and are whole clusters pass the validation. -/
theorem validateLevels_eq_ok {s : Settings} {dim : String} {points : Int} (hp : 0 < points)
    {ls : List Level} {outer : Option (Level × Int)}
    (hls : ∀ l ∈ ls, 0 < s.size l dim ∧ points ∣ s.size l dim ∧ Idx.InRange (s.size l dim))
    (hnest : ls.Pairwise fun o i => s.size i dim ≤ s.size o dim)
    (houter : ∀ o ∈ outer, ∀ l ∈ ls, s.size l dim ≤ o.2) :
    Plan.validateLevels s dim points outer ls = .ok () := by
  -- Each level becomes the outer one of the next; that they nest pairwise covers both.
  induction ls generalizing outer with
  | nil => rfl
  | cons l ls ih =>
    obtain ⟨⟨hpos, hdvd, hrange⟩, hls⟩ := List.forall_mem_cons.mp hls
    obtain ⟨hfirst, hnest⟩ := List.pairwise_cons.mp hnest
    have hrest := @ih (some (l, s.size l dim)) hls hnest (by simpa using hfirst)
    have hrem := Idx.rem_of_pos hrange hp
    rw [Int.tmod_eq_zero_of_dvd hdvd] at hrem
    have hfit : ∀ o ∈ outer, ¬ s.size l dim > o.2 := fun o ho => by
      have hle := houter o ho l (by simp)
      omega
    simp only [Settings.size] at hpos hrem hfit hrest
    rw [Plan.validateLevels, if_neg (by omega), hrem]
    cases outer with
    | none => exact hrest
    | some o =>
      obtain ⟨ol, osize⟩ := o
      have hle := hfit (ol, osize) rfl
      simp only [liftM, monadLift, MonadLift.monadLift, bind, Except.bind] at hrest ⊢
      simpa [hle] using hrest

end Checks

/-! ### The choice of a dimension for threads -/

theorem gives_firstOuterDim? {test : DimPlace → Checked Bool} {ds : List DimPlace}
    (h : ∀ d ∈ ds, Gives .arithmetic (test d) fun _ => True) :
    Gives .arithmetic (firstOuterDim? c test ds) fun _ => True := by
  induction ds with
  | nil => exact gives_pure trivial
  | cons d ds ih =>
    have hrest := ih fun d hd => h d (by simp [hd])
    rw [firstOuterDim?]
    dsimp only
    split
    · refine (h d (by simp)).bind fun b _ => ?_
      split
      · exact gives_pure trivial
      · exact hrest
    · exact hrest

theorem gives_dimByClusters (hc : c.WellFormed) (block : DimVec) (threads : Int) :
    Gives .arithmetic (dimByClusters c block threads) fun _ => True := by
  refine (gives_firstOuterDim? fun d hd => ?_).bind fun _ _ => gives_pure trivial
  obtain ⟨hi, -⟩ := List.getElem?_eq_some_iff.mp (Catalog.mem_dimPlaces.mp hd).1
  have hlen : d.domainIndex < c.cluster.values.length := by
    rw [DimVec.length_values, ← DimVec.length_names, hc.cluster.names]
    exact hi
  have hnth : c.cluster.nth d.domainIndex = .ok c.cluster.values[d.domainIndex] :=
    DimVec.nth_eq_ok_iff.mpr (List.getElem?_eq_getElem hlen)
  have hpos := hc.cluster.pos _ (List.getElem_mem hlen)
  rw [hnth]
  exact (Idx.gives_div hpos.ne').bind fun _ _ => gives_pure trivial

theorem gives_slabSize (hc : c.WellFormed) (block : DimVec) (dim : String) (threads : Int) :
    Gives .arithmetic (slabSize c block dim threads) fun _ => True := by
  unfold slabSize
  have hpos : 0 < c.cluster.getD dim 1 := by
    by_cases hdim : dim ∈ c.domain.names
    · exact (hc.cluster_getD hdim 1).1
    · rw [DimVec.getD_eq_of_notMem (by rwa [hc.cluster.names])]
      decide
  dsimp only
  split
  · exact gives_pure trivial
  · refine (Idx.gives_div (by omega)).bind fun _ _ => ?_
    exact (gives_roundUp hpos).mono fun _ _ => trivial

theorem gives_dimBySubBlocks (block subBlock : DimVec) (threads : Int) (previous : String) :
    Gives .arithmetic (dimBySubBlocks c block subBlock threads previous) fun _ => True :=
  (gives_firstOuterDim? fun _ _ => (gives_ceilDiv _ _).bind fun _ _ => gives_pure trivial).bind
    fun _ _ => gives_pure trivial

/-! ### The steps between the cuts -/

namespace Settings

variable {s s' : Settings}

/-- Only sizes in the step dimension differ, and those of the temporal levels are not negative. -/
structure StepsSet (c : Catalog) (s s' : Settings) : Prop where
  names : ∀ l, (s'.sizes l).names = (s.sizes l).names
  size : ∀ l, ∀ dim ≠ c.stepDim, s'.size l dim = s.size l dim
  nonneg : ∀ l ∈ [Level.region, .block, .miniBlock], 0 ≤ s'.size l c.stepDim

theorem getD_set_nonneg {t : DimVec} {dim : String} {n : Int} (hn : 0 ≤ n) :
    0 ≤ (t.set dim n).getD dim 0 := by
  rw [DimVec.getD, DimVec.get?_set]
  by_cases h : dim ∈ t.names
  · rwa [if_pos ⟨rfl, h⟩, Option.getD_some]
  · rw [if_neg fun hboth => h hboth.2, DimVec.get?_eq_none_iff.mpr h, Option.getD_none]

theorem gives_resolveSteps : (s.resolveSteps c.stepDim).Gives v (StepsSet c s) := by
  -- both ways to resolve the steps write three levels and nothing else
  have hset : ∀ r b mb : Int, 0 ≤ r → 0 ≤ b → 0 ≤ mb → StepsSet c s
      { s with region := s.region.set c.stepDim r, block := s.block.set c.stepDim b,
               miniBlock := s.miniBlock.set c.stepDim mb } := by
    intro r b mb hr hb hmb
    constructor
    · intro l
      cases l <;> first | rfl | exact DimVec.names_set _ _ _
    · intro l dim hdim
      cases l <;> first | rfl | exact DimVec.getD_set_of_ne hdim
    · intro l hl
      simp only [List.mem_cons, List.not_mem_nil, or_false] at hl
      rcases hl with rfl | rfl | rfl
      · exact getD_set_nonneg hr
      · exact getD_set_nonneg hb
      · exact getD_set_nonneg hmb
  have hasked : ∀ t : DimVec, 0 ≤ max (t.getD c.stepDim 0) 0 := fun t => le_max_right _ _
  have hite : ∀ (p : Prop) [Decidable p] (m n : Int), 0 ≤ m → 0 ≤ n → 0 ≤ if p then m else n := by
    intro p _ m n hm hn
    split <;> assumption
  have hpure : ∀ n, 0 ≤ n → (pure n : Task Unit Int).Gives v (0 ≤ ·) := fun n => Task.gives_pure
  unfold resolveSteps
  refine Task.gives_ite ?_ ?_
  · refine (Task.gives_note _ _).bind fun _ _ => (hpure _ (hasked _)).bind fun r hr => ?_
    exact Task.gives_pure (hset _ _ _ hr (hasked _) (hite _ _ _ (hasked _) (hasked _)))
  · refine (hpure _ (hite _ _ _ (hasked _) (hasked _))).bind fun r hr => ?_
    exact Task.gives_pure (hset _ _ _ hr (hasked _) (hite _ _ _ (hasked _) (hasked _)))

/-- At most the sub-block sizes change, and they keep their dimensions. -/
structure SlabsSet (s s' : Settings) : Prop where
  other : ∀ l ≠ Level.subBlock, s'.sizes l = s.sizes l
  names : s'.subBlock.names = s.subBlock.names

theorem gives_slabSubBlocks (hc : c.WellFormed) (threads : Int) :
    Gives .arithmetic (s.slabSubBlocks c threads) fun r => SlabsSet s r.1 := by
  have hsame : SlabsSet s s := ⟨fun _ _ => rfl, rfl⟩
  unfold slabSubBlocks
  dsimp only
  split
  · refine (Idx.gives_sum _).bind fun total _ => ?_
    split
    · refine (gives_dimByClusters hc _ _).bind fun dim _ => ?_
      refine (gives_slabSize hc _ _ _).bind fun size _ => gives_pure ⟨fun l hl => ?_, ?_⟩
      · cases l <;> first | rfl | exact absurd rfl hl
      · exact DimVec.names_set _ _ _
    · exact gives_pure hsame
  · exact gives_pure hsame

/-! ### All levels -/

theorem size_congr {l : Level} {dim : String} (h : s'.sizes l = s.sizes l) :
    s'.size l dim = s.size l dim := by
  rw [Settings.size, h, Settings.size]

theorem Whole.congr {l : Level} (hw : Whole c s l) (h : s'.sizes l = s.sizes l) :
    Whole c s' l := by
  intro dim hdim
  rw [size_congr h]
  exact hw dim hdim

/-- How the levels of `final` lie in one dimension if `asked` was asked for: they nest, they are
whole clusters, and what a temporal level comes to is known from the level around it. -/
structure LegalIn (c : Catalog) (asked final : Settings) (dim : String) : Prop where
  localDomain : final.size .localDomain dim = asked.size .localDomain dim
  region : final.size .region dim =
    resolvedSize (final.size .localDomain dim) (asked.size .region dim) (c.cluster.getD dim 1)
  block : final.size .block dim =
    resolvedSize (final.size .region dim) (asked.size .block dim) (c.cluster.getD dim 1)
  miniBlock : final.size .miniBlock dim =
    resolvedSize (final.size .block dim) (asked.size .miniBlock dim) (c.cluster.getD dim 1)
  nested : final.size .subBlock dim ≤ final.size .miniBlock dim ∧
    final.size .miniBlock dim ≤ final.size .block dim ∧
    final.size .block dim ≤ final.size .region dim ∧
    final.size .region dim ≤ final.size .localDomain dim
  pos : 0 < final.size .subBlock dim
  whole : ∀ l ∈ Level.nested, c.cluster.getD dim 1 ∣ final.size l dim

/-- The cuts of a resolution in their order, from the settings `s` that are asked for to the `final`
ones. A level that is not cut any more keeps what its own cut gave it. -/
structure LevelsCut (c : Catalog) (s s₁ s₂ s₃ s₄ s₅ s₆ final : Settings) : Prop where
  steps : StepsSet c s s₁
  region : IsCut c s₁ .localDomain .region s₂
  block : IsCut c s₂ .region .block s₃
  miniBlock : IsCut c s₃ .block .miniBlock s₄
  slabs : SlabsSet s₄ s₅
  subBlock : IsCut c s₅ .miniBlock .subBlock s₆
  groups : ∀ l ∈ Level.nested, final.sizes l = s₆.sizes l

namespace LevelsCut

variable {s₁ s₂ s₃ s₄ s₅ s₆ final : Settings} {dim : String}

theorem subBlocks (h : LevelsCut c s s₁ s₂ s₃ s₄ s₅ s₆ final) :
    final.sizes .subBlock = s₆.sizes .subBlock := h.groups _ (by decide)

theorem miniBlocks (h : LevelsCut c s s₁ s₂ s₃ s₄ s₅ s₆ final) :
    final.sizes .miniBlock = s₄.sizes .miniBlock := by
  rw [h.groups _ (by decide), h.subBlock.other _ (by decide), h.slabs.other _ (by decide)]

theorem blocks (h : LevelsCut c s s₁ s₂ s₃ s₄ s₅ s₆ final) :
    final.sizes .block = s₃.sizes .block := by
  rw [h.groups _ (by decide), h.subBlock.other _ (by decide), h.slabs.other _ (by decide),
    h.miniBlock.other _ (by decide)]

theorem regions (h : LevelsCut c s s₁ s₂ s₃ s₄ s₅ s₆ final) :
    final.sizes .region = s₂.sizes .region := by
  rw [h.groups _ (by decide), h.subBlock.other _ (by decide), h.slabs.other _ (by decide),
    h.miniBlock.other _ (by decide), h.block.other _ (by decide)]

theorem localDomains (h : LevelsCut c s s₁ s₂ s₃ s₄ s₅ s₆ final) :
    final.sizes .localDomain = s₁.sizes .localDomain := by
  rw [h.groups _ (by decide), h.subBlock.other _ (by decide), h.slabs.other _ (by decide),
    h.miniBlock.other _ (by decide), h.block.other _ (by decide), h.region.other _ (by decide)]

/-- What a level comes to is known from the level around it, as both stand at the end. -/
theorem size_eq {a b : Settings} {parent child : Level} (hcut : IsCut c a parent child b)
    (hchild : final.sizes child = b.sizes child) (hparent : final.sizes parent = a.sizes parent)
    (hasked : a.size child dim = s.size child dim) (hdim : dim ∈ c.domain.names) :
    final.size child dim =
      resolvedSize (final.size parent dim) (s.size child dim) (c.cluster.getD dim 1) := by
  rw [size_congr hchild, size_congr hparent, ← hasked]
  exact hcut.size dim hdim

/-- The cuts leave the sizes in the step dimension as the steps have set them. -/
theorem step_nonneg (h : LevelsCut c s s₁ s₂ s₃ s₄ s₅ s₆ final) :
    ∀ l ∈ [Level.region, .block, .miniBlock], 0 ≤ final.size l c.stepDim := by
  simp only [List.forall_mem_cons, List.not_mem_nil, false_imp_iff, implies_true, and_true]
  refine ⟨?_, ?_, ?_⟩
  · rw [size_congr h.regions, h.region.step]
    exact h.steps.nonneg _ (by simp)
  · rw [size_congr h.blocks, h.block.step, size_congr (h.region.other .block (by decide))]
    exact h.steps.nonneg _ (by simp)
  · rw [size_congr h.miniBlocks, h.miniBlock.step,
      size_congr (h.block.other .miniBlock (by decide)),
      size_congr (h.region.other .miniBlock (by decide))]
    exact h.steps.nonneg _ (by simp)

/-- The chain of cuts, read off at its end. -/
theorem legalIn (h : LevelsCut c s s₁ s₂ s₃ s₄ s₅ s₆ final) (hc : c.WellFormed)
    (hw : Whole c s .localDomain) (hdim : dim ∈ c.domain.names) : LegalIn c s final dim := by
  have hcluster := (hc.cluster_getD hdim 1).1
  have hne : dim ≠ c.stepDim := fun heq => hc.step_notMem (heq ▸ hdim)
  have hlocal : final.size .localDomain dim = s.size .localDomain dim :=
    (size_congr h.localDomains).trans (h.steps.size _ dim hne)
  -- When a level is cut, it is still as it was asked for.
  have hregion := size_eq h.region h.regions h.localDomains (h.steps.size .region dim hne) hdim
  have hblock := size_eq h.block h.blocks h.regions
    ((size_congr (h.region.other .block (by decide))).trans (h.steps.size .block dim hne)) hdim
  have hmini := size_eq h.miniBlock h.miniBlocks h.blocks
    ((size_congr ((h.block.other .miniBlock (by decide)).trans
      (h.region.other .miniBlock (by decide)))).trans (h.steps.size .miniBlock dim hne)) hdim
  -- Only for the sub-blocks something else may be asked: slabs.
  have hsub : final.size .subBlock dim = resolvedSize (final.size .miniBlock dim)
      (s₅.size .subBlock dim) (c.cluster.getD dim 1) :=
    size_eq h.subBlock h.subBlocks (h.miniBlocks.trans (h.slabs.other _ (by decide)).symm) rfl hdim
  -- From the outside in: each level is cut from one that is not empty and has whole clusters.
  obtain ⟨hpos₁, hdvd₁⟩ := hw dim hdim
  rw [← hlocal] at hpos₁ hdvd₁
  have hpos₂ := hregion ▸ resolvedSize_pos hcluster hpos₁
  have hpos₃ := hblock ▸ resolvedSize_pos hcluster hpos₂
  have hpos₄ := hmini ▸ resolvedSize_pos hcluster hpos₃
  have hdvd₂ := hregion ▸ dvd_resolvedSize hdvd₁
  have hdvd₃ := hblock ▸ dvd_resolvedSize hdvd₂
  have hdvd₄ := hmini ▸ dvd_resolvedSize hdvd₃
  refine ⟨hlocal, hregion, hblock, hmini, ⟨?_, ?_, ?_, ?_⟩, ?_, ?_⟩
  · exact hsub ▸ resolvedSize_le
  · exact hmini ▸ resolvedSize_le
  · exact hblock ▸ resolvedSize_le
  · exact hregion ▸ resolvedSize_le
  · exact hsub ▸ resolvedSize_pos hcluster hpos₄
  · simp only [Level.nested, List.forall_mem_cons, List.not_mem_nil, false_imp_iff, implies_true,
      and_true]
    exact ⟨hdvd₁, hdvd₂, hdvd₃, hdvd₄, hsub ▸ dvd_resolvedSize hdvd₄⟩

end LevelsCut

/-- Every level below the local domain has the dimensions of a stencil. -/
def Named (c : Catalog) (s : Settings) : Prop :=
  ∀ l ≠ Level.localDomain, (s.sizes l).names = c.stencil.names

theorem IsCut.named {parent child : Level} (h : IsCut c s parent child s') (hs : Named c s) :
    Named c s' := by
  intro l hl
  by_cases heq : l = child
  · rw [heq, h.names]
  · rw [h.other l heq, hs l hl]

theorem SlabsSet.named (h : SlabsSet s s') (hs : Named c s) : Named c s' := by
  intro l hl
  by_cases heq : l = .subBlock
  · rw [heq]
    exact h.names.trans (hs .subBlock (by decide))
  · rw [h.other l heq, hs l hl]

theorem Shaped.named (hs : s.Shaped c) : Named c s := by
  intro l hl
  have h := hs.names (.level l)
  cases l <;> first | exact h | exact absurd rfl hl

/-- Whichever dimension the threads split along, the rest of the resolution goes on with it. -/
theorem gives_splitDim {α : Type} {P : α → Prop} {p : Prop} [Decidable p] {y : Checked String}
    {text : String → String} {previous : String} {f : String → Task Unit α}
    (hy : Gives .arithmetic y fun _ => True) (hf : ∀ d, (f d).Gives v P) :
    (if p then do
      let d ← (liftM y : Task Unit String)
      Task.note .info (text d)
      let d ← pure d
      f d
    else do
      let d ← pure previous
      f d : Task Unit α).Gives v P := by
  have hpure : ∀ d, (pure d : Task Unit String).Gives v fun _ => True :=
    fun _ => Task.gives_pure trivial
  refine Task.gives_ite ?_ ((hpure _).bind fun d _ => hf d)
  refine (Task.gives_checked hy).bind fun d _ => (Task.gives_note _ _).bind fun _ _ => ?_
  exact (hpure _).bind fun d _ => hf d

/-- Where the levels of a plan are legal, its validation passes. -/
theorem validate_eq_ok {p : Plan} (hc : c.WellFormed) (hs : s.Shaped c)
    (hlegal : ∀ dim ∈ c.domain.names, LegalIn c s p.sizes dim)
    (hsteps : ∀ l ∈ [Level.region, .block, .miniBlock], 0 ≤ p.sizes.size l c.stepDim)
    (hstep : p.stepDim = c.stepDim) (hcluster : p.cluster = c.cluster) :
    p.validate = .ok () := by
  have hlevels : ∀ e ∈ p.cluster.entries,
      Plan.validateLevels p.sizes e.1 e.2 none Level.nested = .ok () := by
    intro e he
    rw [hcluster] at he
    have hdim : e.1 ∈ c.domain.names := hc.cluster.names ▸ List.mem_map_of_mem he
    have hpoints : c.cluster.getD e.1 1 = e.2 :=
      DimVec.getD_of_mem_entries (hc.cluster.names ▸ hc.nodup) he
    have hpos := (hc.cluster_getD hdim 1).1
    obtain ⟨hlocal, -, -, -, ⟨h₁, h₂, h₃, h₄⟩, h₅, hwhole⟩ := hlegal e.1 hdim
    rw [hpoints] at hpos hwhole
    -- Every size lies between zero and that of the local domain, which is in range.
    have hrange : Idx.InRange (s.size .localDomain e.1) :=
      hs.inRange (.level .localDomain) _
        (DimVec.getD_mem_values (by rw [hs.names (.level .localDomain)]; exact hdim))
    rw [← hlocal] at hrange
    have hsizes : ∀ l ∈ Level.nested,
        0 < p.sizes.size l e.1 ∧ p.sizes.size l e.1 ≤ p.sizes.size .localDomain e.1 := by
      simp only [Level.nested, List.forall_mem_cons, List.not_mem_nil, false_imp_iff,
        implies_true, and_true]
      omega
    refine validateLevels_eq_ok hpos (fun l hl => ?_) ?_ (by simp)
    · obtain ⟨hlpos, hle⟩ := hsizes l hl
      refine ⟨hlpos, hwhole l hl, ?_⟩
      simp only [Idx.InRange, Idx.min, Idx.max] at hrange ⊢
      omega
    · simp only [Level.nested, List.pairwise_cons, List.forall_mem_cons, List.not_mem_nil,
        false_imp_iff, implies_true, and_true, List.Pairwise.nil]
      omega
  have hregion := hsteps .region (by simp)
  have hblock := hsteps .block (by simp)
  have hmini := hsteps .miniBlock (by simp)
  rw [Plan.validate, forM_eq_ok hlevels]
  simp only [Plan.temporal, hstep]
  simp only [Settings.size, sizes] at hregion hblock hmini
  show (if _ then _ else _) = _
  rw [if_neg (by omega)]
  rfl

/-- From a local domain of whole clusters the resolution goes through. -/
theorem gives_resolve (hc : c.WellFormed) (hs : s.Shaped c) (hw : Whole c s .localDomain)
    (hcheck : checkLocalDomain c.cluster s.localDomain.entries = .ok ()) :
    (s.resolve c).Gives v fun p => ∀ dim ∈ c.domain.names, LegalIn c s p.sizes dim := by
  have hchecked : (liftM (checkLocalDomain c.cluster s.localDomain.entries) :
      Task Unit Unit).Gives v fun _ => True := .inr ⟨(), hcheck, trivial⟩
  -- Writing into the journal comes between the cuts and never fails.
  have hnote : ∀ {α : Type} {P : α → Prop} {k : Severity} {text : String} {y : Task Unit α},
      y.Gives v P → (Task.note k text >>= fun _ => y).Gives v P :=
    fun hy => (Task.gives_note _ _).bind fun _ _ => hy
  unfold resolve
  refine hchecked.bind fun _ _ => gives_resolveSteps.bind fun s₁ hsteps => ?_
  have hn₁ : Named c s₁ := fun l hl => (hsteps.names l).trans (hs.named l hl)
  have hw₁ : Whole c s₁ .localDomain := fun dim hdim => by
    rw [hsteps.size _ dim fun heq => hc.step_notMem (heq ▸ hdim)]
    exact hw dim hdim
  refine (gives_cutLevel hc hw₁ (hn₁ _ (by decide))).bind fun ⟨s₂, regions⟩ hregion => hnote ?_
  have hn₂ := hregion.named hn₁
  have hw₂ := hregion.whole hc hw₁
  refine (gives_cutLevel hc hw₂ (hn₂ _ (by decide))).bind fun ⟨s₃, blocks⟩ hblock => hnote ?_
  have hn₃ := hblock.named hn₂
  have hw₃ := hblock.whole hc hw₂
  refine (gives_cutLevel hc hw₃ (hn₃ _ (by decide))).bind fun ⟨s₄, minis⟩ hmini => hnote ?_
  have hn₄ := hmini.named hn₃
  have hw₄ := hmini.whole hc hw₃
  refine (Task.gives_checked (gives_slabSubBlocks hc _)).bind fun ⟨s₅, split⟩ hslabs => ?_
  have hn₅ := hslabs.named hn₄
  have hw₅ := hw₄.congr (hslabs.other .miniBlock (by decide))
  refine (gives_cutLevel hc hw₅ (hn₅ _ (by decide))).bind fun ⟨s₆, subs⟩ hsub => hnote ?_
  have hn₆ := hsub.named hn₅
  have hw₆ := hsub.whole hc hw₅
  refine gives_splitDim (gives_dimBySubBlocks _ _ _ _) fun d => ?_
  -- groups are cut from the levels as they stand now and change none of them
  have hb₆ : Whole c s₆ .block := ((hw₃.congr (hmini.other _ (by decide))).congr
    (hslabs.other _ (by decide))).congr (hsub.other _ (by decide))
  have hm₆ : Whole c s₆ .miniBlock := hw₅.congr (hsub.other _ (by decide))
  refine (gives_cutGroup hc hb₆ (hn₆ _ (by decide)) (hn₆ _ (by decide))).bind
    fun ⟨s₇, blockGroups⟩ hs₇ => ?_
  have hm₇ := hm₆.congr (hs₇ .miniBlock (by decide))
  refine (gives_cutGroup hc hm₇ ?_ ?_).bind fun ⟨s₈, miniGroups⟩ hs₈ => ?_
  · rw [hs₇ _ (by decide)]
    exact hn₆ _ (by decide)
  · rw [hs₇ _ (by decide)]
    exact hn₆ _ (by decide)
  have hsub₈ := (hw₆.congr (hs₇ .subBlock (by decide))).congr (hs₈ .subBlock (by decide))
  refine (gives_cutGroup hc hsub₈ ?_ ?_).bind fun ⟨s₉, subGroups⟩ hs₉ => ?_
  · rw [hs₈ _ (by decide), hs₇ _ (by decide)]
    exact hn₆ _ (by decide)
  · rw [hs₈ _ (by decide), hs₇ _ (by decide)]
    exact hn₆ _ (by decide)
  have hgroups : ∀ l ∈ Level.nested, s₉.sizes l = s₆.sizes l := by
    intro l hl
    have hne : l ≠ .blockGroup ∧ l ≠ .miniBlockGroup ∧ l ≠ .subBlockGroup := by
      refine ⟨?_, ?_, ?_⟩ <;> rintro rfl <;> exact absurd hl (by decide)
    rw [hs₉ l hne.2.2, hs₈ l hne.2.1, hs₇ l hne.1]
  have hchain : LevelsCut c s s₁ s₂ s₃ s₄ s₅ s₆ s₉ :=
    ⟨hsteps, hregion, hblock, hmini, hslabs, hsub, hgroups⟩
  have hlegal : ∀ dim ∈ c.domain.names, LegalIn c s s₉ dim := fun _ => hchain.legalIn hc hw
  have hvalid : ∀ p : Plan, p.sizes = s₉ → p.stepDim = c.stepDim → p.cluster = c.cluster →
      (liftM p.validate : Task Unit Unit).Gives v fun _ => True := by
    rintro p rfl hstep hcluster
    exact .inr ⟨(), validate_eq_ok hc hs hlegal hchain.step_nonneg hstep hcluster, trivial⟩
  exact (hvalid _ rfl rfl rfl).bind fun _ _ => hnote (Task.gives_pure hlegal)

/-- Unless the arithmetic overflows, settings are resolved exactly if their local domain has whole
clusters. Then every level lies where it may, in every domain dimension; otherwise the refusal is
that of the local domain, and the validation at the end never adds one. -/
theorem resolve_legal (hc : c.Built) (hs : s.Reachable c)
    (hfits : ((s.resolve c).run v ()).result ≠ .error (.fault .arithmetic)) :
    ((∃ p, ((s.resolve c).run v ()).result = .ok p) ↔ Whole c s .localDomain) ∧
      (∀ p, ((s.resolve c).run v ()).result = .ok p →
        ∀ dim ∈ c.domain.names, LegalIn c s p.sizes dim) ∧
      ∀ e, ((s.resolve c).run v ()).result = .error e →
        checkLocalDomain c.cluster s.localDomain.entries = .error e := by
  have hw := hc.wellFormed
  have hshaped := hs.shaped
  have hnames : s.localDomain.names = c.domain.names := hshaped.names (.level .localDomain)
  have hmem : ∀ e ∈ s.localDomain.entries, e.1 ∈ c.domain.names := fun e he =>
    hnames ▸ List.mem_map_of_mem he
  have hsize : ∀ e ∈ s.localDomain.entries, s.size .localDomain e.1 = e.2 := fun e he =>
    DimVec.getD_of_mem_entries (hnames ▸ hw.nodup) he
  -- The check goes by entries and the statement by names; names are distinct.
  have hwhole : (∀ e ∈ s.localDomain.entries, 0 < e.2 ∧ c.cluster.getD e.1 1 ∣ e.2) ↔
      Whole c s .localDomain := by
    constructor
    · intro h dim hdim
      rw [← hnames] at hdim
      obtain ⟨e, he, rfl⟩ := List.mem_map.mp hdim
      rw [hsize e he]
      exact h e he
    · intro h e he
      rw [← hsize e he]
      exact h e.1 (hmem e he)
  have hcheck := @checkLocalDomain_eq c.cluster s.localDomain.entries
    (fun e he => hshaped.inRange (.level .localDomain) _ (List.mem_map_of_mem he))
    (fun e he => (hw.cluster_getD (hmem e he) 1).1)
  split at hcheck
  · next hall =>
    have hlocal := hwhole.mp hall
    have hgives := gives_resolve (v := v) hw hshaped hlocal hcheck
    obtain ⟨p, hp, -⟩ := hgives.exists_ok hfits
    refine ⟨⟨fun _ => hlocal, fun _ => ⟨p, hp⟩⟩, fun p hp => hgives.of_ok hp, fun e he => ?_⟩
    rw [hp] at he
    cases he
  · next hall =>
    obtain ⟨e, hcheck⟩ := hcheck
    have hrun : ((s.resolve c).run v ()).result = .error (.tiling e) := by
      have hfirst : (liftM (checkLocalDomain c.cluster s.localDomain.entries) :
          Task Unit Unit).run v () = ⟨.error (.tiling e), (), []⟩ := by rw [hcheck]; rfl
      rw [resolve, Task.run_bind_error hfirst]
    rw [hrun]
    refine ⟨⟨fun ⟨p, hp⟩ => ?_, fun h => absurd (hwhole.mpr h) hall⟩, fun p hp => ?_,
      fun e' he => ?_⟩
    · cases hp
    · cases hp
    · cases he
      exact hcheck

/-! ### What is left alone -/

theorem sameButTiles_of_cutLevel {parent child : Level} {mults : DimVec} {stepDim : String}
    {r : Settings × CutReport} {u : Unit} (hchild : child ≠ .localDomain)
    (h : (s.cutLevel parent child mults stepDim).Yields v () r u) : SameButTiles s r.1 := by
  simp only [cutLevel, Task.yields_bind, Task.yields_pure] at h
  obtain ⟨_, _, -, _, _, -, rfl, -⟩ := h
  exact sameButTiles_withSizes hchild _

theorem sameButTiles_of_cutGroup {parent group grouped : Level} {stepDim : String}
    {r : Settings × CutReport} {u : Unit} (hgroup : group ≠ .localDomain)
    (h : (s.cutGroup parent group grouped stepDim).Yields v () r u) : SameButTiles s r.1 := by
  simp only [cutGroup, Task.yields_bind, Task.yields_pure] at h
  obtain ⟨_, _, -, rfl, -⟩ := h
  exact sameButTiles_withSizes hgroup _

theorem sameButTiles_of_resolveSteps {stepDim : String} {u : Unit}
    (h : (s.resolveSteps stepDim).Yields v () s' u) : SameButTiles s s' := by
  simp only [resolveSteps, Task.yields_ite, Task.yields_bind_note, Task.yields_bind_pure,
    Task.yields_pure] at h
  rw [ite_prop_iff_or] at h
  rcases h with ⟨-, rfl, -⟩ | ⟨-, rfl, -⟩ <;> rfl

theorem sameButTiles_of_slabSubBlocks {threads : Int} {r : Settings × String}
    (h : s.slabSubBlocks c threads = .ok r) : SameButTiles s r.1 := by
  unfold slabSubBlocks at h
  split at h
  · simp only [bind_eq_ok] at h
    obtain ⟨_, -, h⟩ := h
    split at h
    · simp only [bind_eq_ok, pure_eq_ok] at h
      obtain ⟨_, -, _, -, rfl⟩ := h
      rfl
    · rw [pure_eq_ok] at h
      exact h ▸ .refl s
  · rw [pure_eq_ok] at h
    exact h ▸ .refl s

/-- Resolving changes the sizes of tiles only, and ends with a plan that is valid. -/
theorem of_resolve {p : Plan} {u : Unit} (h : (s.resolve c).Yields v () p u) :
    SameButTiles s p.sizes ∧ p.validate = .ok () := by
  simp only [resolve, Task.yields_bind (x := resolveSteps _ _),
    Task.yields_bind (x := cutLevel _ _ _ _ _),
    Task.yields_bind_outcome, Task.yields_bind_note, Task.yields_bind_checked] at h
  obtain ⟨-, -, s₁, _, h₁, r₂, _, h₂, r₃, _, h₃, r₄, _, h₄, r₅, h₅, r₆, _, h₆, h⟩ := h
  -- Each stage writes levels of tiles, and only those.
  have hcut : SameButTiles s r₆.1 :=
    (sameButTiles_of_resolveSteps h₁).trans <|
    (sameButTiles_of_cutLevel (by decide) h₂).trans <|
    (sameButTiles_of_cutLevel (by decide) h₃).trans <|
    (sameButTiles_of_cutLevel (by decide) h₄).trans <|
    (sameButTiles_of_slabSubBlocks h₅).trans (sameButTiles_of_cutLevel (by decide) h₆)
  simp only [Task.yields_ite, Task.yields_bind_checked, Task.yields_bind_note,
    Task.yields_bind_pure, Task.yields_bind (x := cutGroup _ _ _ _ _), Task.yields_bind_outcome,
    Task.yields_pure] at h
  rw [ite_prop_iff_or] at h
  rcases h with ⟨-, _, -, r₇, _, h₇, r₈, _, h₈, r₉, _, h₉, _, hvalid, rfl, -⟩ |
    ⟨-, r₇, _, h₇, r₈, _, h₈, r₉, _, h₉, _, hvalid, rfl, -⟩
  -- Whether the scan for the split dimension runs makes no difference to the settings.
  all_goals
    exact ⟨hcut.trans <| (sameButTiles_of_cutGroup (by decide) h₇).trans <|
      (sameButTiles_of_cutGroup (by decide) h₈).trans (sameButTiles_of_cutGroup (by decide) h₉),
      hvalid⟩

end Settings

namespace Folded

def line : Catalog := (Catalog.declare "t" ["x"] []).toOption.getD default

/-- A line with four points to a fold. -/
def catalog : Catalog := (line.foldedBy [4]).toOption.getD default

/-- Twenty-four points for the rank. -/
def sized : Settings :=
  ((Settings.initial catalog 1).resize catalog .localDomain "x" 24).toOption.getD default

/-- Regions of ten points are asked for. -/
def settings : Settings := (sized.resize catalog .region "x" 10).toOption.getD default

theorem built : catalog.Built :=
  .fold (.declare (show Catalog.declare "t" ["x"] [] = .ok line by decide +kernel))
    (show line.foldedBy [4] = .ok catalog by decide +kernel)

theorem reachable : settings.Reachable catalog :=
  have hsized : sized.Reachable catalog :=
    .resize (.initial 1) (show Idx.InRange 24 by decide)
      (show Settings.resize _ catalog .localDomain "x" 24 = _ by decide +kernel)
  .resize hsized (show Idx.InRange 10 by decide)
    (show Settings.resize _ catalog .region "x" 10 = _ by decide +kernel)

end Folded

/-- Ten points are rounded up to the twelve of three folds. -/
theorem resolve_legal_folded : ∃ p, ((Folded.settings.resolve Folded.catalog).run none ()).result =
    .ok p ∧ p.sizes.size .region "x" = 12 ∧
      Settings.LegalIn Folded.catalog Folded.settings p.sizes "x" := by
  obtain ⟨p, hp, hregion⟩ := exists_eq_ok_of_any
    (x := ((Folded.settings.resolve Folded.catalog).run none ()).result)
    (p := fun p => decide (p.sizes.size .region "x" = 12)) (by decide +kernel)
  have hlegal := Settings.resolve_legal Folded.built Folded.reachable (v := none)
    (by rw [hp]; exact nofun)
  exact ⟨p, hp, of_decide_eq_true hregion, hlegal.2.1 p hp "x" (by decide +kernel)⟩

end StencilPlan
