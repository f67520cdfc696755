import StencilPlan.Proofs.Tiling.Subsets

/-!
# How children cover their parent

A cut settles each dimension by itself. There the child is the least whole multiple that holds what
was asked for, and as many children are counted as it takes to cover the parent: one less would
leave a rest. All of them are full but perhaps the last one, which is as large as that rest. A
parent without extent holds no child at all.

`CutFrom` says how the entries of a child, cut one after the other, go with the report on them.
-/

namespace StencilPlan

/-- What one dimension comes to inside a parent that has an extent there. -/
structure DimCut.Covers (d : DimCut) (asked mult : Int) : Prop where
  /-- The child is the least multiple that holds the request, or the parent if nothing is asked. -/
  least : IsLeast {k | 0 < k ∧ max mult 1 ∣ k ∧ (if asked ≤ 0 then d.parentExtent else asked) ≤ k}
    d.childExtent
  /-- The pieces cover the parent. -/
  enough : d.parentExtent ≤ d.pieces * d.childExtent
  /-- One piece less does not. -/
  needed : (d.pieces - 1) * d.childExtent < d.parentExtent
  /-- The whole pieces and the partial one make up the parent. -/
  divided : d.wholePieces * d.childExtent + d.remainder = d.parentExtent
  partial_nonneg : 0 ≤ d.remainder
  partial_lt : d.remainder < d.childExtent
  whole : d.wholePieces = if d.remainder ≠ 0 then d.pieces - 1 else d.pieces

/-- What one dimension comes to, be there an extent to cut or not. -/
structure DimCut.Settles (d : DimCut) (parent asked mult : Int) : Prop where
  parentExtent : d.parentExtent = parent
  covers : 0 < parent → d.Covers asked mult
  nothing : parent = 0 → d.pieces = 0

section OneDim

variable {dim : String} {p n asked m : Int}

/-- The quotients that round up and down differ by one where there is a remainder. -/
theorem ceil_sub_one_mul_add_emod (hn : 0 < n) (h : p % n ≠ 0) :
    ((p + n - 1) / n - 1) * n + p % n = p := by
  have hrem := Int.emod_nonneg p hn.ne'
  have hlt := Int.emod_lt_of_pos p hn
  have hdiv := Int.mul_ediv_add_emod p n
  have hsum : p + n - 1 = (p % n - 1) + n * (p / n + 1) := by
    rw [Int.mul_add, Int.mul_one]
    omega
  have hzero : (p % n - 1) / n = 0 := Int.ediv_eq_zero_of_lt (by omega) (by omega)
  rw [hsum, Int.add_mul_ediv_left _ _ hn.ne', hzero, Int.zero_add, Int.add_sub_cancel,
    Int.mul_comm]
  exact hdiv

theorem coverCount_zero {r : Int × Int} (h : coverCount 0 n = .ok r) : r = (0, 0) := by
  unfold coverCount at h
  split at h
  · rwa [pure_eq_ok] at h
  · next hn =>
    simp only [bind_eq_ok, pure_eq_ok] at h
    obtain ⟨_, habove, _, hlast, count, hcount, rest, hrest, rfl⟩ := h
    obtain ⟨-, rfl⟩ := Idx.add_eq_ok_iff.mp habove
    obtain ⟨-, rfl⟩ := Idx.sub_eq_ok_iff.mp hlast
    obtain ⟨-, -, rfl⟩ := Idx.div_eq_ok_iff.mp hcount
    have hzero := (Idx.gives_rem (a := 0) (by omega)).of_ok hrest
    rw [Int.zero_add, Int.tdiv_eq_ediv_of_nonneg (by omega),
      Int.ediv_eq_zero_of_lt (by omega) (by omega), hzero, Int.zero_tmod]

theorem settles_of_resolveDim {d : DimCut} (h : resolveDim dim p asked m = .ok d) :
    d.dim = dim ∧ d.Settles p asked m := by
  obtain ⟨k, count, whole, hround, hcount, hwhole, rfl⟩ := resolveDim_eq_ok.mp h
  have hk := (gives_roundUp_max _ _).of_ok hround
  have hm : 0 < max m 1 := lt_of_lt_of_le Int.one_pos (le_max_right m 1)
  refine ⟨rfl, rfl, fun hp => ?_, fun hp => ?_⟩
  · -- With points in the parent the size that is rounded is positive, and so is what it comes to.
    have hbase : 0 < if asked ≤ 0 then p else asked := by
      split <;> omega
    have hleast := isLeast_multipleAbove (n := if asked ≤ 0 then p else asked) hm
    rw [← hk] at hleast
    have hpos : 0 < k := Int.lt_of_lt_of_le hbase hleast.1.1
    obtain ⟨-, rfl⟩ := (coverCount_eq_ok hp hpos).mp hcount
    have hceil : multipleAbove p k = (p + k - 1) / k * k := rfl
    have hfloor := Int.ediv_mul_le (p + k - 1) hpos.ne'
    dsimp only at hwhole
    constructor
    all_goals dsimp only
    case least =>
      exact ⟨⟨hpos, hleast.1.2, hleast.1.1⟩, fun l hl => hleast.2 ⟨hl.2.2, hl.2.1⟩⟩
    case enough => exact le_multipleAbove hpos
    case needed =>
      rw [Int.sub_mul, Int.one_mul]
      omega
    case divided =>
      split at hwhole
      · next hne =>
        obtain ⟨-, rfl⟩ := Idx.sub_eq_ok_iff.mp hwhole
        exact ceil_sub_one_mul_add_emod hpos hne
      · next hzero =>
        rw [not_not] at hzero
        rw [hwhole, hzero, Int.add_zero, ← hceil]
        exact multipleAbove_of_dvd hpos (Int.dvd_of_emod_eq_zero hzero)
    case partial_nonneg => exact Int.emod_nonneg p hpos.ne'
    case partial_lt => exact Int.emod_lt_of_pos p hpos
    case whole =>
      split at hwhole
      · next hne =>
        rw [if_pos hne]
        exact (Idx.sub_eq_ok_iff.mp hwhole).2
      · next hzero =>
        rw [if_neg hzero]
        exact hwhole
  · subst hp
    rw [coverCount_zero hcount]

theorem gives_settles (dim : String) (p asked m : Int) :
    Gives .arithmetic (resolveDim dim p asked m) fun d => d.dim = dim ∧ d.Settles p asked m :=
  gives_resolveDim.of_forall_ok fun _ h => settles_of_resolveDim h

end OneDim

/-! ### All dimensions -/

section AllDims

variable {parent child mults : DimVec} {stepDim label label' : String} {v : Verbosity}
  {es fs : List (String × Int)} {ds : List DimCut}

/-- The entries `es` were cut into `fs`, with the reports `ds`. -/
structure CutFrom (parent mults : DimVec) (stepDim : String) (es fs : List (String × Int))
    (ds : List DimCut) : Prop where
  names : fs.map (·.1) = es.map (·.1)
  step : fs.lookup stepDim = es.lookup stepDim
  dims : ds.map (·.dim) = (es.map (·.1)).filter (· ≠ stepDim)
  settles : ∀ d ∈ ds, (d.dim, d.childExtent) ∈ fs ∧ ∃ asked, (d.dim, asked) ∈ es ∧
    d.Settles (parent.getD d.dim 0) asked (mults.getD d.dim 1)

theorem CutFrom.nil : CutFrom parent mults stepDim [] [] [] :=
  ⟨rfl, rfl, rfl, fun _ hd => absurd hd List.not_mem_nil⟩

theorem CutFrom.consStep (h : CutFrom parent mults stepDim es fs ds) (n : Int) :
    CutFrom parent mults stepDim ((stepDim, n) :: es) ((stepDim, n) :: fs) ds := by
  refine ⟨by simp [h.names], ?_, by simp [h.dims], fun d hd => ?_⟩
  · rw [DimVec.lookup_cons_eq, DimVec.lookup_cons_eq, if_pos rfl, if_pos rfl]
  · obtain ⟨hmem, asked, hasked, hsettles⟩ := h.settles d hd
    exact ⟨List.mem_cons_of_mem _ hmem, asked, List.mem_cons_of_mem _ hasked, hsettles⟩

theorem CutFrom.consDim (h : CutFrom parent mults stepDim es fs ds) {d : DimCut} {asked : Int}
    (hne : d.dim ≠ stepDim)
    (hd : d.Settles (parent.getD d.dim 0) asked (mults.getD d.dim 1)) :
    CutFrom parent mults stepDim ((d.dim, asked) :: es) ((d.dim, d.childExtent) :: fs)
      (d :: ds) := by
  refine ⟨by simp [h.names], ?_, by simp [h.dims, hne], ?_⟩
  · rw [DimVec.lookup_cons_eq, DimVec.lookup_cons_eq, if_neg hne.symm, if_neg hne.symm, h.step]
  · refine List.forall_mem_cons.mpr ⟨⟨List.mem_cons_self, asked, List.mem_cons_self, hd⟩, ?_⟩
    intro e he
    obtain ⟨hmem, n, hn, hsettles⟩ := h.settles e he
    exact ⟨List.mem_cons_of_mem _ hmem, n, List.mem_cons_of_mem _ hn, hsettles⟩

/-- The running product goes on with the pieces of the dimensions that are still to come. -/
theorem gives_cutFrom (total : Int) :
    Gives .arithmetic (resolveEntries parent mults stepDim total es) fun r =>
      CutFrom parent mults stepDim es r.1 r.2.1 ∧ r.2.2 = total * (r.2.1.map (·.pieces)).prod := by
  -- The induction is on the entries with the total so far left open; an overflow ends the scan.
  induction es generalizing total with
  | nil => exact gives_pure ⟨.nil, by simp⟩
  | cons e es ih =>
    obtain ⟨name, asked⟩ := e
    rw [resolveEntries]
    split
    · next hstep =>
      subst hstep
      exact (ih total).bind fun r hr => gives_pure ⟨hr.1.consStep asked, hr.2⟩
    · next hne =>
      refine (gives_settles _ _ _ _).bind fun d hd => Idx.gives_mul.bind fun n hn => ?_
      obtain ⟨rfl, hsettles⟩ := hd
      refine (ih n).bind fun r hr => gives_pure ⟨hr.1.consDim hne hsettles, ?_⟩
      rw [hr.2, hn, List.map_cons, List.prod_cons, Int.mul_assoc]

theorem gives_cutTiles_cutFrom :
    (cutTiles parent label child label' mults stepDim).Gives v fun r =>
      CutFrom parent mults stepDim child.entries r.1.entries r.2.cuts ∧
        r.2.total = (r.2.cuts.map (·.pieces)).prod := by
  have hcut : Gives .arithmetic (cutInto parent label child label' mults stepDim) fun r =>
      CutFrom parent mults stepDim child.entries r.1.entries r.2.cuts ∧
        r.2.total = (r.2.cuts.map (·.pieces)).prod :=
    (gives_cutFrom 1).bind fun r hr => gives_pure ⟨hr.1, hr.2.trans (Int.one_mul _)⟩
  refine (Task.gives_checked hcut).bind fun r hr => ?_
  exact (Task.gives_note _ _).bind fun _ _ => Task.gives_pure hr

/-- A cut that does not overflow leaves the step dimension and the order alone, reports on every
other dimension in order, and in each of them the children cover the parent. The total is the
product of the numbers of children. -/
theorem cutTiles_covers (hchild : child.names.Nodup) (hparent : ∀ n ∈ parent.values, 0 ≤ n)
    (hfits : ((cutTiles parent label child label' mults stepDim).run v ()).result ≠
      .error (.fault .arithmetic)) :
    ∃ t report,
      ((cutTiles parent label child label' mults stepDim).run v ()).result = .ok (t, report) ∧
      t.names = child.names ∧ t.get? stepDim = child.get? stepDim ∧
      report.cuts.map (·.dim) = child.names.filter (· ≠ stepDim) ∧
      (∀ d ∈ report.cuts, t.get? d.dim = some d.childExtent ∧
        d.parentExtent = parent.getD d.dim 0 ∧
        (if 0 < d.parentExtent then d.Covers (child.getD d.dim 0) (mults.getD d.dim 1)
          else d.pieces = 0)) ∧
      report.total = (report.cuts.map (·.pieces)).prod := by
  obtain ⟨⟨t, report⟩, hrun, hcut, htotal⟩ := gives_cutTiles_cutFrom.exists_ok hfits
  dsimp only at hcut htotal
  refine ⟨t, report, hrun, hcut.names, hcut.step, hcut.dims, fun d hd => ?_, htotal⟩
  obtain ⟨hmem, asked, hasked, hsettles⟩ := hcut.settles d hd
  have hnames : t.names = child.names := hcut.names
  -- Distinct names make the entry at a position the one that is found under its name.
  have hsome : t.get? d.dim = some d.childExtent := by
    obtain ⟨i, hi⟩ := List.mem_iff_getElem?.mp hmem
    rw [DimVec.get?_of_nodup (hnames ▸ hchild) (i := i) (by simp [DimVec.names, hi])]
    simp [DimVec.values, hi]
  have hrequest : child.getD d.dim 0 = asked := DimVec.getD_of_mem_entries hchild hasked
  refine ⟨hsome, hsettles.parentExtent, ?_⟩
  rw [hrequest]
  split
  · next hpos => exact hsettles.covers (hsettles.parentExtent ▸ hpos)
  · next hneg =>
    refine hsettles.nothing (Int.le_antisymm ?_ ?_)
    · rw [← hsettles.parentExtent]
      exact Int.not_lt.mp hneg
    · -- A size that is not positive is zero, also where the parent does not have the dimension.
      by_cases hdim : d.dim ∈ parent.names
      · exact hparent _ (DimVec.getD_mem_values hdim)
      · exact (DimVec.getD_eq_of_notMem hdim).ge

end AllDims

namespace Uneven

/-- A region without extent in one dimension and one point thick in another. -/
def region : DimVec := ⟨[("x", 100), ("z", 0), ("y", 1)]⟩

/-- Blocks that are asked for in one dimension, and in the one in which there is nothing to cut. -/
def block : DimVec := ⟨[("t", 3), ("x", 30), ("y", -1), ("z", 5)]⟩

/-- Eight points make a multiple in the first dimension. -/
def mults : DimVec := ⟨[("x", 8)]⟩

end Uneven

/-- A request of thirty points in multiples of eight covers a hundred points. -/
theorem cutTiles_covers_uneven : ∃ t report,
    ((cutTiles Uneven.region "region" Uneven.block "block" Uneven.mults "t").run none ()).result =
      .ok (t, report) ∧
    t.get? "t" = some 3 ∧ report.cuts.map (·.dim) = ["x", "y", "z"] ∧
    (∀ d ∈ report.cuts, d.dim = "x" → d.parentExtent = 100 ∧ d.Covers 30 8) ∧
    report.total = (report.cuts.map (·.pieces)).prod := by
  have hfits : ((cutTiles Uneven.region "region" Uneven.block "block" Uneven.mults "t").run
      none ()).result ≠ .error (.fault .arithmetic) := by decide +kernel
  obtain ⟨t, report, hrun, -, hstep, hdims, hcuts, htotal⟩ :=
    cutTiles_covers (by decide +kernel) (by decide +kernel) hfits
  refine ⟨t, report, hrun, hstep, hdims, fun d hd hx => ?_, htotal⟩
  obtain ⟨-, hparent, hcovers⟩ := hcuts d hd
  rw [hx] at hparent hcovers
  have hextent : d.parentExtent = 100 := hparent
  rw [if_pos (by omega)] at hcovers
  exact ⟨hextent, hcovers⟩

end StencilPlan
