import Mathlib.Algebra.Order.BigOperators.GroupWithZero.List
import Mathlib.Algebra.Order.Ring.Int
import StencilPlan.Proofs.Tiling.Cut

/-!
# Cutting once and cutting again

What a cut comes to can be asked for a second time: the sizes are multiples by then, or they are
those of the parent, so the second cut changes nothing and reports the same. That holds for every
parent and every request, whatever their signs.

Where the parent is positive and holds at least one multiple, it can also be said when a cut goes
through at all. Each child has to fit into 64 bits on top of its parent, and nothing else can
overflow as long as the product of the parents fits.
-/

namespace StencilPlan

section Again

variable {dim stepDim : String} {p asked m k k' : Int} {parent child mults : DimVec}

theorem roundUp_eq_ok (h : roundUp p m = .ok k) : k = if m ≤ 1 then p else multipleAbove p m := by
  by_cases hm : m ≤ 1
  · rw [roundUp, if_pos hm, pure_eq_ok] at h
    rw [if_pos hm, h]
  · rw [if_neg hm]
    exact (gives_roundUp (by omega)).of_ok h

theorem inRange_roundUp (hp : Idx.InRange p) (h : roundUp p m = .ok k) : Idx.InRange k := by
  unfold roundUp at h
  split at h
  · rw [pure_eq_ok] at h
    exact h ▸ hp
  · rw [bind_eq_ok] at h
    obtain ⟨count, -, h⟩ := h
    obtain ⟨hrange, rfl⟩ := Idx.mul_eq_ok_iff.mp h
    exact hrange

/-- A size that was rounded up once is not rounded up again. Where it is not positive it stands for
the size of the parent once more, and that is what it was made from. -/
theorem roundUp_again (h : roundUp (if asked ≤ 0 then p else asked) m = .ok k)
    (h' : roundUp (if k ≤ 0 then p else k) m = .ok k') : k' = k := by
  have hk := roundUp_eq_ok h
  have hk' := roundUp_eq_ok h'
  -- Multiples of one or less stand for no rounding.
  by_cases hm : m ≤ 1
  · rw [if_pos hm] at hk hk'
    split at hk <;> split at hk' <;> omega
  · rw [if_neg hm] at hk hk'
    have hpos : 0 < m := by omega
    by_cases hneg : k ≤ 0
    · -- the first request was no larger than what it was rounded up to
      have hle := le_multipleAbove (n := if asked ≤ 0 then p else asked) hpos
      have hasked : asked ≤ 0 := by
        by_contra hasked
        rw [if_neg hasked] at hle hk
        omega
      rw [if_pos hasked] at hk
      rw [hk', if_pos hneg, hk]
    · rw [hk', if_neg hneg]
      exact multipleAbove_of_dvd hpos (hk ▸ dvd_multipleAbove _ _)

/-- All that is done after rounding up depends on the rounded size alone. -/
theorem resolveDim_eq_ok {d : DimCut} : resolveDim dim p asked m = .ok d ↔ ∃ k n whole,
    roundUp (if asked ≤ 0 then p else asked) m = .ok k ∧ coverCount p k = .ok n ∧
      (if n.2 ≠ 0 then Idx.sub n.1 1 = .ok whole else whole = n.1) ∧
      d = { dim, parentExtent := p, childExtent := k, pieces := n.1, wholePieces := whole,
            remainder := n.2 } := by
  unfold resolveDim
  simp only [bind_eq_ok]
  -- The definition computes the whole pieces in two branches; here they are one condition.
  constructor
  · rintro ⟨k, hk, n, hn, h⟩
    split at h
    · next hzero =>
      simp only [bind_eq_ok, pure_eq_ok] at h
      obtain ⟨whole, hwhole, rfl⟩ := h
      exact ⟨k, n, whole, hk, hn, (if_pos hzero).mpr hwhole, rfl⟩
    · next hzero =>
      simp only [pure_bind_eq_ok, pure_eq_ok] at h
      exact ⟨k, n, n.1, hk, hn, (if_neg hzero).mpr rfl, h⟩
  · rintro ⟨k, n, whole, hk, hn, hwhole, rfl⟩
    refine ⟨k, hk, n, hn, ?_⟩
    split at hwhole
    · next hzero =>
      rw [if_pos hzero, hwhole]
      rfl
    · next hzero =>
      rw [if_neg hzero, hwhole]
      rfl

theorem resolveDim_again {d d' : DimCut} (h : resolveDim dim p asked m = .ok d)
    (h' : resolveDim dim p d.childExtent m = .ok d') : d' = d := by
  obtain ⟨k, n, w, hk, hn, hw, rfl⟩ := resolveDim_eq_ok.mp h
  obtain ⟨k', n', w', hk', hn', hw', rfl⟩ := resolveDim_eq_ok.mp h'
  obtain rfl : k' = k := roundUp_again hk hk'
  obtain rfl : n' = n := Except.ok.inj (hn'.symm.trans hn)
  split at hw
  · next hzero =>
    rw [if_pos hzero] at hw'
    rw [Except.ok.inj (hw'.symm.trans hw)]
  · next hzero =>
    rw [if_neg hzero] at hw'
    rw [hw', hw]

/-- What becomes of the first entry: it is passed over in the step dimension, and resolved in any
other one. -/
theorem resolveEntries_cons_eq_ok {es : List (String × Int)} {name : String} {size total : Int}
    {r : List (String × Int) × List DimCut × Int} :
    resolveEntries parent mults stepDim total ((name, size) :: es) = .ok r ↔
      (name = stepDim ∧ ∃ rest, resolveEntries parent mults stepDim total es = .ok rest ∧
        r = ((name, size) :: rest.1, rest.2)) ∨
      name ≠ stepDim ∧ ∃ d n rest,
        resolveDim name (parent.getD name 0) size (mults.getD name 1) = .ok d ∧
          Idx.mul total d.pieces = .ok n ∧ resolveEntries parent mults stepDim n es = .ok rest ∧
          r = ((name, d.childExtent) :: rest.1, d :: rest.2.1, rest.2.2) := by
  rw [resolveEntries]
  by_cases hstep : name = stepDim
  · rw [if_pos hstep]
    simp only [bind_eq_ok, pure_eq_ok]
    constructor
    · rintro ⟨rest, hrest, rfl⟩
      exact .inl ⟨hstep, rest, hrest, rfl⟩
    · rintro (⟨-, rest, hrest, rfl⟩ | ⟨hne, -⟩)
      · exact ⟨rest, hrest, rfl⟩
      · exact absurd hstep hne
  · rw [if_neg hstep]
    simp only [bind_eq_ok, pure_eq_ok]
    constructor
    · rintro ⟨d, hd, n, hn, rest, hrest, rfl⟩
      exact .inr ⟨hstep, d, n, rest, hd, hn, hrest, rfl⟩
    · rintro (⟨heq, -⟩ | ⟨-, d, n, rest, hd, hn, hrest, rfl⟩)
      · exact absurd heq hstep
      · exact ⟨d, hd, n, hn, rest, hrest, rfl⟩

theorem resolveEntries_again {es : List (String × Int)} {total : Int}
    {r r' : List (String × Int) × List DimCut × Int}
    (h : resolveEntries parent mults stepDim total es = .ok r)
    (h' : resolveEntries parent mults stepDim total r.1 = .ok r') : r' = r := by
  induction es generalizing total r r' with
  | nil =>
    obtain rfl : ([], [], total) = r := Except.ok.inj h
    exact (Except.ok.inj h').symm
  | cons e es ih =>
    obtain ⟨name, size⟩ := e
    -- The name decides which of the two cases it is, and both passes see the same name.
    rcases resolveEntries_cons_eq_ok.mp h with ⟨hstep, rest, hrest, rfl⟩ |
      ⟨hstep, d, n, rest, hd, hn, hrest, rfl⟩
    · obtain ⟨-, rest', hrest', rfl⟩ := (resolveEntries_cons_eq_ok.mp h').resolve_right
        fun hboth => hboth.1 hstep
      obtain rfl := ih hrest hrest'
      rfl
    · obtain ⟨-, d', n', rest', hd', hn', hrest', rfl⟩ :=
        (resolveEntries_cons_eq_ok.mp h').resolve_left fun hboth => hstep hboth.1
      obtain rfl := resolveDim_again hd hd'
      obtain rfl : n' = n := Except.ok.inj (hn'.symm.trans hn)
      obtain rfl := ih hrest hrest'
      rfl

/-- Cutting what was cut leaves it as it is and reports the same. -/
theorem cutInto_again (h : cutInto parent label child label' mults stepDim = .ok r)
    (h' : cutInto parent label r.1 label' mults stepDim = .ok r') : r' = r := by
  simp only [cutInto, bind_eq_ok, pure_eq_ok] at h h'
  obtain ⟨e, he, rfl⟩ := h
  obtain ⟨e', he', rfl⟩ := h'
  obtain rfl := resolveEntries_again he he'
  rfl

theorem yields_cutTiles {v : Verbosity} {u u' : Unit} :
    (cutTiles parent label child label' mults stepDim).Yields v u r u' ↔
      cutInto parent label child label' mults stepDim = .ok r := by
  simp [cutTiles]

/-- Tiles that were cut once are cut into themselves, with the same report. Nothing is asked of the
parent, the requests and the multiples: a size that comes out zero or negative stands for the
parent when it is asked for again, and that is what it was made from. -/
theorem cutTiles_again {v w : Verbosity}
    (h : ((cutTiles parent label child label' mults stepDim).run v ()).result = .ok r)
    (h' : ((cutTiles parent label r.1 label' mults stepDim).run w ()).result = .ok r') :
    r'.1 = r.1 ∧ r'.2 = r.2 := by
  have hcut := yields_cutTiles.mp (Task.yields_of_result h)
  have hcut' := yields_cutTiles.mp (Task.yields_of_result h')
  have heq := cutInto_again hcut hcut'
  simp [heq]

namespace Mixed

/-- A region that is negative in one dimension and has no extent in another. -/
def region : DimVec := ⟨[("x", -5), ("y", 100), ("z", 0)]⟩

/-- Requests of every sign, one of them in a dimension that the region does not have. -/
def block : DimVec := ⟨[("t", 3), ("x", -7), ("y", 30), ("z", 5), ("w", 0)]⟩

/-- Two multiples that are rounded up to, and one that stands for no rounding. -/
def folds : DimVec := ⟨[("x", 4), ("y", 8), ("z", -3)]⟩

/-- What the requests come to: the negative region is inherited and rounded toward zero. -/
def resolved : DimVec := ⟨[("t", 3), ("x", -4), ("y", 32), ("z", 5), ("w", 0)]⟩

end Mixed

/-- Cut again, the size of minus four is inherited from the region once more. -/
theorem cutTiles_again_mixed : ∃ r r',
    ((cutTiles Mixed.region "region" Mixed.block "block" Mixed.folds "t").run none ()).result =
      .ok r ∧ r.1 = Mixed.resolved ∧
    ((cutTiles Mixed.region "region" r.1 "block" Mixed.folds "t").run none ()).result = .ok r' ∧
      r'.1 = r.1 ∧ r'.2 = r.2 := by
  obtain ⟨r, hr, hresolved⟩ := exists_eq_ok_of_any
    (x := ((cutTiles Mixed.region "region" Mixed.block "block" Mixed.folds "t").run
      none ()).result)
    (p := fun r => decide (r.1 = Mixed.resolved)) (by decide +kernel)
  have hchild := of_decide_eq_true hresolved
  obtain ⟨r', hr', -⟩ := Task.exists_yields_of_isSome
    (x := cutTiles Mixed.region "region" r.1 "block" Mixed.folds "t") (v := none) (s := ())
    (by rw [hchild]; decide +kernel)
  exact ⟨r, r', hr, hchild, hr', cutTiles_again hr hr'⟩

/-! ### What a cut leaves -/

theorem resolveEntries_eq_ok {es : List (String × Int)} {total : Int}
    {r : List (String × Int) × List DimCut × Int}
    (h : resolveEntries parent mults stepDim total es = .ok r) :
    r.1.map (·.1) = es.map (·.1) ∧ ((∀ n ∈ parent.values, Idx.InRange n) →
      (∀ e ∈ es, Idx.InRange e.2) → ∀ e ∈ r.1, Idx.InRange e.2) := by
  induction es generalizing total r with
  | nil =>
    obtain rfl : ([], [], total) = r := Except.ok.inj h
    simp
  | cons e es ih =>
    obtain ⟨name, size⟩ := e
    rcases resolveEntries_cons_eq_ok.mp h with ⟨-, rest, hrest, rfl⟩ |
      ⟨-, d, n, rest, hd, -, hrest, rfl⟩
    · obtain ⟨hnames, hrange⟩ := ih hrest
      refine ⟨by simp [hnames], fun hparent hes => ?_⟩
      rw [List.forall_mem_cons] at hes ⊢
      exact ⟨hes.1, hrange hparent hes.2⟩
    · obtain ⟨hnames, hrange⟩ := ih hrest
      refine ⟨by simp [hnames], fun hparent hes => ?_⟩
      rw [List.forall_mem_cons] at hes ⊢
      obtain ⟨k, _, _, hk, -, -, rfl⟩ := resolveDim_eq_ok.mp hd
      refine ⟨inRange_roundUp ?_ hk, hrange hparent hes.2⟩
      -- What is rounded up is the request or the size of the parent.
      split
      · by_cases hmem : name ∈ parent.names
        · exact hparent _ (DimVec.getD_mem_values hmem)
        · rw [DimVec.getD_eq_of_notMem hmem]
          decide
      · exact hes.1

theorem names_cutInto (h : cutInto parent label child label' mults stepDim = .ok r) :
    r.1.names = child.names := by
  simp only [cutInto, bind_eq_ok, pure_eq_ok] at h
  obtain ⟨e, he, rfl⟩ := h
  exact (resolveEntries_eq_ok he).1

theorem inRange_cutInto (hparent : ∀ n ∈ parent.values, Idx.InRange n)
    (hchild : ∀ n ∈ child.values, Idx.InRange n)
    (h : cutInto parent label child label' mults stepDim = .ok r) :
    ∀ n ∈ r.1.values, Idx.InRange n := by
  simp only [cutInto, bind_eq_ok, pure_eq_ok] at h
  obtain ⟨e, he, rfl⟩ := h
  have hrange := (resolveEntries_eq_ok he).2 hparent fun e he =>
    hchild e.2 (List.mem_map_of_mem he)
  intro n hn
  obtain ⟨e, he, rfl⟩ := List.mem_map.mp hn
  exact hrange e he

theorem lookup_step_resolveEntries {es : List (String × Int)} {total : Int}
    {r : List (String × Int) × List DimCut × Int}
    (h : resolveEntries parent mults stepDim total es = .ok r) :
    r.1.lookup stepDim = es.lookup stepDim := by
  induction es generalizing total r with
  | nil =>
    obtain rfl : ([], [], total) = r := Except.ok.inj h
    rfl
  | cons e es ih =>
    obtain ⟨name, size⟩ := e
    rcases resolveEntries_cons_eq_ok.mp h with ⟨hstep, rest, -, rfl⟩ |
      ⟨hstep, d, n, rest, -, -, hrest, rfl⟩
    · rw [DimVec.lookup_cons_eq, DimVec.lookup_cons_eq, if_pos hstep.symm, if_pos hstep.symm]
    · rw [DimVec.lookup_cons_eq, DimVec.lookup_cons_eq, if_neg (Ne.symm hstep),
        if_neg (Ne.symm hstep), ih hrest]

/-- The steps that are asked for are left alone, whatever the other entries come to. -/
theorem getD_step_cutInto (h : cutInto parent label child label' mults stepDim = .ok r) (w : Int) :
    r.1.getD stepDim w = child.getD stepDim w := by
  simp only [cutInto, bind_eq_ok, pure_eq_ok] at h
  obtain ⟨e, he, rfl⟩ := h
  rw [DimVec.getD, DimVec.getD, DimVec.get?, DimVec.get?, lookup_step_resolveEntries he]

/-- Each entry is rounded up, but for the one of the steps. -/
theorem cutInto_eq_map (hm : ∀ d ∈ child.names, d ≠ stepDim → 0 < mults.getD d 1)
    (h : cutInto parent label child label' mults stepDim = .ok r) :
    r.1 = child.map (roundedEntry parent mults stepDim) := by
  simp only [cutInto, bind_eq_ok, pure_eq_ok] at h
  obtain ⟨e, he, rfl⟩ := h
  have hentries := (gives_resolveEntries (fun e he => hm e.1 (List.mem_map_of_mem he)) 1).of_ok he
  rw [DimVec.map, ← hentries]

end Again

/-! ### Where a cut goes through -/

section Fits

variable {dim stepDim : String} {p asked m n : Int} {parent child mults : DimVec}

theorem coverCount_eq_ok {r : Int × Int} (hp : 0 < p) (hn : 0 < n) :
    coverCount p n = .ok r ↔ p + n ≤ Idx.max ∧ r = ((p + n - 1) / n, p % n) := by
  have hdiv : (p + n - 1).tdiv n = (p + n - 1) / n := Int.tdiv_eq_ediv_of_nonneg (by omega)
  have hmod : p.tmod n = p % n := Int.tmod_eq_emod_of_nonneg hp.le
  have hquot : 0 ≤ (p + n - 1) / n ∧ (p + n - 1) / n ≤ p + n - 1 :=
    ⟨Int.ediv_nonneg (by omega) hn.le, Int.ediv_le_self _ (by omega)⟩
  rw [coverCount, if_neg (by omega)]
  simp only [bind_eq_ok, pure_eq_ok, Idx.add_eq_ok_iff, Idx.sub_eq_ok_iff, Idx.div_eq_ok_iff]
  constructor
  · rintro ⟨_, ⟨hsum, rfl⟩, _, ⟨-, rfl⟩, _, ⟨-, -, rfl⟩, k, hk, rfl⟩
    rw [(Idx.gives_rem hn.ne').of_ok hk, hdiv, hmod]
    exact ⟨hsum.2, rfl⟩
  · rintro ⟨hsum, rfl⟩
    -- every intermediate result lies between zero and the sum
    have hrange : ∀ k, 0 ≤ k → k ≤ p + n → Idx.InRange k := fun k hk hle =>
      Idx.inRange_of_nonneg hk (hle.trans hsum)
    have hrem := Idx.rem_of_pos (hrange p hp.le (by omega)) hn
    refine ⟨_, ⟨?_, rfl⟩, _, ⟨?_, rfl⟩, _, ⟨hn.ne', ?_, rfl⟩, _, hrem, ?_⟩
    · exact hrange _ (by omega) le_rfl
    · exact hrange _ (by omega) (by omega)
    · rw [hdiv]
      exact hrange _ hquot.1 (by omega)
    · rw [hdiv, hmod]

/-- What a request is rounded up to, where the parent stands in for one that is not positive. -/
theorem exists_resolveDim_iff (hm : 0 < m) (hp : m ≤ p) :
    (∃ d, resolveDim dim p asked m = .ok d) ↔
      p + multipleAbove (if asked ≤ 0 then p else asked) m ≤ Idx.max := by
  have hbase : 0 < if asked ≤ 0 then p else asked := by
    split <;> omega
  generalize hb : (if asked ≤ 0 then p else asked) = base at hbase
  have hle := le_multipleAbove (n := base) hm
  have hcover {r : Int × Int} := @coverCount_eq_ok p (multipleAbove base m) r (by omega) (by omega)
  constructor
  · rintro ⟨d, hd⟩
    obtain ⟨k, r, _, hround, hr, -, -⟩ := resolveDim_eq_ok.mp hd
    rw [hb] at hround
    rw [(gives_roundUp hm).of_ok hround] at hr
    exact (hcover.mp hr).1
  · intro hfits
    have hround : roundUp (if asked ≤ 0 then p else asked) m = .ok (multipleAbove base m) := by
      rw [hb]
      exact roundUp_of_add_le (Idx.inRange_of_nonneg hbase.le (by omega)) hm (by omega)
    have hcount := hcover.mpr ⟨hfits, rfl⟩
    have hquot : 0 ≤ (p + multipleAbove base m - 1) / multipleAbove base m ∧
        (p + multipleAbove base m - 1) / multipleAbove base m ≤ p + multipleAbove base m - 1 :=
      ⟨Int.ediv_nonneg (by omega) (by omega), Int.ediv_le_self _ (by omega)⟩
    -- At least one child covers the parent, so taking one off for the last does not go below zero.
    have hone : 1 ≤ (p + multipleAbove base m - 1) / multipleAbove base m := by
      rw [Int.le_ediv_iff_mul_le (by omega)]
      omega
    have hsub : Idx.InRange ((p + multipleAbove base m - 1) / multipleAbove base m - 1) :=
      Idx.inRange_of_nonneg (by omega) (by omega)
    by_cases hzero : p % multipleAbove base m ≠ 0
    · have hwhole := Idx.sub_eq_ok_iff.mpr ⟨hsub, rfl⟩
      exact ⟨_, resolveDim_eq_ok.mpr ⟨_, _, _, hround, hcount, (if_pos hzero).mpr hwhole, rfl⟩⟩
    · exact ⟨_, resolveDim_eq_ok.mpr ⟨_, _, _, hround, hcount, (if_neg hzero).mpr rfl, rfl⟩⟩

/-- At least one child covers the parent, and never more than there are points in it. -/
theorem pieces_resolveDim {d : DimCut} (hm : 0 < m) (hp : m ≤ p)
    (h : resolveDim dim p asked m = .ok d) : 1 ≤ d.pieces ∧ d.pieces ≤ p := by
  obtain ⟨k, n, _, hround, hn, -, rfl⟩ := resolveDim_eq_ok.mp h
  have hle := le_multipleAbove (n := if asked ≤ 0 then p else asked) hm
  rw [← (gives_roundUp hm).of_ok hround] at hle
  have hchild : 0 < k := by
    split at hle <;> omega
  rw [((coverCount_eq_ok (by omega) hchild).mp hn).2]
  constructor
  · rw [Int.le_ediv_iff_mul_le hchild]
    omega
  · refine Int.lt_add_one_iff.mp (Int.ediv_lt_of_lt_mul hchild ?_)
    have hmul : p * 1 ≤ p * k := Int.mul_le_mul_of_nonneg_left hchild (by omega)
    rw [Int.add_mul]
    omega

/-- The sizes of a tile in the dimensions in which it is cut. -/
def extents (t : DimVec) (stepDim : String) (names : List String) : List Int :=
  (names.filter (· ≠ stepDim)).map fun dim => t.getD dim 0

/-- In every dimension in which it is cut the parent holds at least one multiple. -/
def Holds (parent mults : DimVec) (stepDim : String) (names : List String) : Prop :=
  ∀ dim ∈ names, dim ≠ stepDim → 0 < mults.getD dim 1 ∧ mults.getD dim 1 ≤ parent.getD dim 0

theorem Holds.one_le_prod {names : List String} (h : Holds parent mults stepDim names) :
    1 ≤ (extents parent stepDim names).prod := by
  refine List.one_le_prod fun n hn => ?_
  obtain ⟨d, hd, rfl⟩ := List.mem_map.mp hn
  obtain ⟨hd, hne⟩ := List.mem_filter.mp hd
  obtain ⟨hm, hle⟩ := h d hd (of_decide_eq_true hne)
  omega

/-- The pieces are at most as many as the points, so a running product of pieces stays in range
where that of the points does. Here `rest` stands for the dimensions to come. -/
theorem running_resolveDim {d : DimCut} {total rest : Int} (hm : 0 < m) (hp : m ≤ p)
    (h : resolveDim dim p asked m = .ok d) (htotal : 1 ≤ total) (hrest : 1 ≤ rest)
    (hprod : total * p * rest ≤ Idx.max) :
    1 ≤ total * d.pieces ∧ Idx.mul total d.pieces = .ok (total * d.pieces) ∧
      total * d.pieces * rest ≤ Idx.max := by
  obtain ⟨hpos, hpieces⟩ := pieces_resolveDim hm hp h
  have hge : 1 ≤ total * d.pieces := one_le_mul_of_one_le_of_one_le htotal hpos
  have hmul : total * d.pieces ≤ total * p := Int.mul_le_mul_of_nonneg_left hpieces (by omega)
  have hall : total * d.pieces * rest ≤ total * p * rest :=
    Int.mul_le_mul_of_nonneg_right hmul (by omega)
  have hgrow : total * d.pieces * 1 ≤ total * d.pieces * rest :=
    Int.mul_le_mul_of_nonneg_left hrest (by omega)
  rw [Int.mul_one] at hgrow
  have hrange : Idx.InRange (total * d.pieces) := Idx.inRange_of_nonneg (by omega) (by omega)
  exact ⟨hge, Idx.mul_eq_ok_iff.mpr ⟨hrange, rfl⟩, by omega⟩

/-- The entries are cut one after the other, and the only thing that can go wrong is the rounding of
a size: the running product of the pieces stays in range. -/
theorem exists_resolveEntries_iff {es : List (String × Int)} {total : Int} (htotal : 1 ≤ total)
    (hes : Holds parent mults stepDim (es.map (·.1)))
    (hprod : total * (extents parent stepDim (es.map (·.1))).prod ≤ Idx.max) :
    (∃ r, resolveEntries parent mults stepDim total es = .ok r) ↔ ∀ e ∈ es, e.1 ≠ stepDim →
      parent.getD e.1 0 + roundedEntry parent mults stepDim e.1 e.2 ≤ Idx.max := by
  induction es generalizing total with
  | nil => exact ⟨fun _ e he => absurd he List.not_mem_nil, fun _ => ⟨_, rfl⟩⟩
  | cons e es ih =>
    obtain ⟨name, size⟩ := e
    obtain ⟨hfirst, hrest⟩ := List.forall_mem_cons.mp hes
    rw [List.forall_mem_cons]
    simp only [resolveEntries_cons_eq_ok]
    by_cases hstep : name = stepDim
    · -- the entry of the steps is passed over
      have hskip : extents parent stepDim (((name, size) :: es).map (·.1)) =
          extents parent stepDim (es.map (·.1)) := by
        simp [extents, hstep]
      rw [← ih htotal hrest (hskip ▸ hprod)]
      constructor
      · rintro ⟨_, ⟨-, r, hr, -⟩ | ⟨hne, -⟩⟩
        · exact ⟨fun hne => absurd hstep hne, r, hr⟩
        · exact absurd hstep hne
      · rintro ⟨-, r, hr⟩
        exact ⟨_, .inl ⟨hstep, r, hr, rfl⟩⟩
    · obtain ⟨hm, hle⟩ := hfirst hstep
      have hone := Holds.one_le_prod hrest
      have hcons : (extents parent stepDim (((name, size) :: es).map (·.1))).prod =
          parent.getD name 0 * (extents parent stepDim (es.map (·.1))).prod := by
        simp [extents, hstep]
      rw [hcons, ← Int.mul_assoc] at hprod
      have hrunning := fun d
          (hd : resolveDim name (parent.getD name 0) size (mults.getD name 1) = .ok d) =>
        running_resolveDim hm hle hd htotal hone hprod
      rw [roundedEntry, if_neg hstep, ← exists_resolveDim_iff hm hle]
      constructor
      · rintro ⟨_, ⟨heq, -⟩ | ⟨-, d, n, r, hd, hn, hr, -⟩⟩
        · exact absurd heq hstep
        · obtain ⟨hge, hmul, hbound⟩ := hrunning d hd
          obtain rfl : n = total * d.pieces := Except.ok.inj (hn.symm.trans hmul)
          exact ⟨fun _ => ⟨d, hd⟩, (ih hge hrest hbound).mp ⟨r, hr⟩⟩
      · rintro ⟨hd, hes⟩
        obtain ⟨d, hd⟩ := hd hstep
        obtain ⟨hge, hmul, hbound⟩ := hrunning d hd
        obtain ⟨r, hr⟩ := (ih hge hrest hbound).mpr hes
        exact ⟨_, .inr ⟨hstep, d, _, r, hd, hmul, hr, rfl⟩⟩

/-- A cut goes through exactly if each child fits into 64 bits on top of its parent. -/
theorem exists_cutInto_iff {label label' : String} (hholds : Holds parent mults stepDim child.names)
    (hnodup : child.names.Nodup)
    (hprod : (extents parent stepDim child.names).prod ≤ Idx.max) :
    (∃ r, cutInto parent label child label' mults stepDim = .ok r) ↔
      ∀ dim ∈ child.names, dim ≠ stepDim → parent.getD dim 0 +
        roundedEntry parent mults stepDim dim (child.getD dim 0) ≤ Idx.max := by
  have hentries := @exists_resolveEntries_iff stepDim parent mults child.entries 1 le_rfl hholds
    (by rwa [Int.one_mul])
  have hcut : (∃ r, cutInto parent label child label' mults stepDim = .ok r) ↔
      ∃ r, resolveEntries parent mults stepDim 1 child.entries = .ok r := by
    simp only [cutInto, bind_eq_ok, pure_eq_ok]
    constructor
    · rintro ⟨_, r, hr, -⟩
      exact ⟨r, hr⟩
    · rintro ⟨r, hr⟩
      exact ⟨_, r, hr, rfl⟩
  rw [hcut, hentries]
  constructor
  · intro h dim hdim hne
    obtain ⟨e, he, rfl⟩ := List.mem_map.mp hdim
    rw [DimVec.getD_of_mem_entries hnodup he]
    exact h e he hne
  · intro h e he hne
    rw [← DimVec.getD_of_mem_entries (w := 0) hnodup he]
    exact h e.1 (List.mem_map_of_mem he) hne

end Fits

end StencilPlan
